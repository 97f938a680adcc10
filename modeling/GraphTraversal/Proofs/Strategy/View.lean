import GraphTraversal.Proofs.Graph.Consistency
import GraphTraversal.Proofs.Step.Acts

/-! # Pipelines in a restricted graph

A view says which elements of a graph may be seen.  Under a view a step that emits elements emits only
those that are seen, and a step to neighbours goes only over edges that may be crossed; all other steps
act as ever.  The same steps run, so nothing is said here of how a strategy brings this about.
-/

namespace GraphTraversal

section Machines

variable (w : View)

variable {w}

end Machines

end GraphTraversal
