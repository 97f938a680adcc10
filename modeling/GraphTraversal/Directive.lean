import GraphTraversal.Text.Space

/-! # Logging directives

The default directives make one component log in detail and everything else only warnings.
-/

namespace GraphTraversal

/-- The default directives for a component, given by its path; white space around it and then colons
around it are dropped.  Without a component only warnings are logged. -/
def directives (component : String) : String :=
  match Text.trim (· == ':') (Text.trim Text.isSpace component.toList) with
  | [] => "warn"
  | path => "warn,solvra_gremlin::" ++ String.ofList path ++ "=debug"

end GraphTraversal
