import GraphTraversal.Numeric.Shortest
import GraphTraversal.Text.Quoted
import GraphTraversal.Data.OrderedMap
import GraphTraversal.Data.Ring
import GraphTraversal.Data.StableSort
import GraphTraversal.Value.Order
import GraphTraversal.Step.Basic
import GraphTraversal.Step.Evaluation
import GraphTraversal.Bytecode.Printer
import GraphTraversal.Bytecode.Bindings
import GraphTraversal.Bytecode.HashCode
import GraphTraversal.Strategy.Set
import GraphTraversal.Traversal.Clause
import GraphTraversal.Traversal.Replay
import GraphTraversal.Json.Meaning
import GraphTraversal.Graph.Reader
import GraphTraversal.Graph.Modern
import GraphTraversal.Config
import GraphTraversal.Directive
import GraphTraversal.Proofs.Traversal.ReadOnly
import GraphTraversal.Proofs.Graph.Representation
import GraphTraversal.Proofs.Strategy.Ordering
import GraphTraversal.Proofs.Strategy.Idempotence
import GraphTraversal.Proofs.Traversal.Replaying
import GraphTraversal.Proofs.Numeric.Rounding
import GraphTraversal.Proofs.Value.Order
import GraphTraversal.Proofs.Strategy.Registration
import GraphTraversal.Proofs.Strategy.Verdict
import GraphTraversal.Proofs.Strategy.Commuting
import GraphTraversal.Proofs.Strategy.Cycles
import GraphTraversal.Proofs.Run.Contracts
import GraphTraversal.Proofs.Run.Resumption
import GraphTraversal.Proofs.Run.Draws
import GraphTraversal.Proofs.Run.Tally
import GraphTraversal.Proofs.Run.Demand
import GraphTraversal.Proofs.Step.Demand
import GraphTraversal.Proofs.Run.Dryness
import GraphTraversal.Proofs.Traversal.Peeking
import GraphTraversal.Proofs.Step.Memory
import GraphTraversal.Proofs.Run.Turns
import GraphTraversal.Proofs.Step.Ending
import GraphTraversal.Proofs.Step.DepthFirst
import GraphTraversal.Proofs.Step.Sorting
import GraphTraversal.Proofs.Step.Failures
import GraphTraversal.Proofs.Bytecode.Equality
import GraphTraversal.Proofs.Traversal.Rejection
import GraphTraversal.Proofs.Bytecode.Rewriting
import GraphTraversal.Proofs.Traversal.Fidelity
import GraphTraversal.Proofs.Traversal.Variables
import GraphTraversal.Proofs.Graph.Adjacency
import GraphTraversal.Proofs.Graph.Removal
import GraphTraversal.Proofs.Graph.Loading
import GraphTraversal.Proofs.Step.Routing
import GraphTraversal.Proofs.Step.Counting
import GraphTraversal.Proofs.Step.Projecting
import GraphTraversal.Proofs.Run.Simulation
import GraphTraversal.Proofs.Step.Conjunction
import GraphTraversal.Proofs.Step.Rounds
import GraphTraversal.Proofs.Step.Chains
import GraphTraversal.Proofs.Step.Unrolling
import GraphTraversal.Proofs.Bytecode.Occurrences
import GraphTraversal.Proofs.Numeric.Turning
import GraphTraversal.Proofs.Bytecode.Exchange
import GraphTraversal.Proofs.Data.Rotation
