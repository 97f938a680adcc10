import GraphTraversal.Bytecode.Bindings
import GraphTraversal.Proofs.Bytecode.Rewriting
import GraphTraversal.Proofs.Data.OrderedMap
import GraphTraversal.Strategy.Builtin

/-! # Occurrences of bindings

A binding may stand among the arguments of an instruction, in the value of another binding, in child
bytecode or in the configuration of a strategy.  Read from left to right, each argument before what
stands in it, bytecode has a list of occurrences; its bindings are the names of that list, each at the
place of its first occurrence and with the value of its last.  A name that is bound again inside its own
value thus has the inner value.
-/

namespace GraphTraversal

/-! ## Arguments in the order of reading -/

/-- The arguments of all instructions, those of the source first. -/
def Bytecode.arguments (b : Bytecode) : List Argument := b.instructions.flatMap (·.arguments)

/-- The arguments that stand directly in an argument.  A configuration is read by its keys. -/
def Argument.parts : Argument → List Argument
  | .binding _ value => [value]
  | .traversal code => code.arguments
  | .strategy s => s.configuration.map (·.2)
  | .literal _ | .token _ | .lambda _ => []

theorem Argument.sizeOf_lt_of_mem_parts {a p : Argument} (h : p ∈ a.parts) : sizeOf p < sizeOf a := by
  cases a with
  | literal v | token t | lambda f => simp [parts] at h
  | binding name value =>
    obtain rfl := List.mem_singleton.1 h
    rw [binding.sizeOf_spec]
    omega
  | traversal code =>
    obtain ⟨i, hi, hp⟩ := List.mem_flatMap.1 h
    have hp := Bytecode.sizeOf_lt_of_argument hi hp
    rw [traversal.sizeOf_spec]
    omega
  | strategy s =>
    obtain ⟨name, category, prior, post, configuration, behaviour⟩ := s
    obtain ⟨⟨key, value⟩, hentry, rfl⟩ := List.mem_map.1 h
    have hsize : sizeOf (key, value) < sizeOf configuration := List.sizeOf_lt_of_mem hentry
    rw [Prod.mk.sizeOf_spec] at hsize
    rw [strategy.sizeOf_spec, Strategy.mk.sizeOf_spec]
    dsimp only
    omega

/-- What holds of an argument if it holds of the arguments that stand directly in it. -/
theorem Argument.induction {motive : Argument → Prop}
    (h : ∀ a, (∀ p ∈ a.parts, motive p) → motive a) (a : Argument) : motive a :=
  h a fun p _ => Argument.induction h p
termination_by sizeOf a
decreasing_by exact sizeOf_lt_of_mem_parts ‹_›

/-- An argument and all that stand in it, each before those that stand in it. -/
def Argument.preorder (a : Argument) : List Argument :=
  a :: a.parts.attach.flatMap fun ⟨p, _⟩ => p.preorder
termination_by sizeOf a
decreasing_by exact sizeOf_lt_of_mem_parts ‹_›

theorem Argument.preorder_eq (a : Argument) : a.preorder = a :: a.parts.flatMap (·.preorder) := by
  rw [preorder]
  simp

def Argument.bound? : Argument → Option (String × Argument)
  | .binding name value => some (name, value)
  | _ => none

def Argument.occurrences (a : Argument) : List (String × Argument) := a.preorder.filterMap (·.bound?)

/-- The bindings in bytecode, in the order of reading. -/
def Bytecode.occurrences (b : Bytecode) : List (String × Argument) :=
  b.arguments.flatMap (·.occurrences)

theorem Argument.occurrences_eq (a : Argument) :
    a.occurrences = a.bound?.toList ++ a.parts.flatMap (·.occurrences) := by
  rw [occurrences, preorder_eq, List.filterMap_cons, List.filterMap_flatMap]
  cases a.bound? <;> rfl

/-! ## Collecting from left to right -/

theorem Argument.bindAll_eq (found : OrderedMap String Argument) (l : List Argument) :
    Argument.bindAll found l = l.foldl Argument.bind found := by
  induction l generalizing found with
  | nil => rfl
  | cons a l ih => simp [Argument.bindAll, ih]

theorem Argument.bindEntries_eq (found : OrderedMap String Argument) (l : List (String × Argument)) :
    Argument.bindEntries found l = (l.map (·.2)).foldl Argument.bind found := by
  induction l generalizing found with
  | nil => rfl
  | cons p l ih => simp [Argument.bindEntries, ih]

theorem Instruction.bindAll_eq (found : OrderedMap String Argument) (l : List Instruction) :
    Instruction.bindAll found l = (l.flatMap (·.arguments)).foldl Argument.bind found := by
  induction l generalizing found with
  | nil => rfl
  | cons i l ih =>
    cases i
    simp [Instruction.bindAll, Argument.bindAll_eq, ih]

theorem Bytecode.bind_eq (b : Bytecode) (found : OrderedMap String Argument) :
    b.bind found = b.arguments.foldl Argument.bind found := by
  cases b
  simp [Bytecode.bind, Instruction.bindAll_eq, arguments, instructions]

/-- An argument adds itself, if it is a binding, and then what stands in it. -/
theorem Argument.bind_eq (a : Argument) (found : OrderedMap String Argument) :
    a.bind found = a.parts.foldl Argument.bind (found.insertAll a.bound?.toList) := by
  cases a with
  | literal v | token t | lambda f => simp [Argument.bind, parts, bound?, OrderedMap.insertAll]
  | binding name value => simp [Argument.bind, parts, bound?, OrderedMap.insertAll]
  | traversal code => simp [Argument.bind, parts, bound?, OrderedMap.insertAll, Bytecode.bind_eq]
  | strategy s =>
    cases s
    simp [Argument.bind, Strategy.bind, parts, bound?, OrderedMap.insertAll, bindEntries_eq]

theorem foldl_bind_eq_insertAll {l : List Argument}
    (h : ∀ a ∈ l, ∀ found, a.bind found = found.insertAll a.occurrences)
    (found : OrderedMap String Argument) :
    l.foldl Argument.bind found = found.insertAll (l.flatMap (·.occurrences)) := by
  induction l generalizing found with
  | nil => rfl
  | cons a l ih =>
    obtain ⟨ha, hl⟩ := List.forall_mem_cons.1 h
    rw [List.foldl_cons, ha, ih hl, List.flatMap_cons, OrderedMap.insertAll_append]

/-- Collecting from an argument is inserting its occurrences one after another. -/
theorem Argument.bind_eq_insertAll (a : Argument) (found : OrderedMap String Argument) :
    a.bind found = found.insertAll a.occurrences := by
  induction a using Argument.induction generalizing found with
  | h a ih =>
    rw [bind_eq, foldl_bind_eq_insertAll ih, occurrences_eq, OrderedMap.insertAll_append]

/-! ## Configurations in the order of their keys -/

theorem mem_keys_configureEntry {key k : String} {value : Argument} {l : List (String × Argument)}
    (h : k ∈ (configureEntry key value l).map (·.1)) : k = key ∨ k ∈ l.map (·.1) := by
  induction l with
  | nil => exact .inl (List.mem_singleton.1 h)
  | cons p l ih =>
    obtain ⟨k', v⟩ := p
    rw [configureEntry] at h
    split at h
    · exact (List.mem_cons.1 h).imp_right (List.mem_cons_of_mem _)
    · split at h
      · exact List.mem_cons.1 h
      · rcases List.mem_cons.1 h with rfl | h
        · exact .inr List.mem_cons_self
        · exact (ih h).imp_right (List.mem_cons_of_mem _)

theorem sorted_configureEntry (key : String) (value : Argument) {l : List (String × Argument)}
    (h : (l.map (·.1)).Pairwise (· < ·)) :
    ((configureEntry key value l).map (·.1)).Pairwise (· < ·) := by
  induction l with
  | nil => simp [configureEntry]
  | cons p l ih =>
    obtain ⟨k, v⟩ := p
    obtain ⟨hk, hl⟩ := List.pairwise_cons.1 h
    rw [configureEntry]
    split
    case isTrue heq =>
      subst heq
      exact h
    case isFalse hne =>
      split
      case isTrue hlt =>
        refine List.pairwise_cons.2 ⟨?_, h⟩
        intro k' hk'
        rcases List.mem_cons.1 hk' with rfl | hk'
        · exact hlt
        · exact String.lt_trans hlt (hk k' hk')
      case isFalse hge =>
        have hlt : k < key := Std.lt_of_le_of_ne (String.not_lt.1 hge) (Ne.symm hne)
        refine List.pairwise_cons.2 ⟨?_, ih hl⟩
        intro k' hk'
        rcases mem_keys_configureEntry hk' with rfl | hk'
        · exact hlt
        · exact hk k' hk'

/-- A configuration is in the order of its keys, each once. -/
theorem sorted_configure (entries : List (String × Argument)) :
    ((configure entries).map (·.1)).Pairwise (· < ·) := by
  induction entries using List.reverseRecOn with
  | nil => exact .nil
  | append_singleton l p ih =>
    rw [configure, List.foldl_append]
    exact sorted_configureEntry p.1 p.2 ih

namespace Bytecode

theorem bindings_eq_ofList (b : Bytecode) : b.bindings = .ofList b.occurrences := by
  rw [bindings, bind_eq, foldl_bind_eq_insertAll fun a _ => a.bind_eq_insertAll]
  rfl

/-- Bytecode has as its bindings exactly the names that occur in it, each once, in the order of their
first occurrences, and each with the value of its last; and configurations, whose occurrences count by
the order of their entries, are in the order of their keys. -/
theorem bindings_gather_occurrences (b : Bytecode) :
    b.bindings.Gathers b.occurrences ∧
      ∀ entries : List (String × Argument), ((configure entries).map (·.1)).Pairwise (· < ·) := by
  refine ⟨?_, sorted_configure⟩
  rw [bindings_eq_ofList]
  exact OrderedMap.gathers_ofList _

example :
    let x := Argument.binding "x" (.binding "y" (.binding "x" (.literal (.integer 1))))
    let child : Bytecode := { steps := [⟨"out", [.binding "y" (.literal (.string "knows"))]⟩] }
    let b : Bytecode := { steps := [⟨"is", [x]⟩, ⟨"filter", [.traversal child]⟩] }
    b.bindings.entries = [("x", .literal (.integer 1)), ("y", .literal (.string "knows"))] := rfl

end Bytecode

end GraphTraversal
