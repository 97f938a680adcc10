import GraphTraversal.Numeric.Shortest

/-! # Values

What travels along a pipeline and what stands as a literal in an instruction.  Floats are compared by
bit pattern, so equality is reflexive and a NaN can be looked up.
-/

namespace GraphTraversal

/-- The name of a vertex within its graph, a number below `2 ^ 64`. -/
structure VertexId where
  val : Nat
deriving DecidableEq

/-- The name of an edge within its graph, a number below `2 ^ 64`. -/
structure EdgeId where
  val : Nat
deriving DecidableEq

/-- A value: a scalar, an element of a graph, a list, or a map whose entries keep their order and may
repeat a key. -/
inductive Value where
  | null
  | boolean (b : Bool)
  | integer (n : Int64)
  | float (x : Binary64)
  | string (s : String)
  | vertex (id : VertexId)
  | edge (id : EdgeId)
  | list (items : List Value)
  | map (entries : List (Value × Value))
deriving Inhabited

namespace Value

/-! ## Equality -/

mutual

def same : Value → Value → Bool
  | .null, .null => true
  | .boolean a, .boolean b => a == b
  | .integer a, .integer b => a == b
  | .float a, .float b => a == b
  | .string a, .string b => a == b
  | .vertex a, .vertex b => a == b
  | .edge a, .edge b => a == b
  | .list a, .list b => sameItems a b
  | .map a, .map b => sameEntries a b
  | _, _ => false

def sameItems : List Value → List Value → Bool
  | [], [] => true
  | a :: as, b :: bs => a.same b && sameItems as bs
  | _, _ => false

def sameEntries : List (Value × Value) → List (Value × Value) → Bool
  | [], [] => true
  | (k, a) :: as, (l, b) :: bs => k.same l && a.same b && sameEntries as bs
  | _, _ => false

end

mutual

theorem same_self : (v : Value) → v.same v = true
  | .null | .boolean _ | .integer _ | .float _ | .string _ | .vertex _ | .edge _ => by simp [same]
  | .list l => by simp [same, sameItems_self l]
  | .map l => by simp [same, sameEntries_self l]

theorem sameItems_self : (l : List Value) → sameItems l l = true
  | [] => rfl
  | v :: l => by simp [sameItems, same_self v, sameItems_self l]

theorem sameEntries_self : (l : List (Value × Value)) → sameEntries l l = true
  | [] => rfl
  | (k, v) :: l => by simp [sameEntries, same_self k, same_self v, sameEntries_self l]

end

mutual

theorem eq_of_same : (v w : Value) → v.same w = true → v = w
  | .null, w, h => by cases w <;> simp_all [same]
  | .boolean _, w, h => by cases w <;> simp_all [same]
  | .integer _, w, h => by cases w <;> simp_all [same]
  | .float _, w, h => by cases w <;> simp_all [same]
  | .string _, w, h => by cases w <;> simp_all [same]
  | .vertex _, w, h => by cases w <;> simp_all [same]
  | .edge _, w, h => by cases w <;> simp_all [same]
  | .list l, w, h => by
    cases w with
    | list m => rw [eq_of_sameItems l m (by simpa [same] using h)]
    | _ => simp [same] at h
  | .map l, w, h => by
    cases w with
    | map m => rw [eq_of_sameEntries l m (by simpa [same] using h)]
    | _ => simp [same] at h

theorem eq_of_sameItems : (l m : List Value) → sameItems l m = true → l = m
  | [], [], _ => rfl
  | [], _ :: _, h => by simp [sameItems] at h
  | _ :: _, [], h => by simp [sameItems] at h
  | v :: l, w :: m, h => by
    simp only [sameItems, Bool.and_eq_true] at h
    rw [eq_of_same v w h.1, eq_of_sameItems l m h.2]

theorem eq_of_sameEntries : (l m : List (Value × Value)) → sameEntries l m = true → l = m
  | [], [], _ => rfl
  | [], _ :: _, h => by simp [sameEntries] at h
  | _ :: _, [], h => by simp [sameEntries] at h
  | (k, v) :: l, (k', w) :: m, h => by
    simp only [sameEntries, Bool.and_eq_true] at h
    rw [eq_of_same k k' h.1.1, eq_of_same v w h.1.2, eq_of_sameEntries l m h.2]

end

theorem same_iff {v w : Value} : v.same w = true ↔ v = w :=
  ⟨eq_of_same v w, fun h => h ▸ same_self v⟩

instance : DecidableEq Value := fun _ _ => decidable_of_iff _ same_iff

/-! ## Reading -/

def typeName : Value → String
  | .null => "null"
  | .boolean _ => "boolean"
  | .integer _ => "integer"
  | .float _ => "float"
  | .string _ => "string"
  | .vertex _ => "vertex"
  | .edge _ => "edge"
  | .list _ => "list"
  | .map _ => "map"

def string? : Value → Option String
  | .string s => some s
  | _ => none

def integer? : Value → Option Int64
  | .integer n => some n
  | _ => none

def vertex? : Value → Option VertexId
  | .vertex id => some id
  | _ => none

def edge? : Value → Option EdgeId
  | .edge id => some id
  | _ => none

/-- The value of the first entry of a map under `key`. -/
def get? (v key : Value) : Option Value :=
  match v with
  | .map entries => (entries.find? fun e => e.1 = key).map (·.2)
  | _ => none

/-- The integer that stands for a size; sizes beyond the integers become the largest one. -/
def ofSize (n : Nat) : Value :=
  .integer (Int64.ofNat (min n (Nat.pow 2 63 - 1)))

end Value

/-! ## Text -/

def VertexId.text (id : VertexId) : String := s!"v[{id.val}]"

def EdgeId.text (id : EdgeId) : String := s!"e[{id.val}]"

namespace Value

mutual

/-- The text of a value; strings stand as they are. -/
def text : Value → String
  | .null => "null"
  | .boolean b => if b then "true" else "false"
  | .integer n => toString n.toInt
  | .float x => x.text
  | .string s => s
  | .vertex id => id.text
  | .edge id => id.text
  | .list items => "[" ++ ", ".intercalate (itemTexts items) ++ "]"
  | .map entries => "\x7b" ++ ", ".intercalate (entryTexts entries) ++ "\x7d"

def itemTexts : List Value → List String
  | [] => []
  | v :: l => v.text :: itemTexts l

def entryTexts : List (Value × Value) → List String
  | [] => []
  | (k, v) :: l => (k.text ++ "=" ++ v.text) :: entryTexts l

end

end Value

end GraphTraversal
