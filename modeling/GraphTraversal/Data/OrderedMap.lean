/-! # Maps in order of insertion

A key keeps the place of its first insertion; inserting it again replaces the value in place, and
erasing closes the gap.  No key stands twice, which the type records.
-/

namespace GraphTraversal

/-- Replaces the value of `k` where it stands, or appends the pair. -/
def insertEntry {κ ν : Type} [DecidableEq κ] (k : κ) (v : ν) : List (κ × ν) → List (κ × ν)
  | [] => [(k, v)]
  | (k', v') :: rest => if k' = k then (k, v) :: rest else (k', v') :: insertEntry k v rest

section Entries

variable {κ ν : Type} [DecidableEq κ]

theorem keys_insertEntry (k : κ) (v : ν) (l : List (κ × ν)) :
    (insertEntry k v l).map (·.1) =
      if k ∈ l.map (·.1) then l.map (·.1) else l.map (·.1) ++ [k] := by
  induction l with
  | nil => simp [insertEntry]
  | cons p l ih =>
    by_cases h : p.1 = k
    · simp [insertEntry, h]
    · have hk : ¬k = p.1 := fun e => h e.symm
      by_cases hm : k ∈ l.map (·.1) <;> simp_all [insertEntry]

theorem nodup_insertEntry (k : κ) (v : ν) {l : List (κ × ν)} (h : (l.map (·.1)).Nodup) :
    ((insertEntry k v l).map (·.1)).Nodup := by
  rw [keys_insertEntry]
  split
  · exact h
  · rename_i hk
    rw [List.nodup_append]
    refine ⟨h, by simp, ?_⟩
    intro a ha b hb e
    simp only [List.mem_singleton] at hb
    exact hk (hb ▸ e ▸ ha)

end Entries

/-- A finite map that remembers the order in which its keys first came in. -/
structure OrderedMap (κ ν : Type) where
  entries : List (κ × ν)
  nodup : (entries.map (·.1)).Nodup

namespace OrderedMap

variable {κ ν : Type}

def empty : OrderedMap κ ν := ⟨[], by simp⟩

instance : EmptyCollection (OrderedMap κ ν) := ⟨empty⟩

instance : Inhabited (OrderedMap κ ν) := ⟨empty⟩

def keys (m : OrderedMap κ ν) : List κ := m.entries.map (·.1)

def mapValues (f : κ → ν → ν) (m : OrderedMap κ ν) : OrderedMap κ ν :=
  ⟨m.entries.map fun p => (p.1, f p.1 p.2), by
    simpa [List.map_map, Function.comp_def] using m.nodup⟩

variable [DecidableEq κ]

instance [DecidableEq ν] : DecidableEq (OrderedMap κ ν) := fun m n =>
  if h : m.entries = n.entries then
    isTrue (by cases m; cases n; simp_all)
  else isFalse fun e => h (e ▸ rfl)

def get? (m : OrderedMap κ ν) (k : κ) : Option ν :=
  (m.entries.find? fun p => p.1 = k).map (·.2)

def contains (m : OrderedMap κ ν) (k : κ) : Bool := (m.get? k).isSome

/-- Gives `k` the value `v`, in place if the key is there and at the end if it is not. -/
def insert (m : OrderedMap κ ν) (k : κ) (v : ν) : OrderedMap κ ν :=
  ⟨insertEntry k v m.entries, nodup_insertEntry k v m.nodup⟩

/-- Changes the value of `k`, if the key is there. -/
def modify (m : OrderedMap κ ν) (k : κ) (f : ν → ν) : OrderedMap κ ν :=
  m.mapValues fun k' v => if k' = k then f v else v

/-- Removes a key; the others keep their order. -/
def erase (m : OrderedMap κ ν) (k : κ) : OrderedMap κ ν :=
  ⟨m.entries.filter fun p => p.1 ≠ k, m.nodup.sublist (List.filter_sublist.map _)⟩

end OrderedMap

end GraphTraversal
