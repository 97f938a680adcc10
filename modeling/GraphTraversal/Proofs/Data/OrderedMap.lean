import Mathlib.Data.List.Basic
import Mathlib.Data.List.Induction
import GraphTraversal.Data.OrderedMap

/-! # Reading ordered maps

What a key gives after an insertion, a change or a removal, where the entries stand, what insertions one
after another amount to, and which entries a test keeps.
-/

namespace GraphTraversal.OrderedMap

section Entries

variable {κ ν : Type}

theorem eq_of_entries {m n : OrderedMap κ ν} (h : m.entries = n.entries) : m = n := by
  cases m
  cases n
  cases h
  rfl

def filter (m : OrderedMap κ ν) (p : κ → ν → Bool) : OrderedMap κ ν :=
  ⟨m.entries.filter fun e => p e.1 e.2, m.nodup.sublist (List.filter_sublist.map _)⟩

theorem filter_filter (m : OrderedMap κ ν) (p q : κ → ν → Bool) :
    (m.filter p).filter q = m.filter fun k v => p k v && q k v :=
  eq_of_entries <| by
    simp only [filter, List.filter_filter]
    simp only [Bool.and_comm]

theorem filter_mapValues {m : OrderedMap κ ν} {f : κ → ν → ν} {p : κ → Bool} :
    (m.mapValues f).filter (fun k _ => p k) = (m.filter fun k _ => p k).mapValues f :=
  eq_of_entries (by simp only [filter, mapValues, List.filter_map, Function.comp_def])

theorem mapValues_mapValues (m : OrderedMap κ ν) (f f' : κ → ν → ν) :
    (m.mapValues f).mapValues f' = m.mapValues fun k v => f' k (f k v) :=
  eq_of_entries (by simp only [mapValues, List.map_map, Function.comp_def])

end Entries

variable {κ ν : Type} [DecidableEq κ]

theorem get?_eq_some_iff {m : OrderedMap κ ν} {k : κ} {v : ν} :
    m.get? k = some v ↔ (k, v) ∈ m.entries := by
  rcases m with ⟨l, hl⟩
  simp only [get?]
  induction l with
  | nil => simp
  | cons p l ih =>
    obtain ⟨hp, hnodup⟩ := List.nodup_cons.1 hl
    rcases p with ⟨k', v'⟩
    by_cases h : k' = k
    · subst h
      have hnone : (k', v) ∉ l := fun hmem => hp (List.mem_map.2 ⟨_, hmem, rfl⟩)
      simp [hnone, eq_comm]
    · have h' : k ≠ k' := fun e => h e.symm
      simpa [h, h'] using ih hnodup

theorem contains_iff {m : OrderedMap κ ν} {k : κ} : m.contains k ↔ k ∈ m.keys := by
  rw [contains, Option.isSome_iff_exists, keys, List.mem_map]
  constructor
  · rintro ⟨v, hv⟩
    exact ⟨(k, v), get?_eq_some_iff.1 hv, rfl⟩
  · rintro ⟨⟨k', v⟩, hmem, rfl⟩
    exact ⟨v, get?_eq_some_iff.2 hmem⟩

theorem contains_eq_false_iff {m : OrderedMap κ ν} {k : κ} :
    m.contains k = false ↔ k ∉ m.entries.map (·.1) := by
  rw [← Bool.not_eq_true, contains_iff, keys]

theorem contains_iff_of_entries {α : Type} {m : OrderedMap κ ν} {l : List α} {f : α → κ × ν}
    (h : m.entries = l.map f) {k : κ} : m.contains k ↔ ∃ a ∈ l, (f a).1 = k := by
  rw [contains_iff, keys, h, List.map_map, List.mem_map]
  rfl

theorem find?_insertEntry (k k' : κ) (v : ν) (l : List (κ × ν)) :
    ((insertEntry k v l).find? fun p => p.1 = k').map (·.2) =
      if k' = k then some v else (l.find? fun p => p.1 = k').map (·.2) := by
  induction l with
  | nil =>
    by_cases h : k' = k
    · simp [insertEntry, h]
    · have h' : ¬k = k' := fun e => h e.symm
      simp [insertEntry, h, h']
  | cons p l ih =>
    rcases p with ⟨k₁, v₁⟩
    by_cases hp : k₁ = k
    · subst hp
      by_cases h : k' = k₁
      · simp [insertEntry, h]
      · have h' : ¬k₁ = k' := fun e => h e.symm
        simp [insertEntry, h, h']
    · by_cases h : k₁ = k'
      · subst h
        simp [insertEntry, hp]
      · simpa [insertEntry, hp, h] using ih

theorem get?_insert (m : OrderedMap κ ν) (k k' : κ) (v : ν) :
    (m.insert k v).get? k' = if k' = k then some v else m.get? k' :=
  find?_insertEntry k k' v m.entries

theorem entries_insert {m : OrderedMap κ ν} {k : κ} (h : m.contains k = false) (v : ν) :
    (m.insert k v).entries = m.entries ++ [(k, v)] := by
  have hk : k ∉ m.entries.map (·.1) := fun hmem => by
    rw [contains_iff.2 hmem] at h
    cases h
  change insertEntry k v m.entries = _
  generalize m.entries = l at hk
  induction l with
  | nil => rfl
  | cons p l ih =>
    simp only [List.map_cons, List.mem_cons, not_or] at hk
    have hp : ¬p.1 = k := fun e => hk.1 e.symm
    simpa [insertEntry, hp] using ih hk.2

theorem get?_modify (m : OrderedMap κ ν) (k k' : κ) (f : ν → ν) :
    (m.modify k f).get? k' = if k' = k then (m.get? k').map f else m.get? k' := by
  rcases m with ⟨l, hl⟩
  simp only [modify, mapValues, get?]
  clear hl
  induction l with
  | nil => simp
  | cons p l ih =>
    by_cases hp : p.1 = k'
    · by_cases hk : k' = k
      · simp [hp, hk]
      · simp [hp, hk]
    · simpa [hp] using ih

theorem get?_erase (m : OrderedMap κ ν) (k k' : κ) :
    (m.erase k).get? k' = if k' = k then none else m.get? k' := by
  rcases m with ⟨l, hl⟩
  simp only [erase, get?]
  clear hl
  induction l with
  | nil => simp
  | cons p l ih =>
    rcases p with ⟨k₁, v₁⟩
    by_cases hp : k₁ = k
    · subst hp
      by_cases hk : k' = k₁
      · simp [hk]
      · have h' : ¬k₁ = k' := fun e => hk e.symm
        simpa [hk, h'] using ih
    · by_cases hk : k₁ = k'
      · subst hk
        simp [hp]
      · simpa [hp, hk] using ih

theorem mapValues_insert (f : κ → ν → ν) (m : OrderedMap κ ν) (k : κ) (v : ν) :
    (m.insert k v).mapValues f = (m.mapValues f).insert k (f k v) := by
  rcases m with ⟨l, hl⟩
  simp only [insert, mapValues, mk.injEq]
  clear hl
  induction l with
  | nil => rfl
  | cons p l ih =>
    by_cases hp : p.1 = k
    · simp [insertEntry, hp]
    · simp [insertEntry, hp, ih]

/-! ## Keys -/

theorem contains_insert_iff {m : OrderedMap κ ν} {k k' : κ} {v : ν} :
    (m.insert k v).contains k' ↔ k' = k ∨ m.contains k' := by
  rw [contains, get?_insert]
  split
  · rename_i h
    simp [h]
  · rename_i h
    simp [h, contains]

theorem contains_modify {m : OrderedMap κ ν} {k k' : κ} {f : ν → ν} :
    (m.modify k f).contains k' = m.contains k' := by
  rw [contains, get?_modify]
  split
  · rw [Option.isSome_map]
    rfl
  · rfl

theorem contains_erase_iff {m : OrderedMap κ ν} {k k' : κ} :
    (m.erase k).contains k' ↔ k' ≠ k ∧ m.contains k' := by
  rw [contains, get?_erase]
  split
  · rename_i h
    simp [h]
  · rename_i h
    simp [h, contains]

/-! ## Changes -/

theorem modify_modify (m : OrderedMap κ ν) (k : κ) (f f' : ν → ν) :
    (m.modify k f).modify k f' = m.modify k fun v => f' (f v) := by
  rw [modify, modify, modify, mapValues_mapValues]
  congr 1
  funext k' v
  by_cases hk : k' = k
  · simp only [if_pos hk]
  · simp only [if_neg hk]

theorem modify_insert {m : OrderedMap κ ν} {k : κ} (h : m.contains k = false) (v : ν) (f : ν → ν) :
    (m.insert k v).modify k f = m.insert k (f v) := by
  apply eq_of_entries
  have hkeep : m.entries.map (fun e => (e.1, if e.1 = k then f e.2 else e.2)) = m.entries := by
    refine (List.map_congr_left fun e he => ?_).trans (List.map_id _)
    have hk : e.1 ≠ k := by
      rintro rfl
      rw [contains_iff.2 (List.mem_map.2 ⟨e, he, rfl⟩)] at h
      cases h
    rw [if_neg hk]
    rfl
  simp only [modify, mapValues, entries_insert h, List.map_append, hkeep, List.map_singleton, if_pos]

/-! ## Insertions one after another -/

def insertAll (m : OrderedMap κ ν) (l : List (κ × ν)) : OrderedMap κ ν :=
  l.foldl (fun m p => m.insert p.1 p.2) m

theorem insertAll_append (m : OrderedMap κ ν) (l l' : List (κ × ν)) :
    m.insertAll (l ++ l') = (m.insertAll l).insertAll l' :=
  List.foldl_append

def ofList (l : List (κ × ν)) : OrderedMap κ ν := insertAll ∅ l

/-- Every key of the pairs once, at the place of its first and with the value of its last occurrence. -/
structure Gathers (m : OrderedMap κ ν) (l : List (κ × ν)) : Prop where
  keys : m.keys = (l.map (·.1)).eraseDups
  get? : ∀ k, m.get? k = (l.reverse.find? fun p => p.1 = k).map (·.2)

theorem gathers_ofList (l : List (κ × ν)) : (ofList l).Gathers l := by
  induction l using List.reverseRecOn with
  | nil => exact ⟨rfl, fun _ => rfl⟩
  | append_singleton l p ih =>
    have hinsert : ofList (l ++ [p]) = (ofList l).insert p.1 p.2 := insertAll_append ∅ l [p]
    rw [hinsert]
    constructor
    · have hkeys : ((ofList l).insert p.1 p.2).keys =
          if p.1 ∈ (ofList l).keys then (ofList l).keys else (ofList l).keys ++ [p.1] :=
        keys_insertEntry p.1 p.2 (ofList l).entries
      rw [hkeys, ih.keys, List.map_append, List.eraseDups_append]
      by_cases hp : p.1 ∈ l.map (·.1)
      · simp [hp, List.removeAll]
      · simp [hp, List.removeAll, List.eraseDups_cons]
    · intro k
      rw [get?_insert, ih.get?, List.reverse_append, List.reverse_singleton, List.singleton_append,
        List.find?_cons]
      by_cases hk : k = p.1
      · simp [hk]
      · have hk' : ¬p.1 = k := fun h => hk h.symm
        simp [hk, hk']

/-! ## Entries that stay -/

theorem erase_eq_filter (m : OrderedMap κ ν) (k : κ) : m.erase k = m.filter fun k' _ => k' ≠ k := rfl

theorem filter_congr {m : OrderedMap κ ν} {p q : κ → ν → Bool}
    (h : ∀ k v, m.get? k = some v → p k v = q k v) : m.filter p = m.filter q :=
  eq_of_entries (List.filter_congr fun e he => h e.1 e.2 (get?_eq_some_iff.2 he))

theorem filter_eq_self {m : OrderedMap κ ν} {p : κ → ν → Bool}
    (h : ∀ k v, m.get? k = some v → p k v = true) : m.filter p = m :=
  eq_of_entries (List.filter_eq_self.2 fun e he => h e.1 e.2 (get?_eq_some_iff.2 he))

theorem get?_filter_eq_some_iff {m : OrderedMap κ ν} {p : κ → ν → Bool} {k : κ} {v : ν} :
    (m.filter p).get? k = some v ↔ m.get? k = some v ∧ p k v = true := by
  simp only [get?_eq_some_iff, filter, List.mem_filter]

theorem contains_of_filter {m : OrderedMap κ ν} {p : κ → ν → Bool} {k : κ}
    (h : (m.filter p).contains k) : m.contains k := by
  obtain ⟨v, hv⟩ := Option.isSome_iff_exists.1 h
  exact Option.isSome_iff_exists.2 ⟨v, (get?_filter_eq_some_iff.1 hv).1⟩

theorem contains_filter {m : OrderedMap κ ν} {p : κ → ν → Bool} {k : κ} {v : ν}
    (h : m.get? k = some v) : (m.filter p).contains k = p k v := by
  rw [Bool.eq_iff_iff, contains, Option.isSome_iff_exists]
  constructor
  · rintro ⟨w, hw⟩
    obtain ⟨hw, hp⟩ := get?_filter_eq_some_iff.1 hw
    cases h.symm.trans hw
    exact hp
  · intro hp
    exact ⟨v, get?_filter_eq_some_iff.2 ⟨h, hp⟩⟩

theorem mapValues_congr {m : OrderedMap κ ν} {f f' : κ → ν → ν}
    (h : ∀ k v, m.get? k = some v → f k v = f' k v) : m.mapValues f = m.mapValues f' :=
  eq_of_entries (List.map_congr_left fun e he => by rw [h e.1 e.2 (get?_eq_some_iff.2 he)])

theorem mapValues_eq_self {m : OrderedMap κ ν} {f : κ → ν → ν}
    (h : ∀ k v, m.get? k = some v → f k v = v) : m.mapValues f = m :=
  (mapValues_congr h).trans (eq_of_entries (List.map_id _))

theorem modify_eq_self {m : OrderedMap κ ν} {k : κ} {f : ν → ν} (h : ∀ v, f v = v) :
    m.modify k f = m :=
  mapValues_eq_self fun _ v _ => by rw [h, ite_self]

end GraphTraversal.OrderedMap
