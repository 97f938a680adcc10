import GraphTraversal.Bytecode.Bindings
import GraphTraversal.Bytecode.HashCode
import GraphTraversal.Bytecode.Printer
import GraphTraversal.Proofs.Data.OrderedMap
import GraphTraversal.Proofs.Data.Related
import GraphTraversal.Strategy.Builtin

/-! # What equality of bytecode sees

Equality looks at an argument through its essence: of a lambda only the name is left, of a strategy the
name and the configuration.  Bytecode is equal when the essences are, so equality is an equivalence,
and whatever is computed from the essence alone cannot tell equal bytecode apart: the hash code, the
size, the text and the bindings.
-/

namespace GraphTraversal

/-! ## Essences -/

mutual

/-- An argument without what equality does not look at. -/
def Argument.essence : Argument → Argument
  | .literal v => .literal v
  | .token t => .token t
  | .traversal code => .traversal code.essence
  | .binding name value => .binding name value.essence
  | .strategy s => .strategy s.essence
  | .lambda l => .lambda ⟨l.name, { holds := fun _ _ => false }⟩

def Argument.essences : List Argument → List Argument
  | [] => []
  | a :: l => a.essence :: Argument.essences l

def Instruction.essence : Instruction → Instruction
  | ⟨operator, arguments⟩ => ⟨operator, Argument.essences arguments⟩

def Instruction.essences : List Instruction → List Instruction
  | [] => []
  | i :: l => i.essence :: Instruction.essences l

def Bytecode.essence : Bytecode → Bytecode
  | ⟨source, steps⟩ => ⟨Instruction.essences source, Instruction.essences steps⟩

def Strategy.essence : Strategy → Strategy
  | ⟨name, _, _, _, configuration, _⟩ =>
    ⟨name, .decoration, [], [], Argument.entryEssences configuration, .removeIdentities⟩

def Argument.entryEssences : List (String × Argument) → List (String × Argument)
  | [] => []
  | (k, a) :: l => (k, a.essence) :: Argument.entryEssences l

end

mutual

/-- Two arguments are equal when their essences are. -/
theorem Argument.same_iff : (a b : Argument) → (a.same b ↔ a.essence = b.essence)
  | .literal _, b => by cases b <;> simp [Argument.same, Argument.essence]
  | .token _, b => by cases b <;> simp [Argument.same, Argument.essence]
  | .lambda _, b => by cases b <;> simp [Argument.same, Argument.essence, BEq.beq]
  | .traversal code, b => by
    cases b <;> simp [Argument.same, Argument.essence, Bytecode.same_iff code]
  | .binding _ value, b => by
    cases b <;> simp [Argument.same, Argument.essence, Argument.same_iff value]
  | .strategy s, b => by
    cases b <;> simp [Argument.same, Argument.essence, Strategy.same_iff s]

theorem Argument.sameAll_iff : (l m : List Argument) →
    (Argument.sameAll l m ↔ Argument.essences l = Argument.essences m)
  | [], m => by cases m <;> simp [Argument.sameAll, Argument.essences]
  | a :: l, m => by
    cases m <;>
      simp [Argument.sameAll, Argument.essences, Argument.same_iff a, Argument.sameAll_iff l]

theorem Instruction.same_iff : (i j : Instruction) → (i.same j ↔ i.essence = j.essence)
  | ⟨_, arguments⟩, ⟨_, _⟩ => by
    simp [Instruction.same, Instruction.essence, Argument.sameAll_iff arguments]

theorem Instruction.sameAll_iff : (l m : List Instruction) →
    (Instruction.sameAll l m ↔ Instruction.essences l = Instruction.essences m)
  | [], m => by cases m <;> simp [Instruction.sameAll, Instruction.essences]
  | i :: l, m => by
    cases m <;> simp [Instruction.sameAll, Instruction.essences, Instruction.same_iff i,
      Instruction.sameAll_iff l]

theorem Bytecode.same_iff : (b c : Bytecode) → (b.same c ↔ b.essence = c.essence)
  | ⟨source, steps⟩, ⟨_, _⟩ => by
    simp [Bytecode.same, Bytecode.essence, Instruction.sameAll_iff source,
      Instruction.sameAll_iff steps]

theorem Strategy.same_iff : (s t : Strategy) → (s.same t ↔ s.essence = t.essence)
  | ⟨_, _, _, _, configuration, _⟩, ⟨_, _, _, _, _, _⟩ => by
    simp [Strategy.same, Strategy.essence, Argument.sameConfiguration_iff configuration]

theorem Argument.sameConfiguration_iff : (l m : List (String × Argument)) →
    (Argument.sameConfiguration l m ↔ Argument.entryEssences l = Argument.entryEssences m)
  | [], m => by cases m <;> simp [Argument.sameConfiguration, Argument.entryEssences]
  | _ :: _, [] => by simp [Argument.sameConfiguration, Argument.entryEssences]
  | (_, a) :: l, (_, _) :: m => by
    simp [Argument.sameConfiguration, Argument.entryEssences, Argument.same_iff a,
      Argument.sameConfiguration_iff l]

end

theorem Argument.beq_iff {a b : Argument} : a == b ↔ a.essence = b.essence := Argument.same_iff a b

theorem Bytecode.beq_iff {b c : Bytecode} : b == c ↔ b.essence = c.essence := Bytecode.same_iff b c

/-! ## Hash codes -/

theorem Argument.length_essences (l : List Argument) : (Argument.essences l).length = l.length := by
  induction l with
  | nil => rfl
  | cons a l ih => simp [Argument.essences, ih]

theorem Argument.length_entryEssences (l : List (String × Argument)) :
    (Argument.entryEssences l).length = l.length := by
  induction l with
  | nil => rfl
  | cons p l ih => simp [Argument.entryEssences, ih]

theorem Instruction.length_essences (l : List Instruction) :
    (Instruction.essences l).length = l.length := by
  induction l with
  | nil => rfl
  | cons i l ih => simp [Instruction.essences, ih]

theorem Bytecode.size_essence (b : Bytecode) : b.essence.size = b.size := by
  cases b
  simp [Bytecode.size, Bytecode.essence, Instruction.length_essences]

section Hashing

variable (h : Hasher)

mutual

/-- What is fed to a hash function depends on the essence only. -/
theorem Argument.atoms_essence : (a : Argument) → a.essence.atoms h = a.atoms h
  | .literal _ | .token _ | .lambda _ => by simp [Argument.essence, Argument.atoms]
  | .traversal code => by simp [Argument.essence, Argument.atoms, Bytecode.hashCode_essence code]
  | .binding _ value => by simp [Argument.essence, Argument.atoms, Argument.atoms_essence value]
  | .strategy s => by simp [Argument.essence, Argument.atoms, Strategy.atoms_essence s]

theorem Argument.atomsOfAll_essences : (l : List Argument) →
    Argument.atomsOfAll h (Argument.essences l) = Argument.atomsOfAll h l
  | [] => rfl
  | a :: l => by
    simp [Argument.essences, Argument.atomsOfAll, Argument.atoms_essence a,
      Argument.atomsOfAll_essences l]

theorem Instruction.hash_essence : (i : Instruction) → i.essence.hash h = i.hash h
  | ⟨_, arguments⟩ => by
    simp [Instruction.essence, Instruction.hash, Argument.length_essences,
      Argument.atomsOfAll_essences arguments]

theorem Instruction.hashes_essences : (l : List Instruction) →
    Instruction.hashes h (Instruction.essences l) = Instruction.hashes h l
  | [] => rfl
  | i :: l => by
    simp [Instruction.essences, Instruction.hashes, Instruction.hash_essence i,
      Instruction.hashes_essences l]

theorem Bytecode.hashCode_essence : (b : Bytecode) → b.essence.hashCode h = b.hashCode h
  | ⟨source, steps⟩ => by
    simp [Bytecode.essence, Bytecode.hashCode, Instruction.hashes_essences source,
      Instruction.hashes_essences steps]

theorem Strategy.atoms_essence : (s : Strategy) → s.essence.atoms h = s.atoms h
  | ⟨_, _, _, _, configuration, _⟩ => by
    simp [Strategy.essence, Strategy.atoms, Argument.length_entryEssences,
      Argument.atomsOfEntries_essences configuration]

theorem Argument.atomsOfEntries_essences : (l : List (String × Argument)) →
    Argument.atomsOfEntries h (Argument.entryEssences l) = Argument.atomsOfEntries h l
  | [] => rfl
  | (_, a) :: l => by
    simp [Argument.entryEssences, Argument.atomsOfEntries, Argument.atoms_essence a,
      Argument.atomsOfEntries_essences l]

end

def Bytecode.atoms (b : Bytecode) : List Atom := [.word (b.hashCode h)]

end Hashing

/-! ## Texts -/

mutual

/-- An argument is shown by its essence. -/
theorem Argument.text_essence : (a : Argument) → a.essence.text = a.text
  | .literal _ | .token _ => rfl
  | .lambda _ => by simp [Argument.essence, Argument.text, Lambda.text]
  | .traversal code => by simp [Argument.essence, Argument.text, Bytecode.text_essence code]
  | .binding _ value => by simp [Argument.essence, Argument.text, Argument.text_essence value]
  | .strategy s => by simp [Argument.essence, Argument.text, Strategy.text_essence s]

theorem Argument.texts_essences : (l : List Argument) →
    Argument.texts (Argument.essences l) = Argument.texts l
  | [] => rfl
  | a :: l => by
    simp [Argument.essences, Argument.texts, Argument.text_essence a, Argument.texts_essences l]

theorem Instruction.text_essence : (i : Instruction) → i.essence.text = i.text
  | ⟨_, arguments⟩ => by
    simp [Instruction.essence, Instruction.text, Argument.texts_essences arguments]

theorem Instruction.texts_essences : (l : List Instruction) →
    Instruction.texts (Instruction.essences l) = Instruction.texts l
  | [] => rfl
  | i :: l => by
    simp [Instruction.essences, Instruction.texts, Instruction.text_essence i,
      Instruction.texts_essences l]

theorem Bytecode.text_essence : (b : Bytecode) → b.essence.text = b.text
  | ⟨source, steps⟩ => by
    simp [Bytecode.essence, Bytecode.text, Instruction.texts_essences source,
      Instruction.texts_essences steps]

theorem Strategy.text_essence : (s : Strategy) → s.essence.text = s.text
  | ⟨_, _, _, _, [], _⟩ => rfl
  | ⟨_, _, _, _, p :: l, _⟩ => by
    have hentries := Argument.entryTexts_essences (p :: l)
    simp only [Argument.entryEssences] at hentries
    simp [Strategy.essence, Strategy.text, Argument.entryEssences, hentries]

theorem Argument.entryTexts_essences : (l : List (String × Argument)) →
    Argument.entryTexts (Argument.entryEssences l) = Argument.entryTexts l
  | [] => rfl
  | (_, a) :: l => by
    simp [Argument.entryEssences, Argument.entryTexts, Argument.text_essence a,
      Argument.entryTexts_essences l]

end

/-! ## Bindings -/

def essentials (found : OrderedMap String Argument) : OrderedMap String Argument :=
  found.mapValues fun _ a => a.essence

theorem essentials_insert (found : OrderedMap String Argument) (name : String) (a : Argument) :
    essentials (found.insert name a) = (essentials found).insert name a.essence :=
  OrderedMap.mapValues_insert _ found name a

mutual

/-- The essence of an argument has the essences of its bindings. -/
theorem Argument.bind_essence : (a : Argument) → (found : OrderedMap String Argument) →
    a.essence.bind (essentials found) = essentials (a.bind found)
  | .literal _, found | .token _, found | .lambda _, found => by
    simp [Argument.essence, Argument.bind]
  | .traversal code, found => by
    simp [Argument.essence, Argument.bind, Bytecode.bind_essence code]
  | .binding name value, found => by
    simp [Argument.essence, Argument.bind, ← Argument.bind_essence value, essentials_insert]
  | .strategy s, found => by
    simp [Argument.essence, Argument.bind, Strategy.bind_essence s]

theorem Argument.bindAll_essences : (l : List Argument) → (found : OrderedMap String Argument) →
    Argument.bindAll (essentials found) (Argument.essences l) = essentials (Argument.bindAll found l)
  | [], found => rfl
  | a :: l, found => by
    simp [Argument.essences, Argument.bindAll, Argument.bind_essence a, Argument.bindAll_essences l]

theorem Instruction.bindAll_essences : (l : List Instruction) →
    (found : OrderedMap String Argument) →
    Instruction.bindAll (essentials found) (Instruction.essences l) =
      essentials (Instruction.bindAll found l)
  | [], found => rfl
  | ⟨_, arguments⟩ :: l, found => by
    simp [Instruction.essences, Instruction.essence, Instruction.bindAll,
      Argument.bindAll_essences arguments, Instruction.bindAll_essences l]

theorem Bytecode.bind_essence : (b : Bytecode) → (found : OrderedMap String Argument) →
    b.essence.bind (essentials found) = essentials (b.bind found)
  | ⟨source, steps⟩, found => by
    simp [Bytecode.essence, Bytecode.bind, Instruction.bindAll_essences source,
      Instruction.bindAll_essences steps]

theorem Strategy.bind_essence : (s : Strategy) → (found : OrderedMap String Argument) →
    s.essence.bind (essentials found) = essentials (s.bind found)
  | ⟨_, _, _, _, configuration, _⟩, found => by
    simp [Strategy.essence, Strategy.bind, Argument.bindEntries_essences configuration]

theorem Argument.bindEntries_essences : (l : List (String × Argument)) →
    (found : OrderedMap String Argument) →
    Argument.bindEntries (essentials found) (Argument.entryEssences l) =
      essentials (Argument.bindEntries found l)
  | [], found => rfl
  | (_, a) :: l, found => by
    simp [Argument.entryEssences, Argument.bindEntries, Argument.bind_essence a,
      Argument.bindEntries_essences l]

end

namespace Bytecode

theorem bindings_essence (b : Bytecode) : b.essence.bindings = essentials b.bindings :=
  b.bind_essence ∅

variable {b c : Bytecode}

/-- Equal bytecode has the same names in the same order, with equal values. -/
theorem bindings_eq_of_beq (h : b == c) :
    List.Forall₂ (fun p q => p.1 = q.1 ∧ p.2 == q.2) b.bindings.entries c.bindings.entries := by
  have hentries : (essentials b.bindings).entries = (essentials c.bindings).entries := by
    rw [← bindings_essence, ← bindings_essence, beq_iff.1 h]
  apply (forall₂_of_map_eq hentries).imp
  intro p q hpq
  simpa [Argument.beq_iff] using hpq

theorem hashCode_eq_of_beq (h : b == c) (hasher : Hasher) : b.hashCode hasher = c.hashCode hasher := by
  rw [← hashCode_essence, beq_iff.1 h, hashCode_essence]

theorem size_eq_of_beq (h : b == c) : b.size = c.size := by
  rw [← size_essence, beq_iff.1 h, size_essence]

theorem text_eq_of_beq (h : b == c) : b.text = c.text := by
  rw [← text_essence, beq_iff.1 h, text_essence]

theorem equivalence_beq : Equivalence fun b c : Bytecode => b == c where
  refl _ := beq_iff.2 rfl
  symm h := beq_iff.2 (beq_iff.1 h).symm
  trans h h' := beq_iff.2 ((beq_iff.1 h).trans (beq_iff.1 h'))

/-- Equality of bytecode is an equivalence, and neither hash codes nor what is fed to a hash function,
neither size nor text nor bindings can tell equal bytecode apart. -/
theorem beq_congruence : (Equivalence fun b c : Bytecode => b == c) ∧
    ∀ b c : Bytecode, b == c →
      (∀ h : Hasher, b.hashCode h = c.hashCode h ∧ b.atoms h = c.atoms h) ∧
        b.size = c.size ∧ b.text = c.text ∧
        List.Forall₂ (fun p q => p.1 = q.1 ∧ p.2 == q.2) b.bindings.entries c.bindings.entries := by
  refine ⟨equivalence_beq, fun b c hbc => ⟨fun h => ?_, ?_⟩⟩
  · have hcode : b.hashCode h = c.hashCode h := hashCode_eq_of_beq hbc h
    exact ⟨hcode, by rw [atoms, atoms, hcode]⟩
  · exact ⟨size_eq_of_beq hbc, text_eq_of_beq hbc, bindings_eq_of_beq hbc⟩

/-- A choice by a lambda, in a traversal under an audit: what the lambda does and when the audit runs
are open. -/
def watched (test : Graph → Value → Bool) (category : Category) (prior : List String) : Bytecode where
  source := [⟨"withStrategies", [.strategy (.audit "Watch" category prior []
    [("depth", .binding "d" (.literal (.integer 2)))] none)]⟩]
  steps := [⟨"V", []⟩, ⟨"choose", [.lambda ⟨"known", test⟩,
    .traversal { steps := [⟨"is", [.literal (.float ⟨0x7ff8000000000000⟩)]⟩] }, .traversal {}]⟩]

/-- Another closure, another category and another demand make other bytecode, and it is equal: a NaN
among the literals equals itself, and the binding in the configuration is found in both. -/
theorem watched_alike :
    let b := watched (fun _ _ => true) .decoration []
    let c := watched (fun _ _ => false) .verification ["ReadOnlyStrategy"]
    b ≠ c ∧ b == c ∧ b.hashCode standardHash = c.hashCode standardHash ∧ b.text = c.text ∧
      b.bindings.keys = ["d"] ∧
      List.Forall₂ (fun p q => p.1 = q.1 ∧ p.2 == q.2) b.bindings.entries c.bindings.entries := by
  intro b c
  have hbc : b == c := beq_iff.2 rfl
  obtain ⟨hcode, -, htext, hbindings⟩ := beq_congruence.2 b c hbc
  exact ⟨by simp [b, c, watched, Strategy.audit], hbc, (hcode _).1, htext, rfl, hbindings⟩

end Bytecode

end GraphTraversal
