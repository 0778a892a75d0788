import ByteRegex.Proofs.ClassRuns
import Mathlib.Data.Set.Card

/-!
# Classes as sets

A class stands for the set of its members. Each way of changing a class has a set operation that
it carries out, so after any row of changes the class is the set that these operations give, and
what a class answers about itself is what is true of that set.
-/

namespace ByteRegex

namespace ByteClass

def toSet (c : ByteClass) : Set UInt8 := {b | b ∈ c}

@[simp] theorem mem_toSet {c : ByteClass} {b : UInt8} : b ∈ c.toSet ↔ b ∈ c := Iff.rfl

@[simp] theorem toSet_empty : (∅ : ByteClass).toSet = ∅ :=
  Set.eq_empty_of_forall_notMem not_mem_empty

/-! ## What a class answers -/

section Represents

variable {c : ByteClass} {s : Set UInt8} {b : UInt8}

structure Represents (d : ByteClass) (s : Set UInt8) : Prop where
  contains : ∀ b, d.contains b = true ↔ b ∈ s
  index : ∀ b, d[b] = true ↔ b ∈ s
  listed : ∀ b, b ∈ d.members ↔ b ∈ s
  ascending : d.members.Pairwise (· < ·)
  size : d.size = s.ncard
  isEmpty : d.isEmpty = true ↔ d.size = 0

theorem size_eq_ncard (c : ByteClass) : c.size = c.toSet.ncard := by
  have hnodup : c.members.Nodup := c.ascending.imp UInt8.ne_of_lt
  have hset : c.toSet = (c.members.toFinset : Set UInt8) := by
    ext b
    simp [mem_members]
  rw [hset, Set.ncard_coe_finset, List.toFinset_card_of_nodup hnodup, size_eq_length]

theorem isEmpty_iff_size : c.isEmpty = true ↔ c.size = 0 := by
  rw [isEmpty_iff, size_eq_length, List.length_eq_zero_iff]

theorem represents_toSet (c : ByteClass) : c.Represents c.toSet where
  contains _ := contains_iff
  index _ := contains_iff
  listed _ := mem_members
  ascending := c.ascending
  size := c.size_eq_ncard
  isEmpty := isEmpty_iff_size

theorem eq_iff_contains {d : ByteClass} : c = d ↔ ∀ b, c.contains b = d.contains b := by
  refine ⟨fun h _ => h ▸ rfl, fun h => ext_mem fun b => ?_⟩
  rw [← contains_iff, h, contains_iff]

end Represents

/-! ## Changes -/

/-- The ways of changing a class. Collecting forgets what the class was before. -/
inductive Change where
  | insert (b : UInt8)
  | insertRange (first last : UInt8)
  | collect (bs : List UInt8)

def Change.apply : ByteClass → Change → ByteClass
  | c, insert b => c.insert b
  | c, insertRange first last => c.insertRange first last
  | _, collect bs => ofList bs

/-- What the change makes of a set. An interval that ends before it starts changes nothing. -/
def Change.effect : Set UInt8 → Change → Set UInt8
  | s, insert b => s ∪ {b}
  | s, insertRange first last => if first ≤ last then s ∪ {b | first ≤ b ∧ b ≤ last} else s
  | _, collect bs => {b | b ∈ bs}

def applyAll (changes : List Change) (c : ByteClass) : ByteClass := changes.foldl Change.apply c

def Change.effectAll (changes : List Change) (s : Set UInt8) : Set UInt8 :=
  changes.foldl Change.effect s

theorem Change.toSet_apply (c : ByteClass) (e : Change) :
    (e.apply c).toSet = e.effect c.toSet := by
  ext b
  cases e with
  | insert a => simp [Change.apply, Change.effect]
  | insertRange first last =>
    by_cases h : first ≤ last
    · simp [Change.apply, Change.effect, h, or_comm]
    · have hnone : ¬(first ≤ b ∧ b ≤ last) := fun hb => h (UInt8.le_trans hb.1 hb.2)
      simp [Change.apply, Change.effect, h, hnone]
  | collect bs => simp [Change.apply, Change.effect]

theorem toSet_applyAll (changes : List Change) (c : ByteClass) :
    (c.applyAll changes).toSet = Change.effectAll changes c.toSet := by
  induction changes generalizing c with
  | nil => rfl
  | cons e changes ih =>
    calc (c.applyAll (e :: changes)).toSet = ((e.apply c).applyAll changes).toSet := rfl
      _ = Change.effectAll changes (e.effect c.toSet) := by rw [ih, Change.toSet_apply]
      _ = Change.effectAll (e :: changes) c.toSet := rfl

/-- After any row of changes a class is the set that the row makes of its members, classes with the
same answers are equal, and the runs of a class are its only decomposition and give it back. -/
theorem applyAll_exact (c : ByteClass) (changes : List Change) :
    (c.applyAll changes).Represents (Change.effectAll changes c.toSet) ∧
      (∀ d, c = d ↔ ∀ b, c.contains b = d.contains b) ∧
      (∀ rs, IsDecomposition rs c ↔ rs = c.runs) ∧
      (∅ : ByteClass).insertRuns c.runs = c := by
  refine ⟨?_, fun _ => eq_iff_contains, fun _ => isDecomposition_iff, c.insertRuns_runs⟩
  rw [← toSet_applyAll]
  exact represents_toSet _

example : (ofList [97, 254, 255]).runs = [⟨97, 97⟩, ⟨254, 255⟩] := by
  rw [runs, members_ofList (by decide)]
  decide

end ByteClass

end ByteRegex
