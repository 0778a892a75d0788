import ByteRegex.Text.Escaped

/-!
# Byte classes

A class is a table that says of every byte whether it is a member. Its members are listed in
ascending order, and it is written as its runs of consecutive members between square brackets.
-/

namespace ByteRegex

structure ByteClass where
  table : Vector Bool 256
deriving DecidableEq

namespace ByteClass

def contains (c : ByteClass) (b : UInt8) : Bool :=
  have := b.toNat_lt
  c.table[b.toNat]

instance : GetElem ByteClass UInt8 Bool fun _ _ => True := ⟨fun c b _ => c.contains b⟩

instance : Membership UInt8 ByteClass := ⟨fun c b => c.contains b = true⟩

instance (b : UInt8) (c : ByteClass) : Decidable (b ∈ c) :=
  inferInstanceAs (Decidable (c.contains b = true))

theorem contains_iff {c : ByteClass} {b : UInt8} : c.contains b = true ↔ b ∈ c := Iff.rfl

def empty : ByteClass := ⟨.replicate 256 false⟩

instance : EmptyCollection ByteClass := ⟨empty⟩

@[simp] theorem not_mem_empty (b : UInt8) : b ∉ (∅ : ByteClass) := by
  have hfalse : (∅ : ByteClass).contains b = false := Vector.getElem_replicate _
  rw [← contains_iff, hfalse]
  exact Bool.false_ne_true

theorem ext_mem {c d : ByteClass} (h : ∀ b, b ∈ c ↔ b ∈ d) : c = d := by
  obtain ⟨s⟩ := c
  obtain ⟨t⟩ := d
  congr 1
  ext i hi
  have hbyte : (UInt8.ofNat i).toNat = i := UInt8.toNat_ofNat_of_lt' hi
  have hentry := Bool.eq_iff_iff.2 (h (UInt8.ofNat i))
  simpa only [contains, hbyte] using hentry

/-! ## Members -/

def interval (first last : UInt8) : List UInt8 :=
  (List.range' first.toNat (last.toNat + 1 - first.toNat)).map UInt8.ofNat

theorem mem_interval {a first last : UInt8} : a ∈ interval first last ↔ first ≤ a ∧ a ≤ last := by
  simp only [interval, List.mem_map, List.mem_range'_1, UInt8.le_iff_toNat_le]
  constructor
  · rintro ⟨n, hn, rfl⟩
    have := last.toNat_lt
    rw [UInt8.toNat_ofNat_of_lt' (by simp only [UInt8.size]; omega)]
    omega
  · exact fun h => ⟨a.toNat, by omega, UInt8.ofNat_toNat⟩

theorem ascending_interval (first last : UInt8) : (interval first last).Pairwise (· < ·) := by
  have hrange : (List.range' first.toNat (last.toNat + 1 - first.toNat)).Pairwise (· < ·) :=
    List.pairwise_lt_range' 1
  refine List.pairwise_map.2 (hrange.imp_of_mem fun {m n} hm hn hlt => ?_)
  rw [List.mem_range'_1] at hm hn
  have := last.toNat_lt
  have hbyte : ∀ k < 256, (UInt8.ofNat k).toNat = k := fun k hk => UInt8.toNat_ofNat_of_lt' hk
  rwa [UInt8.lt_iff_toNat_lt, hbyte m (by omega), hbyte n (by omega)]

/-- The members in ascending order: every byte is looked up. -/
def members (c : ByteClass) : List UInt8 := (interval 0 255).filter c.contains

theorem mem_members {c : ByteClass} {b : UInt8} : b ∈ c.members ↔ b ∈ c := by
  have hbyte : b ∈ interval 0 255 :=
    mem_interval.2 ⟨UInt8.zero_le, UInt8.le_iff_toNat_le.2 (Nat.le_of_lt_succ b.toNat_lt)⟩
  rw [members, List.mem_filter, and_iff_right hbyte, contains_iff]

theorem ascending (c : ByteClass) : c.members.Pairwise (· < ·) :=
  (ascending_interval 0 255).filter _

theorem members_ne_nil {c : ByteClass} : c.members ≠ [] ↔ ∃ b, b ∈ c := by
  constructor
  · intro h
    obtain ⟨b, hb⟩ := List.exists_mem_of_ne_nil _ h
    exact ⟨b, mem_members.1 hb⟩
  · rintro ⟨b, hb⟩
    exact List.ne_nil_of_mem (mem_members.2 hb)

def isEmpty (c : ByteClass) : Bool := !c.table.toList.any id

def size (c : ByteClass) : Nat := (c.table.toList.filter id).length

theorem toList_table (c : ByteClass) : c.table.toList = (interval 0 255).map c.contains := by
  refine List.ext_getElem (by simp [interval]) fun i hi _ => ?_
  have hbyte : (UInt8.ofNat i).toNat = i := UInt8.toNat_ofNat_of_lt' (by simpa using hi)
  simp [interval, contains, hbyte]

theorem isEmpty_iff {c : ByteClass} : c.isEmpty = true ↔ c.members = [] := by
  rw [isEmpty, toList_table, members, List.any_map, List.filter_eq_nil_iff]
  simp

theorem isEmpty_empty : (∅ : ByteClass).isEmpty = true := by
  refine isEmpty_iff.2 (List.eq_nil_iff_forall_not_mem.2 fun b hb => ?_)
  exact not_mem_empty b (mem_members.1 hb)

theorem size_eq_length (c : ByteClass) : c.size = c.members.length := by
  rw [size, toList_table, members, List.filter_map, List.length_map]
  rfl

/-! ## Insertion -/

def insert (b : UInt8) (c : ByteClass) : ByteClass :=
  have := b.toNat_lt
  ⟨c.table.set b.toNat true⟩

@[simp] theorem mem_insert {a b : UInt8} {c : ByteClass} : a ∈ c.insert b ↔ a = b ∨ a ∈ c := by
  have hentry : (c.insert b).contains a = if b.toNat = a.toNat then true else c.contains a :=
    Vector.getElem_set b.toNat_lt a.toNat_lt
  by_cases hab : a = b
  · rw [if_pos (congrArg UInt8.toNat hab.symm)] at hentry
    exact iff_of_true hentry (.inl hab)
  · have hne : b.toNat ≠ a.toNat := fun h => hab (UInt8.toNat.inj h).symm
    rw [if_neg hne] at hentry
    rw [← contains_iff, hentry, contains_iff, or_iff_right hab]

def insertMany (bs : List UInt8) (c : ByteClass) : ByteClass := bs.foldr insert c

@[simp] theorem insertMany_nil (c : ByteClass) : c.insertMany [] = c := rfl

@[simp] theorem insertMany_cons (b : UInt8) (bs : List UInt8) (c : ByteClass) :
    c.insertMany (b :: bs) = (c.insertMany bs).insert b := rfl

@[simp] theorem mem_insertMany {a : UInt8} {bs : List UInt8} {c : ByteClass} :
    a ∈ c.insertMany bs ↔ a ∈ bs ∨ a ∈ c := by
  induction bs with
  | nil => simp
  | cons b bs ih => simp [ih, or_assoc]

def ofList (bs : List UInt8) : ByteClass := (∅ : ByteClass).insertMany bs

@[simp] theorem mem_ofList {a : UInt8} {bs : List UInt8} : a ∈ ofList bs ↔ a ∈ bs := by
  simp [ofList]

theorem members_ofList {bs : List UInt8} (h : bs.Pairwise (· < ·)) : (ofList bs).members = bs := by
  have hperm : (ofList bs).members.Perm bs := by
    refine (List.perm_ext_iff_of_nodup ?_ ?_).2 fun b => mem_members.trans mem_ofList
    · exact (ofList bs).ascending.imp UInt8.ne_of_lt
    · exact h.imp UInt8.ne_of_lt
  refine hperm.eq_of_pairwise (fun a b _ _ hab hba => ?_) (ofList bs).ascending h
  exact absurd (UInt8.lt_trans hab hba) (UInt8.lt_irrefl a)

def insertRange (first last : UInt8) (c : ByteClass) : ByteClass :=
  c.insertMany (interval first last)

@[simp] theorem mem_insertRange {a first last : UInt8} {c : ByteClass} :
    a ∈ c.insertRange first last ↔ (first ≤ a ∧ a ≤ last) ∨ a ∈ c := by
  simp [insertRange, mem_interval]

/-! ## Runs -/

@[ext]
structure Run where
  first : UInt8
  last : UInt8
deriving DecidableEq

instance : Membership UInt8 Run := ⟨fun r b => r.first ≤ b ∧ b ≤ r.last⟩

theorem Run.mem_def {r : Run} {b : UInt8} : b ∈ r ↔ r.first ≤ b ∧ b ≤ r.last := Iff.rfl

/-- Takes one more byte into runs with the newest first: a byte that follows the newest run
lengthens it, any other byte begins a run. -/
def Run.extend (rs : List Run) (b : UInt8) : List Run :=
  match rs with
  | [] => [⟨b, b⟩]
  | r :: older =>
    if r.last.toNat + 1 = b.toNat then ⟨r.first, b⟩ :: older else ⟨b, b⟩ :: r :: older

def runs (c : ByteClass) : List Run := (c.members.foldl Run.extend []).reverse

def Run.describe (r : Run) : String :=
  if r.first = r.last then Escaped.byte r.first
  else Escaped.byte r.first ++ "-" ++ Escaped.byte r.last

def describe (c : ByteClass) : String := "[" ++ String.join (c.runs.map Run.describe) ++ "]"

end ByteClass

end ByteRegex
