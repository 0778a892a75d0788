import ByteRegex.Pattern.ClassScan

/-!
# Texts of classes

A text closes a scan if reading it byte by byte brings the scan to its end with the last byte.
Whether it does, and which class comes out, does not depend on where in the pattern it stands.

A class has such a text if it has a member and does not have a closing bracket alone: this byte ends
the class where it is read, so it can only be a member strictly inside a range.
-/

namespace ByteRegex

namespace ClassScan

inductive Closes : ClassScan → List UInt8 → ByteClass → Prop where
  | last {scan : ClassScan} {b : UInt8} {c : ByteClass} (opened offset : Nat) :
    scan.step opened offset b = .ok (.closed c) → Closes scan [b] c
  | more {scan next : ClassScan} {b : UInt8} {text : List UInt8} {c : ByteClass}
    (opened offset : Nat) : scan.step opened offset b = .ok (.more next) →
    Closes next text c → Closes scan (b :: text) c

/-! ## Steps of a scan -/

inductive Extends (offset : Nat) (b : UInt8) : ClassScan → ClassScan → Prop where
  | first : Extends offset b start (single b ∅)
  | single {members : ByteClass} {anchor : Option UInt8} : b ≠ Mark.hyphen →
    Extends offset b (member members anchor) (single b members)
  | hyphen {members : ByteClass} {anchor : Option UInt8} : b = Mark.hyphen →
    Extends offset b (member members anchor) (hyphen offset members anchor)
  | range {begun : Nat} {members : ByteClass} {first : UInt8} : first ≤ b →
    Extends offset b (hyphen begun members (some first))
      (member (members.insertRange first b) none)

inductive Ends : ClassScan → ByteClass → Prop where
  | member {members : ByteClass} {anchor : Option UInt8} : Ends (member members anchor) members
  | hyphen {begun : Nat} {members : ByteClass} {anchor : Option UInt8} :
    Ends (hyphen begun members anchor) (members.insert Mark.hyphen)

theorem extends_of_step {scan next : ClassScan} {opened offset : Nat} {b : UInt8}
    (h : scan.step opened offset b = .ok (.more next)) :
    b ≠ Mark.classClose ∧ Extends offset b scan next := by
  cases scan with
  | start =>
    simp only [step] at h
    split at h
    · cases h
    · next hb => cases h; exact ⟨hb, .first⟩
  | member members anchor =>
    simp only [step] at h
    split at h
    · cases h
    · next hb =>
      split at h
      · next hh => cases h; exact ⟨hb, .hyphen hh⟩
      · next hh => cases h; exact ⟨hb, .single hh⟩
  | hyphen begun members anchor =>
    simp only [step] at h
    split at h
    · cases h
    · next hb =>
      obtain ⟨s, hs, hn⟩ := CompileError.map_eq_ok_iff.1 h
      cases hn
      cases anchor with
      | none => cases hs
      | some first =>
        simp only [closeRange] at hs
        split at hs
        · next hle => cases hs; exact ⟨hb, .range hle⟩
        · cases hs

theorem ends_of_step {scan : ClassScan} {opened offset : Nat} {b : UInt8} {c : ByteClass}
    (h : scan.step opened offset b = .ok (.closed c)) : b = Mark.classClose ∧ Ends scan c := by
  cases scan with
  | start =>
    simp only [step] at h
    split at h <;> cases h
  | member members anchor =>
    simp only [step] at h
    split at h
    · next hb => cases h; exact ⟨hb, .member⟩
    · split at h <;> cases h
  | hyphen begun members anchor =>
    simp only [step] at h
    split at h
    · next hb => cases h; exact ⟨hb, .hyphen⟩
    · obtain ⟨s, -, hn⟩ := CompileError.map_eq_ok_iff.1 h
      cases hn

theorem Extends.step {scan next : ClassScan} {offset : Nat} {b : UInt8}
    (h : Extends offset b scan next) (hb : b ≠ Mark.classClose) (opened : Nat) :
    scan.step opened offset b = .ok (.more next) := by
  cases h with
  | first => exact if_neg hb
  | single hh => exact (if_neg hb).trans (if_neg hh)
  | hyphen hh => exact (if_neg hb).trans (if_pos hh)
  | range hle =>
    rw [ClassScan.step, if_neg hb, closeRange, if_pos hle]
    rfl

theorem Ends.step {scan : ClassScan} {c : ByteClass} (h : Ends scan c) (opened offset : Nat) :
    scan.step opened offset Mark.classClose = .ok (.closed c) := by
  cases h with
  | member => simp [ClassScan.step]
  | hyphen => simp [ClassScan.step]

/-! ## Offsets -/

def relocate (p : Nat) : ClassScan → ClassScan
  | hyphen _ members anchor => hyphen p members anchor
  | scan => scan

theorem Extends.relocate {scan next : ClassScan} {offset : Nat} {b : UInt8}
    (h : Extends offset b scan next) (p offset' : Nat) :
    Extends offset' b (scan.relocate p) (next.relocate offset') := by
  cases h with
  | first => exact .first
  | single hh => exact .single hh
  | hyphen hh => exact .hyphen hh
  | range hle => exact .range hle

theorem Ends.relocate {scan : ClassScan} {c : ByteClass} (h : Ends scan c) (p : Nat) :
    Ends (scan.relocate p) c := by
  cases h with
  | member => exact .member
  | hyphen => exact .hyphen

/-! ## Members -/

def HasMember : ClassScan → Prop
  | start => True
  | member members _ => ∃ b, b ∈ members
  | hyphen _ members _ => ∃ b, b ∈ members

theorem HasMember.extends {scan next : ClassScan} {offset : Nat} {b : UInt8}
    (hm : scan.HasMember) (h : Extends offset b scan next) : next.HasMember := by
  cases h with
  | first => exact ⟨b, ByteClass.mem_insert.2 (.inl rfl)⟩
  | single hh => exact ⟨b, ByteClass.mem_insert.2 (.inl rfl)⟩
  | hyphen hh => exact hm
  | range hle =>
    obtain ⟨a, ha⟩ := hm
    exact ⟨a, ByteClass.mem_insertRange.2 (.inr ha)⟩

theorem HasMember.ends {scan : ClassScan} {c : ByteClass} (hm : scan.HasMember)
    (h : Ends scan c) : ∃ a, a ∈ c := by
  cases h with
  | member => exact hm
  | hyphen => exact ⟨Mark.hyphen, ByteClass.mem_insert.2 (.inl rfl)⟩

theorem Closes.exists_mem {scan : ClassScan} {text : List UInt8} {c : ByteClass}
    (h : Closes scan text c) (hm : scan.HasMember) : ∃ a, a ∈ c := by
  induction h with
  | last opened offset hs => exact hm.ends (ends_of_step hs).2
  | more opened offset hs _ ih => exact ih (hm.extends (extends_of_step hs).2)

theorem Closes.members_ne_nil {text : List UInt8} {c : ByteClass} (h : Closes start text c) :
    c.members ≠ [] := ByteClass.members_ne_nil.2 (h.exists_mem trivial)

/-! ## Closing brackets as members -/

/-- The bytes on both sides of a closing bracket are members with it. -/
def BracketsInside (c : ByteClass) : Prop := Mark.classClose ∈ c → 92 ∈ c ∧ 94 ∈ c

def KeepsBrackets : ClassScan → Prop
  | start => True
  | member members anchor => BracketsInside members ∧ ∀ a ∈ anchor, a ≠ Mark.classClose
  | hyphen _ members anchor => BracketsInside members ∧ ∀ a ∈ anchor, a ≠ Mark.classClose

theorem BracketsInside.insert {c : ByteClass} {b : UInt8} (h : BracketsInside c)
    (hb : b ≠ Mark.classClose) : BracketsInside (c.insert b) := by
  intro hm
  simp only [ByteClass.mem_insert] at hm ⊢
  have hc := h (hm.resolve_left (Ne.symm hb))
  exact ⟨.inr hc.1, .inr hc.2⟩

theorem BracketsInside.insertRange {c : ByteClass} {first last : UInt8} (h : BracketsInside c)
    (hfirst : first ≠ Mark.classClose) (hlast : last ≠ Mark.classClose) :
    BracketsInside (c.insertRange first last) := by
  intro hm
  simp only [ByteClass.mem_insertRange, UInt8.le_iff_toNat_le] at hm ⊢
  have hfirst' : first.toNat ≠ 93 := fun he => hfirst (UInt8.toNat_inj.1 he)
  have hlast' : last.toNat ≠ 93 := fun he => hlast (UInt8.toNat_inj.1 he)
  have hclose : Mark.classClose.toNat = 93 := rfl
  have hbefore : (92 : UInt8).toNat = 92 := rfl
  have hbehind : (94 : UInt8).toNat = 94 := rfl
  rcases hm with hrange | hm
  · exact ⟨.inl (by omega), .inl (by omega)⟩
  · exact ⟨.inr (h hm).1, .inr (h hm).2⟩

theorem KeepsBrackets.extends {scan next : ClassScan} {offset : Nat} {b : UInt8}
    (hk : scan.KeepsBrackets) (h : Extends offset b scan next) (hb : b ≠ Mark.classClose) :
    next.KeepsBrackets := by
  have hempty : BracketsInside ∅ := fun hm => absurd hm (ByteClass.not_mem_empty _)
  cases h with
  | first => exact ⟨hempty.insert hb, by simpa using hb⟩
  | single hh => exact ⟨hk.1.insert hb, by simpa using hb⟩
  | hyphen hh => exact hk
  | range hle => exact ⟨hk.1.insertRange (hk.2 _ rfl) hb, nofun⟩

theorem KeepsBrackets.ends {scan : ClassScan} {c : ByteClass} (hk : scan.KeepsBrackets)
    (h : Ends scan c) : BracketsInside c := by
  cases h with
  | member => exact hk.1
  | hyphen => exact hk.1.insert (by decide)

theorem Closes.bracketsInside {scan : ClassScan} {text : List UInt8} {c : ByteClass}
    (h : Closes scan text c) (hk : scan.KeepsBrackets) : BracketsInside c := by
  induction h with
  | last opened offset hs => exact hk.ends (ends_of_step hs).2
  | more opened offset hs _ ih =>
    obtain ⟨hb, hextends⟩ := extends_of_step hs
    exact ih (hk.extends hextends hb)

/-! ## Writing

A byte is plain if it is a member by itself wherever it stands in a class. A hyphen is written
first, then the range around a closing bracket, then the plain members in ascending order. -/

def IsPlain (b : UInt8) : Prop := b ≠ Mark.hyphen ∧ b ≠ Mark.classClose

instance (b : UInt8) : Decidable (IsPlain b) := inferInstanceAs (Decidable (_ ∧ _))

theorem closes_end (members : ByteClass) (anchor : Option UInt8) :
    Closes (member members anchor) [Mark.classClose] members :=
  .last 0 0 (Ends.member.step 0 0)

theorem Closes.cons_single {members c : ByteClass} {anchor : Option UInt8} {b : UInt8}
    {text : List UInt8} (h : Closes (single b members) text c) (hb : IsPlain b) :
    Closes (member members anchor) (b :: text) c :=
  .more 0 0 ((Extends.single hb.1).step hb.2 0) h

theorem Closes.cons_range {members c : ByteClass} {first last : UInt8} {text : List UInt8}
    (h : Closes (member (members.insertRange first last) none) text c) (hle : first ≤ last)
    (hlast : last ≠ Mark.classClose) :
    Closes (member members (some first)) (Mark.hyphen :: last :: text) c :=
  .more 0 0 ((Extends.hyphen rfl).step (by decide) 0)
    (.more 0 0 ((Extends.range hle).step hlast 0) h)

theorem Closes.cons_first {c : ByteClass} {b : UInt8} {text : List UInt8}
    (h : Closes (single b ∅) text c) (hb : b ≠ Mark.classClose) : Closes start (b :: text) c := by
  have hfirst : Extends 0 b start (single b ∅) := .first
  exact .more 0 0 (hfirst.step hb 0) h

/-- A plain byte may come first as well as later. -/
theorem Closes.start_of_member {c : ByteClass} {anchor : Option UInt8} {b : UInt8}
    {text : List UInt8} (h : Closes (member ∅ anchor) (b :: text) c) (hb : IsPlain b) :
    Closes start (b :: text) c := by
  cases h with
  | last opened offset hs => exact absurd (ends_of_step hs).1 hb.2
  | more opened offset hs hrest =>
    obtain ⟨-, hextends⟩ := extends_of_step hs
    cases hextends with
    | single hh => exact hrest.cons_first hb.2
    | hyphen hh => exact absurd hh hb.1

theorem closes_singles {bs : List UInt8} (hbs : ∀ b ∈ bs, IsPlain b) (members : ByteClass)
    (anchor : Option UInt8) : ∃ c, Closes (member members anchor) (bs ++ [Mark.classClose]) c ∧
      ∀ a, a ∈ c ↔ a ∈ bs ∨ a ∈ members := by
  induction bs generalizing members anchor with
  | nil => exact ⟨members, closes_end members anchor, by simp⟩
  | cons b bs ih =>
    obtain ⟨hb, hbs⟩ := List.forall_mem_cons.1 hbs
    obtain ⟨c, hc, hmem⟩ := ih hbs (members.insert b) (some b)
    refine ⟨c, hc.cons_single hb, fun a => ?_⟩
    rw [hmem, ByteClass.mem_insert, List.mem_cons, or_left_comm, or_assoc]

end ClassScan

namespace ByteClass

open ClassScan

def plainMembers (c : ByteClass) : List UInt8 := c.members.filter (IsPlain ·)

/-- The range around a closing bracket, if this is a member, and all plain members. -/
def textBehindHyphen (c : ByteClass) : List UInt8 :=
  (if Mark.classClose ∈ c then [92, Mark.hyphen, 94] else []) ++ c.plainMembers

def text (c : ByteClass) : List UInt8 :=
  (if Mark.hyphen ∈ c then [Mark.hyphen] else []) ++ (c.textBehindHyphen ++ [Mark.classClose])

example : (ofList [45, 92, 93, 94]).text = [45, 92, 45, 94, 92, 94, 93] := by
  rw [text, textBehindHyphen, plainMembers, members_ofList (by decide)]
  decide

theorem mem_plainMembers {c : ByteClass} {b : UInt8} :
    b ∈ c.plainMembers ↔ b ∈ c ∧ IsPlain b := by
  simp [plainMembers, mem_members]

/-- The range around a closing bracket is this byte and its neighbours. -/
theorem mem_range_around {a : UInt8} : 92 ≤ a ∧ a ≤ 94 ↔ a = 92 ∨ a = Mark.classClose ∨ a = 94 := by
  constructor
  · intro h
    have hbefore := UInt8.le_iff_toNat_le.1 h.1
    have hbehind := UInt8.le_iff_toNat_le.1 h.2
    simp only [← UInt8.toNat_inj, Mark.classClose] at *
    simp only [UInt8.reduceToNat] at *
    omega
  · rintro (rfl | rfl | rfl) <;> decide

theorem closes_textBehindHyphen {c : ByteClass} (hc : BracketsInside c) (members : ByteClass)
    (anchor : Option UInt8) :
    ∃ d, Closes (member members anchor) (c.textBehindHyphen ++ [Mark.classClose]) d ∧
      ∀ a, a ∈ d ↔ (a ∈ c ∧ a ≠ Mark.hyphen) ∨ a ∈ members := by
  have hplain : ∀ b ∈ c.plainMembers, IsPlain b := fun b hb => (mem_plainMembers.1 hb).2
  unfold textBehindHyphen
  by_cases hclose : Mark.classClose ∈ c
  · obtain ⟨d, hd, hmem⟩ := closes_singles hplain ((members.insert 92).insertRange 92 94) none
    have hrange : Closes (single 92 members) _ d := hd.cons_range (by decide) (by decide)
    refine ⟨d, ?_, fun a => ?_⟩
    · rw [if_pos hclose]
      exact hrange.cons_single (by decide)
    · rw [hmem, mem_plainMembers, mem_insertRange, mem_insert, mem_range_around]
      constructor
      · rintro (⟨ha, hp⟩ | (rfl | rfl | rfl) | rfl | ha)
        · exact .inl ⟨ha, hp.1⟩
        · exact .inl ⟨(hc hclose).1, by decide⟩
        · exact .inl ⟨hclose, by decide⟩
        · exact .inl ⟨(hc hclose).2, by decide⟩
        · exact .inl ⟨(hc hclose).1, by decide⟩
        · exact .inr ha
      · rintro (⟨ha, hne⟩ | ha)
        · by_cases hac : a = Mark.classClose
          · exact .inr (.inl (.inr (.inl hac)))
          · exact .inl ⟨ha, hne, hac⟩
        · exact .inr (.inr (.inr ha))
  · obtain ⟨d, hd, hmem⟩ := closes_singles hplain members anchor
    refine ⟨d, ?_, fun a => ?_⟩
    · rw [if_neg hclose]
      exact hd
    · rw [hmem, mem_plainMembers]
      have hne : a ∈ c → a ≠ Mark.classClose := fun ha he => hclose (he ▸ ha)
      exact or_congr_left (and_congr_right fun ha => and_iff_left (hne ha))

/-- Without a hyphen the text begins with a byte that is a member by itself. -/
theorem textBehindHyphen_eq_cons {c : ByteClass} (hne : c.members ≠ [])
    (hh : Mark.hyphen ∉ c) : ∃ b text, c.textBehindHyphen = b :: text ∧ IsPlain b := by
  unfold textBehindHyphen
  by_cases hclose : Mark.classClose ∈ c
  · rw [if_pos hclose]
    exact ⟨92, _, rfl, by decide⟩
  · rw [if_neg hclose, List.nil_append]
    obtain ⟨a, ha⟩ := members_ne_nil.1 hne
    have hplain : a ∈ c.plainMembers :=
      mem_plainMembers.2 ⟨ha, fun he => hh (he ▸ ha), fun he => hclose (he ▸ ha)⟩
    obtain ⟨b, text, htext⟩ := List.exists_cons_of_ne_nil (List.ne_nil_of_mem hplain)
    have hb : b ∈ c.plainMembers := htext ▸ List.mem_cons_self
    exact ⟨b, text, htext, (mem_plainMembers.1 hb).2⟩

theorem closes_text {c : ByteClass} (hne : c.members ≠ []) (hc : BracketsInside c) :
    Closes start c.text c := by
  unfold text
  by_cases hh : Mark.hyphen ∈ c
  · obtain ⟨d, hd, hmem⟩ :=
      closes_textBehindHyphen hc ((∅ : ByteClass).insert Mark.hyphen) (some Mark.hyphen)
    obtain rfl : d = c := by
      refine ext_mem fun a => ?_
      rw [hmem, mem_insert, or_iff_left (not_mem_empty a)]
      by_cases ha : a = Mark.hyphen <;> simp [ha, hh]
    rw [if_pos hh]
    exact hd.cons_first (by decide)
  · obtain ⟨d, hd, hmem⟩ := closes_textBehindHyphen hc ∅ none
    obtain rfl : d = c := by
      refine ext_mem fun a => ?_
      rw [hmem, or_iff_left (not_mem_empty a)]
      exact and_iff_left_of_imp fun ha he => hh (he ▸ ha)
    obtain ⟨b, text, htext, hb⟩ := textBehindHyphen_eq_cons hne hh
    rw [if_neg hh, List.nil_append]
    rw [htext] at hd ⊢
    exact hd.start_of_member hb

/-- The classes that have a text. -/
theorem exists_closes_iff {c : ByteClass} :
    (∃ text, Closes start text c) ↔ c.members ≠ [] ∧ BracketsInside c := by
  constructor
  · rintro ⟨text, h⟩
    exact ⟨h.members_ne_nil, h.bracketsInside trivial⟩
  · rintro ⟨hne, hc⟩
    exact ⟨c.text, closes_text hne hc⟩

end ByteClass

end ByteRegex
