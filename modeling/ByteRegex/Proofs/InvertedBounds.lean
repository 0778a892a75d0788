import ByteRegex.Proofs.BoundReading
import Mathlib.Tactic.SplitIfs

/-!
# Inverted bounds

What becomes of a bound with two counts. The counts are read one after the other before they are
compared, and reading fails for a count that does not fit in a 32-bit word. So a bound whose
maximum is below its minimum is reported as such only as long as the minimum fits in a word; a
larger minimum is reported as too large whatever the maximum is.
-/

namespace ByteRegex

namespace Bound

variable {limits : Limits} {opened : Nat} {text least most : List UInt8}

theorem count_of_digits (limits : Limits) (opened : Nat) (h : ∀ x ∈ text, IsDigit x) :
    count limits opened text = if value text ≤ Limits.wordMax then .ok (value text)
      else .error (.repeatTooLarge opened limits.maxRepeat.toNat) :=
  if_pos (by simpa using h)

theorem check_some (limits : Limits) (opened min max : Nat) :
    check limits opened ⟨min, some max⟩ =
      if min ≤ max ∧ 1 ≤ max then
        if max ≤ limits.maxRepeat.toNat then .ok ⟨min, some max⟩
        else .error (.repeatTooLarge opened limits.maxRepeat.toNat)
      else .error (.invalidBound opened) := by
  simp only [check, isOrdered_some_iff]
  rfl

/-- A minimum that does not fit in a word is found out before the order of the counts. A maximum
that does not fit is out of order with no minimum that does. -/
theorem read_between (limits : Limits) (opened : Nat) (hl : IsNumeral least) (hm : IsNumeral most) :
    read limits opened (least ++ Mark.comma :: most) =
      if Limits.wordMax < value least then
        .error (.repeatTooLarge opened limits.maxRepeat.toNat)
      else check limits opened ⟨value least, some (value most)⟩ := by
  rw [read_at_comma limits opened hl.comma_notMem, if_neg hl.1, if_neg hm.comma_notMem, readRange]
  simp only [if_neg hm.1, count_of_digits limits opened hl.2, count_of_digits limits opened hm.2]
  by_cases hleast : value least ≤ Limits.wordMax
  · rw [if_pos hleast, if_neg (Nat.not_lt.2 hleast)]
    by_cases hmost : value most ≤ Limits.wordMax
    · rw [if_pos hmost]
      rfl
    · have hlimit := maxRepeat_le_wordMax limits
      rw [if_neg hmost, check_some, if_pos (by omega), if_neg (by omega)]
      rfl
  · rw [if_neg hleast, if_pos (Nat.not_le.1 hleast)]
    rfl

theorem read_between_eq_invalid_iff (hl : IsNumeral least) (hm : IsNumeral most) :
    read limits opened (least ++ Mark.comma :: most) = .error (.invalidBound opened) ↔
      value least ≤ Limits.wordMax ∧ (value most < value least ∨ value most = 0) := by
  rw [read_between limits opened hl hm, check_some]
  split_ifs <;> simp <;> omega

theorem read_between_eq_tooLarge_iff (hl : IsNumeral least) (hm : IsNumeral most) :
    read limits opened (least ++ Mark.comma :: most) =
        .error (.repeatTooLarge opened limits.maxRepeat.toNat) ↔
      Limits.wordMax < value least ∨
        (value least ≤ value most ∧ 1 ≤ value most ∧ limits.maxRepeat.toNat < value most) := by
  rw [read_between limits opened hl hm, check_some]
  split_ifs <;> simp <;> omega

theorem read_between_eq_ok_iff (hl : IsNumeral least) (hm : IsNumeral most) :
    read limits opened (least ++ Mark.comma :: most) =
        .ok ⟨value least, some (value most)⟩ ↔
      value least ≤ value most ∧ 1 ≤ value most ∧ value most ≤ limits.maxRepeat.toNat := by
  have hlimit := maxRepeat_le_wordMax limits
  rw [read_between limits opened hl hm, check_some]
  split_ifs <;> simp <;> omega

end Bound

/-! ## In a pattern -/

/-- A bound with two counts is reported as inverted if its maximum is zero or below its minimum and
the minimum fits in a word, and as too large if the minimum does not fit or if the counts are in
order and the maximum is above the limit. Otherwise it is read. A reader at the bound reports the
same. -/
theorem readBound_between_exact (limits : Limits) {pattern least most rest : List UInt8} {a : Nat}
    (hl : Bound.IsNumeral least) (hm : Bound.IsNumeral most)
    (h : pattern.drop a =
      Mark.boundOpen.byte :: (least ++ Mark.comma :: most ++ Mark.boundClose :: rest)) :
    (readBound limits pattern a = .error (.invalidBound a) ↔
      Bound.value least ≤ Limits.wordMax ∧
        (Bound.value most < Bound.value least ∨ Bound.value most = 0)) ∧
    (readBound limits pattern a = .error (.repeatTooLarge a limits.maxRepeat.toNat) ↔
      Limits.wordMax < Bound.value least ∨ (Bound.value least ≤ Bound.value most ∧
        1 ≤ Bound.value most ∧ limits.maxRepeat.toNat < Bound.value most)) ∧
    (readBound limits pattern a = .ok (⟨Bound.value least, some (Bound.value most)⟩,
        a + (least ++ Mark.comma :: most).length + 2) ↔
      Bound.value least ≤ Bound.value most ∧ 1 ≤ Bound.value most ∧
        Bound.value most ≤ limits.maxRepeat.toNat) ∧
    ∀ (r : Reader) (e : CompileError), r.mode = .plain → r.offset = a →
      readBound limits pattern a = .error e → r.complete limits (pattern.drop a) = .error e := by
  have hopen : pattern[a]? = some Mark.boundOpen.byte := by
    rw [← List.head?_drop, h, List.head?_cons]
  have hdrop : pattern.drop (a + 1) = least ++ Mark.comma :: most ++ Mark.boundClose :: rest := by
    rw [List.drop_add_one_eq_tail_drop, h, List.tail_cons]
  have hclose := (Bound.IsWritten.between hl hm).boundClose_notMem
  have hread := readBound_of_drop limits hdrop hclose
  refine ⟨?_, ?_, ?_, ?_⟩
  · rw [hread, CompileError.map_eq_error_iff, Bound.read_between_eq_invalid_iff hl hm]
  · rw [hread, CompileError.map_eq_error_iff, Bound.read_between_eq_tooLarge_iff hl hm]
  · have hok : Bound.read limits a _ = .ok _ ↔ _ := Bound.read_between_eq_ok_iff hl hm
    rw [hread, CompileError.map_eq_ok_iff, ← hok]
    constructor
    · rintro ⟨b, hb, heq⟩
      cases heq
      exact hb
    · intro hb
      exact ⟨_, hb, rfl⟩
  · rintro r e hp rfl he
    rw [Reader.complete_boundOpen limits hp hopen, he]
    rfl

/-- The pattern is `x{4294967295,1}`, whose minimum is the largest one that fits in a word. -/
theorem readBound_between_of_largest_word :
    Bound.IsNumeral [52, 50, 57, 52, 57, 54, 55, 50, 57, 53] ∧ Bound.IsNumeral [49] ∧
      readBound {} [120, 123, 52, 50, 57, 52, 57, 54, 55, 50, 57, 53, 44, 49, 125] 1 =
        .error (.invalidBound 1) := by
  have hleast : Bound.IsNumeral [52, 50, 57, 52, 57, 54, 55, 50, 57, 53] :=
    ⟨List.cons_ne_nil _ _, by simp [Bound.IsDigit]⟩
  have hmost : Bound.IsNumeral [49] := ⟨List.cons_ne_nil _ _, by simp [Bound.IsDigit]⟩
  have hdrop : [120, 123, 52, 50, 57, 52, 57, 54, 55, 50, 57, 53, 44, 49, 125].drop 1 =
      Mark.boundOpen.byte :: ([52, 50, 57, 52, 57, 54, 55, 50, 57, 53] ++ Mark.comma :: [49] ++
        Mark.boundClose :: []) := rfl
  obtain ⟨hinvalid, -⟩ := readBound_between_exact {} hleast hmost hdrop
  exact ⟨hleast, hmost, hinvalid.2 ⟨by decide, .inl (by decide)⟩⟩

/-- The pattern is `x{4294967296,1}`: the bound is inverted, and still the minimum is what is
reported. -/
theorem parse_inverted_bound_of_large_minimum :
    Bound.IsNumeral [52, 50, 57, 52, 57, 54, 55, 50, 57, 54] ∧ Bound.IsNumeral [49] ∧
      Bound.value [49] < Bound.value [52, 50, 57, 52, 57, 54, 55, 50, 57, 54] ∧
      parse {} [120, 123, 52, 50, 57, 52, 57, 54, 55, 50, 57, 54, 44, 49, 125] =
        .error (.repeatTooLarge 1 1000) ∧
      parse {} [120, 123, 52, 50, 57, 52, 57, 54, 55, 50, 57, 54, 44, 49, 125] ≠
        .error (.invalidBound 1) := by
  have hleast : Bound.IsNumeral [52, 50, 57, 52, 57, 54, 55, 50, 57, 54] :=
    ⟨List.cons_ne_nil _ _, by simp [Bound.IsDigit]⟩
  have hmost : Bound.IsNumeral [49] := ⟨List.cons_ne_nil _ _, by simp [Bound.IsDigit]⟩
  have hparse : parse {} [120, 123, 52, 50, 57, 52, 57, 54, 55, 50, 57, 54, 44, 49, 125] =
      .error (.repeatTooLarge 1 1000) := rfl
  refine ⟨hleast, hmost, by decide, hparse, ?_⟩
  rw [hparse]
  intro heq
  cases heq

end ByteRegex
