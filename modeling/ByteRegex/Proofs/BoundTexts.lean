import ByteRegex.Pattern.Bound

/-!
# Texts of bounds

The three ways to write a bound, as a relation between the text between the braces and the bound
it stands for. Reading succeeds on exactly these texts, as long as the bound is ordered and its
largest count is within the limit. Every bound has such a text.
-/

namespace ByteRegex.Bound

def IsNumeral (text : List UInt8) : Prop := text ≠ [] ∧ ∀ b ∈ text, IsDigit b

inductive IsWritten : List UInt8 → Bound → Prop where
  | exactly {digits : List UInt8} :
    IsNumeral digits → IsWritten digits ⟨value digits, some (value digits)⟩
  | atLeast {digits : List UInt8} :
    IsNumeral digits → IsWritten (digits ++ [Mark.comma]) ⟨value digits, none⟩
  | between {least most : List UInt8} : IsNumeral least → IsNumeral most →
    IsWritten (least ++ Mark.comma :: most) ⟨value least, some (value most)⟩

/-! ## Digits and separators -/

theorem IsDigit.ne_comma {b : UInt8} (h : IsDigit b) : b ≠ Mark.comma := by
  rintro rfl
  revert h
  decide

theorem IsDigit.ne_boundClose {b : UInt8} (h : IsDigit b) : b ≠ Mark.boundClose := by
  rintro rfl
  revert h
  decide

theorem IsNumeral.comma_notMem {text : List UInt8} (h : IsNumeral text) : Mark.comma ∉ text :=
  fun hm => (h.2 _ hm).ne_comma rfl

theorem IsNumeral.boundClose_notMem {text : List UInt8} (h : IsNumeral text) :
    Mark.boundClose ∉ text := fun hm => (h.2 _ hm).ne_boundClose rfl

theorem IsWritten.boundClose_notMem {text : List UInt8} {b : Bound} (h : IsWritten text b) :
    Mark.boundClose ∉ text := by
  have hcomma : Mark.boundClose ≠ Mark.comma := by decide
  cases h with
  | exactly hd => exact hd.boundClose_notMem
  | atLeast hd => simp [hd.boundClose_notMem, hcomma]
  | between hl hm => simp [hl.boundClose_notMem, hm.boundClose_notMem, hcomma]

/-! ## Counts -/

theorem count_eq_ok_iff {limits : Limits} {opened n : Nat} {text : List UInt8} :
    count limits opened text = .ok n ↔
      (∀ b ∈ text, IsDigit b) ∧ value text ≤ Limits.wordMax ∧ n = value text := by
  unfold count
  split
  · next hd =>
    have hd' : ∀ b ∈ text, IsDigit b := by simpa using hd
    split
    · next hv =>
      simp only [Except.ok.injEq]
      exact ⟨fun h => ⟨hd', hv, h.symm⟩, fun h => h.2.2.symm⟩
    · next hv => exact ⟨nofun, fun h => absurd h.2.1 hv⟩
  · next hd => exact ⟨nofun, fun h => absurd (by simpa using h.1) hd⟩

theorem check_eq_ok_iff {limits : Limits} {opened : Nat} {b b' : Bound} :
    check limits opened b = .ok b' ↔
      b' = b ∧ b.IsOrdered ∧ b.largest ≤ limits.maxRepeat.toNat := by
  unfold check
  split
  · next ho =>
    split
    · next hl =>
      simp only [Except.ok.injEq]
      exact ⟨fun h => ⟨h.symm, ho, hl⟩, fun h => h.1.symm⟩
    · next hl => exact ⟨nofun, fun h => absurd h.2.2 hl⟩
  · next ho => exact ⟨nofun, fun h => absurd h.2.1 ho⟩

theorem min_le_largest {b : Bound} (h : b.IsOrdered) : b.min ≤ b.largest := by
  obtain ⟨min, max⟩ := b
  cases max with
  | none => exact Nat.le_refl min
  | some n => exact (h n rfl).1

theorem maxRepeat_le_wordMax (limits : Limits) : limits.maxRepeat.toNat ≤ Limits.wordMax := by
  have := limits.maxRepeat.toNat_lt
  unfold Limits.wordMax
  omega

/-! ## Reading -/

theorem ne_of_notMem {stop : UInt8} {text : List UInt8} (h : stop ∉ text) :
    ∀ b ∈ text, decide (b ≠ stop) = true := by
  intro b hb
  exact decide_eq_true fun he => h (he ▸ hb)

theorem takeWhile_before {stop : UInt8} {front : List UInt8} (h : stop ∉ front)
    (back : List UInt8) : (front ++ stop :: back).takeWhile (· ≠ stop) = front := by
  rw [List.takeWhile_append_of_pos (ne_of_notMem h), List.takeWhile_cons_of_neg (by simp),
    List.append_nil]

theorem dropWhile_before {stop : UInt8} {front : List UInt8} (h : stop ∉ front)
    (back : List UInt8) : (front ++ stop :: back).dropWhile (· ≠ stop) = stop :: back := by
  rw [List.dropWhile_append_of_pos (ne_of_notMem h), List.dropWhile_cons_of_neg (by simp)]

/-- The text before the first comma may not be empty, whatever follows. -/
theorem read_of_comma_notMem (limits : Limits) (opened : Nat) {text : List UInt8}
    (h : Mark.comma ∉ text) :
    read limits opened text = if text = [] then .error (.missingMin opened)
      else count limits opened text >>= fun n => check limits opened ⟨n, some n⟩ := by
  have hp := ne_of_notMem h
  have htake : text.takeWhile (· ≠ Mark.comma) = text := by
    simpa using @List.takeWhile_append_of_pos _ _ text [] hp
  have hdrop : text.dropWhile (· ≠ Mark.comma) = [] := by
    simpa using @List.dropWhile_append_of_pos _ _ text [] hp
  simp only [read, htake, hdrop]

theorem read_at_comma (limits : Limits) (opened : Nat) {front : List UInt8}
    (h : Mark.comma ∉ front) (back : List UInt8) :
    read limits opened (front ++ Mark.comma :: back) =
      if front = [] then .error (.missingMin opened)
      else if Mark.comma ∈ back then .error (.malformedBound opened)
      else readRange limits opened front back := by
  simp only [read, takeWhile_before h, dropWhile_before h]

theorem isWritten_of_readRange {limits : Limits} {opened : Nat} {front back : List UInt8}
    {b : Bound} (hne : front ≠ []) (h : readRange limits opened front back = .ok b) :
    IsWritten (front ++ Mark.comma :: back) b ∧ b.IsOrdered ∧
      b.largest ≤ limits.maxRepeat.toNat := by
  obtain ⟨least, hl, h⟩ := CompileError.bind_eq_ok_iff.1 h
  obtain ⟨hfront, -, rfl⟩ := count_eq_ok_iff.1 hl
  by_cases hback : back = []
  · subst hback
    rw [if_pos rfl] at h
    obtain ⟨rfl, hcheck⟩ := check_eq_ok_iff.1 h
    exact ⟨.atLeast ⟨hne, hfront⟩, hcheck⟩
  · rw [if_neg hback] at h
    obtain ⟨most, hm, hc⟩ := CompileError.bind_eq_ok_iff.1 h
    obtain ⟨hdigits, -, rfl⟩ := count_eq_ok_iff.1 hm
    obtain ⟨rfl, hcheck⟩ := check_eq_ok_iff.1 hc
    exact ⟨.between ⟨hne, hfront⟩ ⟨hback, hdigits⟩, hcheck⟩

theorem isWritten_of_read {limits : Limits} {opened : Nat} {text : List UInt8} {b : Bound}
    (h : read limits opened text = .ok b) :
    IsWritten text b ∧ b.IsOrdered ∧ b.largest ≤ limits.maxRepeat.toNat := by
  by_cases hm : Mark.comma ∈ text
  · obtain ⟨front, back, rfl, hfront⟩ := List.eq_append_cons_of_mem hm
    rw [read_at_comma limits opened hfront] at h
    split at h
    · cases h
    · next hne =>
      split at h
      · cases h
      · exact isWritten_of_readRange hne h
  · rw [read_of_comma_notMem limits opened hm] at h
    split at h
    · cases h
    · next hne =>
      obtain ⟨n, hn, hc⟩ := CompileError.bind_eq_ok_iff.1 h
      obtain ⟨hdigits, -, rfl⟩ := count_eq_ok_iff.1 hn
      obtain ⟨rfl, hcheck⟩ := check_eq_ok_iff.1 hc
      exact ⟨.exactly ⟨hne, hdigits⟩, hcheck⟩

/-- Neither count of a bound within the limit is too large to be read. -/
theorem read_of_isWritten {limits : Limits} (opened : Nat) {text : List UInt8} {b : Bound}
    (hw : IsWritten text b) (ho : b.IsOrdered) (hl : b.largest ≤ limits.maxRepeat.toNat) :
    read limits opened text = .ok b := by
  have hword := Nat.le_trans hl (maxRepeat_le_wordMax limits)
  have hmin := Nat.le_trans (min_le_largest ho) hword
  have hcheck : check limits opened b = .ok b := check_eq_ok_iff.2 ⟨rfl, ho, hl⟩
  cases hw with
  | exactly hd =>
    have hn : count limits opened text = .ok (value text) :=
      count_eq_ok_iff.2 ⟨hd.2, hmin, rfl⟩
    rw [read_of_comma_notMem limits opened hd.comma_notMem, if_neg hd.1]
    exact CompileError.bind_eq_ok_iff.2 ⟨_, hn, hcheck⟩
  | @atLeast digits hd =>
    have hn : count limits opened digits = .ok (value digits) :=
      count_eq_ok_iff.2 ⟨hd.2, hmin, rfl⟩
    rw [read_at_comma limits opened hd.comma_notMem, if_neg hd.1, if_neg List.not_mem_nil]
    exact CompileError.bind_eq_ok_iff.2 ⟨_, hn, hcheck⟩
  | @between least most hdl hdm =>
    have hn : count limits opened least = .ok (value least) :=
      count_eq_ok_iff.2 ⟨hdl.2, hmin, rfl⟩
    have hm : count limits opened most = .ok (value most) :=
      count_eq_ok_iff.2 ⟨hdm.2, hword, rfl⟩
    rw [read_at_comma limits opened hdl.comma_notMem, if_neg hdl.1, if_neg hdm.comma_notMem]
    refine CompileError.bind_eq_ok_iff.2 ⟨_, hn, ?_⟩
    rw [if_neg hdm.1]
    exact CompileError.bind_eq_ok_iff.2 ⟨_, hm, hcheck⟩

theorem read_eq_ok_iff {limits : Limits} {opened : Nat} {text : List UInt8} {b : Bound} :
    read limits opened text = .ok b ↔
      IsWritten text b ∧ b.IsOrdered ∧ b.largest ≤ limits.maxRepeat.toNat :=
  ⟨isWritten_of_read, fun h => read_of_isWritten opened h.1 h.2.1 h.2.2⟩

/-! ## Writing -/

def digit (n : Nat) : UInt8 := UInt8.ofNat (48 + n)

theorem toNat_digit {n : Nat} (h : n < 10) : (digit n).toNat = 48 + n := by
  rw [digit, UInt8.toNat_ofNat_of_lt' (by simp only [UInt8.size]; omega)]

theorem isDigit_digit {n : Nat} (h : n < 10) : IsDigit (digit n) := by
  rw [IsDigit, UInt8.le_iff_toNat_le, UInt8.le_iff_toNat_le, toNat_digit h]
  have hzero : (48 : UInt8).toNat = 48 := rfl
  have hnine : (57 : UInt8).toNat = 57 := rfl
  omega

def numeral (n : Nat) : List UInt8 :=
  if n < 10 then [digit n] else numeral (n / 10) ++ [digit (n % 10)]

theorem value_append_singleton (digits : List UInt8) (d : UInt8) :
    value (digits ++ [d]) = 10 * value digits + (d.toNat - 48) := by
  simp [value]

theorem value_numeral (n : Nat) : value (numeral n) = n := by
  induction n using numeral.induct with
  | case1 n h =>
    rw [numeral, if_pos h]
    have hvalue := value_append_singleton [] (digit n)
    rw [toNat_digit h] at hvalue
    simpa [value] using hvalue
  | case2 n h ih =>
    rw [numeral, if_neg h, value_append_singleton, ih, toNat_digit (Nat.mod_lt n (by decide))]
    omega

theorem isNumeral_numeral (n : Nat) : IsNumeral (numeral n) := by
  induction n using numeral.induct with
  | case1 n h =>
    rw [numeral, if_pos h]
    exact ⟨List.cons_ne_nil _ _, List.forall_mem_singleton.2 (isDigit_digit h)⟩
  | case2 n h ih =>
    rw [numeral, if_neg h]
    have hlast : IsDigit (digit (n % 10)) := isDigit_digit (Nat.mod_lt n (by decide))
    exact ⟨by simp, List.forall_mem_append.2 ⟨ih.2, List.forall_mem_singleton.2 hlast⟩⟩

def text (b : Bound) : List UInt8 :=
  match b.max with
  | none => numeral b.min ++ [Mark.comma]
  | some n => numeral b.min ++ Mark.comma :: numeral n

theorem isWritten_text (b : Bound) : IsWritten b.text b := by
  obtain ⟨min, max⟩ := b
  have hmin := isNumeral_numeral min
  cases max with
  | none =>
    have hwritten := IsWritten.atLeast hmin
    rwa [value_numeral] at hwritten
  | some n =>
    have hwritten := IsWritten.between hmin (isNumeral_numeral n)
    rwa [value_numeral, value_numeral] at hwritten

end ByteRegex.Bound
