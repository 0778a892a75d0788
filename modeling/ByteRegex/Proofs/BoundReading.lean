import ByteRegex.Proofs.BoundTexts
import ByteRegex.Proofs.GrammarCompleteness

/-!
# Reading bounds

A reader that meets an opening brace reads a bound from the text up to the next closing brace and
goes on behind that. The counts in the text are natural numbers of any size, which are compared with
the limit as such, and every error says something true about the text.
-/

namespace ByteRegex

namespace Bound

variable {limits : Limits} {opened limit : Nat} {text field : List UInt8} {b : Bound}
  {e : CompileError}

/-! ## Permitted texts -/

inductive IsPermitted (limit : Nat) : List UInt8 → Bound → Prop where
  | exactly {digits : List UInt8} : IsNumeral digits → 1 ≤ value digits → value digits ≤ limit →
    IsPermitted limit digits ⟨value digits, some (value digits)⟩
  | atLeast {digits : List UInt8} : IsNumeral digits → value digits ≤ limit →
    IsPermitted limit (digits ++ [Mark.comma]) ⟨value digits, none⟩
  | between {least most : List UInt8} : IsNumeral least → IsNumeral most →
    value least ≤ value most → 1 ≤ value most → value most ≤ limit →
    IsPermitted limit (least ++ Mark.comma :: most) ⟨value least, some (value most)⟩

theorem isOrdered_none (min : Nat) : IsOrdered ⟨min, none⟩ := nofun

theorem isOrdered_some_iff {min max : Nat} : IsOrdered ⟨min, some max⟩ ↔ min ≤ max ∧ 1 ≤ max := by
  simp only [IsOrdered, Option.mem_some_iff, forall_eq']
  rfl

theorem not_isOrdered_iff : ¬ b.IsOrdered ↔ ∃ most ∈ b.max, most < b.min ∨ most = 0 := by
  obtain ⟨min, max⟩ := b
  cases max with
  | none => simp [isOrdered_none]
  | some most =>
    simp only [isOrdered_some_iff, Option.mem_some_iff, exists_eq_left']
    omega

theorem isPermitted_iff :
    IsPermitted limit text b ↔ IsWritten text b ∧ b.IsOrdered ∧ b.largest ≤ limit := by
  constructor
  · intro h
    cases h with
    | exactly hd hpos hle => exact ⟨.exactly hd, isOrdered_some_iff.2 ⟨Nat.le_refl _, hpos⟩, hle⟩
    | atLeast hd hle => exact ⟨.atLeast hd, isOrdered_none _, hle⟩
    | between hl hm hord hpos hle =>
      exact ⟨.between hl hm, isOrdered_some_iff.2 ⟨hord, hpos⟩, hle⟩
  · rintro ⟨hw, ho, hle⟩
    cases hw with
    | exactly hd => exact .exactly hd (isOrdered_some_iff.1 ho).2 hle
    | atLeast hd => exact .atLeast hd hle
    | between hl hm =>
      obtain ⟨hord, hpos⟩ := isOrdered_some_iff.1 ho
      exact .between hl hm hord hpos hle

theorem read_eq_ok_iff_isPermitted :
    read limits opened text = .ok b ↔ IsPermitted limits.maxRepeat.toNat text b := by
  rw [read_eq_ok_iff, isPermitted_iff]

/-! ## Fields -/

def IsField (text field : List UInt8) : Prop := field ∈ text.splitOn Mark.comma

theorem isField_iff_of_comma_notMem (h : Mark.comma ∉ text) :
    IsField text field ↔ field = text := by
  rw [IsField, List.splitOn_eq_singleton h, List.mem_singleton]

theorem isField_at_comma {front : List UInt8} (h : Mark.comma ∉ front) (back : List UInt8) :
    IsField (front ++ Mark.comma :: back) field ↔ field = front ∨ IsField back field := by
  rw [IsField, List.splitOn_append_cons_self_of_not_mem h, List.mem_cons]
  rfl

/-- The largest count of a bound is the value of one of the fields of its text. -/
theorem IsWritten.exists_field (h : IsWritten text b) :
    ∃ field, IsField text field ∧ IsNumeral field ∧ value field = b.largest := by
  cases h with
  | exactly hd => exact ⟨_, (isField_iff_of_comma_notMem hd.comma_notMem).2 rfl, hd, rfl⟩
  | atLeast hd => exact ⟨_, (isField_at_comma hd.comma_notMem []).2 (.inl rfl), hd, rfl⟩
  | between hl hm =>
    have hfield := (isField_iff_of_comma_notMem hm.comma_notMem).2 rfl
    exact ⟨_, (isField_at_comma hl.comma_notMem _).2 (.inr hfield), hm, rfl⟩

/-! ## Texts that stand for no bound -/

theorem IsWritten.isDigit_of_ne_comma (h : IsWritten text b) {x : UInt8} (hx : x ∈ text)
    (hne : x ≠ Mark.comma) : IsDigit x := by
  cases h with
  | exactly hd => exact hd.2 x hx
  | atLeast hd =>
    rcases List.mem_append.1 hx with hx | hx
    · exact hd.2 x hx
    · exact absurd (List.mem_singleton.1 hx) hne
  | between hl hm =>
    rcases List.mem_append.1 hx with hx | hx
    · exact hl.2 x hx
    · exact hm.2 x ((List.mem_cons.1 hx).resolve_left hne)

theorem IsWritten.count_comma_le (h : IsWritten text b) : text.count Mark.comma ≤ 1 := by
  cases h with
  | exactly hd => simp [List.count_eq_zero.2 hd.comma_notMem]
  | atLeast hd => simp [List.count_eq_zero.2 hd.comma_notMem]
  | between hl hm =>
    simp [List.count_eq_zero.2 hl.comma_notMem, List.count_eq_zero.2 hm.comma_notMem]

theorem not_isWritten_of_two_commas {front back : List UInt8} (h : Mark.comma ∈ back) (b : Bound) :
    ¬ IsWritten (front ++ Mark.comma :: back) b := by
  intro hw
  have hle := hw.count_comma_le
  have hpos := List.count_pos_iff.2 h
  rw [List.count_append, List.count_cons_self] at hle
  omega

/-! ## Errors -/

/-- What is wrong with the text between two braces, for each error that may be reported there. -/
inductive Explains (limit opened : Nat) (text : List UInt8) : CompileError → Prop where
  | missingMin : text = [] ∨ text.head? = some Mark.comma →
    Explains limit opened text (.missingMin opened)
  | malformed : (∀ b, ¬ IsWritten text b) → Explains limit opened text (.malformedBound opened)
  | invalid {b : Bound} {most : Nat} : IsWritten text b → b.max = some most →
    most < b.min ∨ most = 0 → Explains limit opened text (.invalidBound opened)
  | tooLarge {field : List UInt8} : IsField text field → IsNumeral field → limit < value field →
    Explains limit opened text (.repeatTooLarge opened limit)

theorem count_eq_error (h : count limits opened field = .error e) :
    (e = .malformedBound opened ∧ ∃ x ∈ field, ¬ IsDigit x) ∨
      (e = .repeatTooLarge opened limits.maxRepeat.toNat ∧ (∀ x ∈ field, IsDigit x) ∧
        limits.maxRepeat.toNat < value field) := by
  unfold count at h
  split at h
  · next hd =>
    split at h
    · cases h
    · next hv =>
      cases h
      -- A number that does not fit in a word is above every limit.
      have hlt := Nat.lt_of_le_of_lt (maxRepeat_le_wordMax limits) (Nat.not_le.1 hv)
      exact .inr ⟨rfl, by simpa using hd, hlt⟩
  · next hd =>
    cases h
    exact .inl ⟨rfl, by simpa using hd⟩

theorem check_eq_error {b : Bound} (h : check limits opened b = .error e) :
    (e = .invalidBound opened ∧ ¬ b.IsOrdered) ∨
      (e = .repeatTooLarge opened limits.maxRepeat.toNat ∧
        limits.maxRepeat.toNat < b.largest) := by
  unfold check at h
  split at h
  · split at h
    · cases h
    · next hl => cases h; exact .inr ⟨rfl, Nat.not_le.1 hl⟩
  · next ho => cases h; exact .inl ⟨rfl, ho⟩

theorem explains_of_count (h : count limits opened field = .error e) (hfield : IsField text field)
    (hne : field ≠ []) (hcomma : Mark.comma ∉ field) (hsub : field ⊆ text) :
    Explains limits.maxRepeat.toNat opened text e := by
  rcases count_eq_error h with ⟨rfl, x, hx, hdigit⟩ | ⟨rfl, hdigits, hlt⟩
  · refine .malformed fun b hw => hdigit ?_
    exact hw.isDigit_of_ne_comma (hsub hx) fun he => hcomma (he ▸ hx)
  · exact .tooLarge hfield ⟨hne, hdigits⟩ hlt

theorem explains_of_check (h : check limits opened b = .error e) (hw : IsWritten text b) :
    Explains limits.maxRepeat.toNat opened text e := by
  rcases check_eq_error h with ⟨rfl, ho⟩ | ⟨rfl, hlt⟩
  · obtain ⟨most, hmax, hmost⟩ := not_isOrdered_iff.1 ho
    exact .invalid hw hmax hmost
  · obtain ⟨field, hfield, hnumeral, hvalue⟩ := hw.exists_field
    exact .tooLarge hfield hnumeral (hvalue ▸ hlt)

theorem explains_of_readRange {front back : List UInt8} (hne : front ≠ [])
    (hfront : Mark.comma ∉ front) (hback : Mark.comma ∉ back)
    (h : readRange limits opened front back = .error e) :
    Explains limits.maxRepeat.toNat opened (front ++ Mark.comma :: back) e := by
  rcases CompileError.bind_eq_error_iff.1 h with h | ⟨least, hl, h⟩
  · have hfield := (isField_at_comma hfront back).2 (.inl rfl)
    exact explains_of_count h hfield hne hfront (List.subset_append_left _ _)
  · obtain ⟨hdl, -, rfl⟩ := count_eq_ok_iff.1 hl
    by_cases hnil : back = []
    · subst hnil
      rw [if_pos rfl] at h
      exact explains_of_check h (.atLeast ⟨hne, hdl⟩)
    · rw [if_neg hnil] at h
      rcases CompileError.bind_eq_error_iff.1 h with h | ⟨most, hm, h⟩
      · have hfield := (isField_at_comma hfront back).2
          (.inr ((isField_iff_of_comma_notMem hback).2 rfl))
        refine explains_of_count h hfield hnil hback fun x hx => ?_
        exact List.mem_append_right _ (List.mem_cons_of_mem _ hx)
      · obtain ⟨hdm, -, rfl⟩ := count_eq_ok_iff.1 hm
        exact explains_of_check h (.between ⟨hne, hdl⟩ ⟨hnil, hdm⟩)

theorem explains_of_read (h : read limits opened text = .error e) :
    Explains limits.maxRepeat.toNat opened text e := by
  by_cases hm : Mark.comma ∈ text
  · obtain ⟨front, back, rfl, hfront⟩ := List.eq_append_cons_of_mem hm
    rw [read_at_comma limits opened hfront] at h
    split at h
    · next hnil =>
      cases h
      exact .missingMin (.inr (by simp [hnil]))
    · next hne =>
      split at h
      · next hback =>
        cases h
        exact .malformed (not_isWritten_of_two_commas hback)
      · next hback => exact explains_of_readRange hne hfront hback h
  · rw [read_of_comma_notMem limits opened hm] at h
    split at h
    · next hnil =>
      cases h
      exact .missingMin (.inl hnil)
    · next hne =>
      rcases CompileError.bind_eq_error_iff.1 h with h | ⟨n, hn, h⟩
      · have hfield := (isField_iff_of_comma_notMem hm).2 rfl
        exact explains_of_count h hfield hne hm (List.Subset.refl text)
      · obtain ⟨hd, -, rfl⟩ := count_eq_ok_iff.1 hn
        exact explains_of_check h (.exactly ⟨hne, hd⟩)

theorem read_of_no_minimum (limits : Limits) (opened : Nat)
    (h : text = [] ∨ text.head? = some Mark.comma) :
    read limits opened text = .error (.missingMin opened) := by
  rcases h with rfl | h
  · rfl
  · obtain ⟨back, rfl⟩ := List.head?_eq_some_iff.1 h
    exact (read_at_comma limits opened List.not_mem_nil back).trans (if_pos rfl)

end Bound

/-! ## Bounds in a pattern -/

/-- Reads the bound whose opening brace stands at offset `a`. The result is the bound and the offset
behind its closing brace. -/
def readBound (limits : Limits) (pattern : List UInt8) (a : Nat) :
    Except CompileError (Bound × Nat) :=
  let rest := pattern.drop (a + 1)
  let text := rest.takeWhile (· ≠ Mark.boundClose)
  if Mark.boundClose ∈ rest then
    (Bound.read limits a text).map fun b => (b, a + text.length + 2)
  else .error (.unterminatedBound a)

section

variable {limits : Limits} {pattern text rest : List UInt8} {a cursor : Nat} {b : Bound}
  {e : CompileError}

theorem readBound_of_notMem (limits : Limits) (h : Mark.boundClose ∉ pattern.drop (a + 1)) :
    readBound limits pattern a = .error (.unterminatedBound a) := if_neg h

theorem readBound_of_drop (limits : Limits)
    (hdrop : pattern.drop (a + 1) = text ++ Mark.boundClose :: rest)
    (hclose : Mark.boundClose ∉ text) :
    readBound limits pattern a =
      (Bound.read limits a text).map fun b => (b, a + text.length + 2) := by
  have hmem : Mark.boundClose ∈ text ++ Mark.boundClose :: rest :=
    List.mem_append_right _ List.mem_cons_self
  simp only [readBound, hdrop, if_pos hmem, Bound.takeWhile_before hclose]

theorem readBound_eq_ok_iff : readBound limits pattern a = .ok (b, cursor) ↔
    ∃ text rest, pattern.drop (a + 1) = text ++ Mark.boundClose :: rest ∧
      Mark.boundClose ∉ text ∧ Bound.IsPermitted limits.maxRepeat.toNat text b ∧
      cursor = a + text.length + 2 := by
  constructor
  · intro h
    by_cases hmem : Mark.boundClose ∈ pattern.drop (a + 1)
    · obtain ⟨text, rest, hdrop, hclose⟩ := List.eq_append_cons_of_mem hmem
      rw [readBound_of_drop limits hdrop hclose] at h
      obtain ⟨b', hread, heq⟩ := CompileError.map_eq_ok_iff.1 h
      cases heq
      exact ⟨text, rest, hdrop, hclose, Bound.read_eq_ok_iff_isPermitted.1 hread, rfl⟩
    · rw [readBound_of_notMem limits hmem] at h
      cases h
  · rintro ⟨text, rest, hdrop, hclose, hpermitted, rfl⟩
    rw [readBound_of_drop limits hdrop hclose]
    exact CompileError.map_eq_ok_iff.2 ⟨b, Bound.read_eq_ok_iff_isPermitted.2 hpermitted, rfl⟩

theorem readBound_eq_unterminated_iff (h : readBound limits pattern a = .error e) :
    e = .unterminatedBound a ↔ Mark.boundClose ∉ pattern.drop (a + 1) := by
  constructor
  · rintro rfl hmem
    obtain ⟨text, rest, hdrop, hclose⟩ := List.eq_append_cons_of_mem hmem
    rw [readBound_of_drop limits hdrop hclose] at h
    have hexplains := Bound.explains_of_read (CompileError.map_eq_error_iff.1 h)
    cases hexplains
  · intro hnot
    rw [readBound_of_notMem limits hnot] at h
    cases h
    rfl

theorem readBound_eq_missingMin_iff (h : readBound limits pattern a = .error e)
    (hdrop : pattern.drop (a + 1) = text ++ Mark.boundClose :: rest)
    (hclose : Mark.boundClose ∉ text) :
    e = .missingMin a ↔ text = [] ∨ text.head? = some Mark.comma := by
  rw [readBound_of_drop limits hdrop hclose, CompileError.map_eq_error_iff] at h
  constructor
  · rintro rfl
    cases Bound.explains_of_read h with
    | missingMin htext => exact htext
  · intro htext
    rw [Bound.read_of_no_minimum limits a htext] at h
    cases h
    rfl

end

namespace Reader

variable {limits : Limits} {r : Reader}

def behindBound (limits : Limits) (b : Bound) (cursor : Nat) (r : Reader) :
    Except CompileError Reader :=
  (r.quantify limits .boundOpen r.offset b).map fun r' => { r' with offset := cursor }

theorem step_inBound_close {opened : Nat} {body : List UInt8} (hm : r.mode = .inBound opened body) :
    r.step limits Mark.boundClose =
      Bound.read limits opened body.reverse >>= fun b =>
        (r.scope.quantify limits .boundOpen opened b).map fun s =>
          { r with offset := r.offset + 1, scope := s, mode := .plain } := by
  simp only [step, readByte, hm, readInBound, if_pos, quantify]
  cases Bound.read limits opened body.reverse with
  | error e => rfl
  | ok b =>
    simp only [bind, Except.bind]
    cases r.scope.quantify limits .boundOpen opened b <;> rfl

theorem behindBound_eq (hp : r.mode = .plain) (b : Bound) (cursor : Nat) :
    r.behindBound limits b cursor = (r.scope.quantify limits .boundOpen r.offset b).map fun s =>
      { r with offset := cursor, scope := s, mode := .plain } := by
  rw [behindBound, quantify]
  cases r.scope.quantify limits .boundOpen r.offset b with
  | error e => rfl
  | ok s => simp only [Except.map, hp]

/-- At an opening brace the reader reads the bound, repeats the last term and goes on behind it. -/
theorem complete_boundOpen (limits : Limits) {pattern : List UInt8} (hp : r.mode = .plain)
    (h : pattern[r.offset]? = some Mark.boundOpen.byte) :
    r.complete limits (pattern.drop r.offset) = readBound limits pattern r.offset >>= fun p =>
      r.behindBound limits p.1 p.2 >>= complete limits (pattern.drop p.2) := by
  let r₁ : Reader := { r with offset := r.offset + 1, mode := .inBound r.offset [] }
  have hbegin : r.complete limits (pattern.drop r.offset) =
      r₁.complete limits (pattern.drop (r.offset + 1)) := (Advances.beginBound hp).complete h
  by_cases hmem : Mark.boundClose ∈ pattern.drop (r.offset + 1)
  · obtain ⟨text, rest, hdrop, hclose⟩ := List.eq_append_cons_of_mem hmem
    have hbody : Runs limits r₁ text _ := runs_inBound hclose r₁ r.offset [] rfl
    have hcursor : r.offset + text.length + 2 = r₁.offset + text.length + 1 := by
      simp only [r₁]
      omega
    have hrest : pattern.drop (r₁.offset + text.length + 1) = rest := by
      rw [Nat.add_assoc, ← List.drop_drop, hdrop, List.drop_append]
      simp
    rw [hbegin, readBound_of_drop limits hdrop hclose, hdrop, hbody.complete, complete_cons,
      step_inBound_close rfl, List.append_nil, List.reverse_reverse]
    cases Bound.read limits r.offset text with
    | error e => rfl
    | ok b =>
      simp only [bind, Except.bind, Except.map, behindBound_eq hp, hcursor, hrest]
      rfl
  · -- The whole rest is read as the body of the bound, and the pattern ends there.
    have hbody : Runs limits r₁ _ _ := runs_inBound hmem r₁ r.offset [] rfl
    have hend := hbody.complete []
    rw [List.append_nil] at hend
    rw [hbegin, readBound_of_notMem limits hmem, hend]
    rfl

end Reader

/-- At an opening brace a bound is read if and only if a closing one follows and the text up to the
first of these has one of the three forms with counts that are ordered and within the limit. If no
bound is read then the error says why. -/
theorem readBound_exact (limits : Limits) {pattern : List UInt8} {a : Nat}
    (h : pattern[a]? = some Mark.boundOpen.byte) :
    (∀ r : Reader, r.mode = .plain → r.offset = a →
      r.complete limits (pattern.drop a) = readBound limits pattern a >>= fun p =>
        r.behindBound limits p.1 p.2 >>= Reader.complete limits (pattern.drop p.2)) ∧
    (∀ b cursor, readBound limits pattern a = .ok (b, cursor) ↔
      ∃ text rest, pattern.drop (a + 1) = text ++ Mark.boundClose :: rest ∧
        Mark.boundClose ∉ text ∧ Bound.IsPermitted limits.maxRepeat.toNat text b ∧
        cursor = a + text.length + 2) ∧
    ∀ e, readBound limits pattern a = .error e →
      (e = .unterminatedBound a ↔ Mark.boundClose ∉ pattern.drop (a + 1)) ∧
      ∀ text rest, pattern.drop (a + 1) = text ++ Mark.boundClose :: rest →
        Mark.boundClose ∉ text →
        (e = .missingMin a ↔ text = [] ∨ text.head? = some Mark.comma) ∧
        Bound.Explains limits.maxRepeat.toNat a text e := by
  refine ⟨?_, fun b cursor => readBound_eq_ok_iff, ?_⟩
  · rintro r hp rfl
    exact Reader.complete_boundOpen limits hp h
  · intro e he
    refine ⟨readBound_eq_unterminated_iff he, fun text rest hdrop hclose => ?_⟩
    refine ⟨readBound_eq_missingMin_iff he hdrop hclose, ?_⟩
    rw [readBound_of_drop limits hdrop hclose, CompileError.map_eq_error_iff] at he
    exact Bound.explains_of_read he

/-- The pattern is `x{007,10}`, read with the least limit that its counts allow. -/
theorem readBound_exact_of_leading_zeros :
    ([120, 123, 48, 48, 55, 44, 49, 48, 125] : List UInt8)[1]? = some Mark.boundOpen.byte ∧
      readBound ⟨10, 1000, 10⟩ [120, 123, 48, 48, 55, 44, 49, 48, 125] 1 =
        .ok (⟨7, some 10⟩, 9) := by
  have hleast : Bound.IsNumeral [48, 48, 55] := ⟨List.cons_ne_nil _ _, by simp [Bound.IsDigit]⟩
  have hmost : Bound.IsNumeral [49, 48] := ⟨List.cons_ne_nil _ _, by simp [Bound.IsDigit]⟩
  have hpermitted : Bound.IsPermitted 10 [48, 48, 55, 44, 49, 48] ⟨7, some 10⟩ :=
    .between hleast hmost (by decide) (by decide) (by decide)
  have hopen : ([120, 123, 48, 48, 55, 44, 49, 48, 125] : List UInt8)[1]? =
      some Mark.boundOpen.byte := rfl
  obtain ⟨-, hread, -⟩ := readBound_exact ⟨10, 1000, 10⟩ hopen
  exact ⟨hopen, (hread _ 9).2 ⟨_, [], rfl, by decide, hpermitted, rfl⟩⟩

end ByteRegex
