import ByteRegex.Pattern.Reader
import ByteRegex.Proofs.PatternGrammar

/-!
# Steps of a reader

All ways in which one byte takes a reader further without an error, and runs of such steps over a
text. What a run keeps is settled by what each of these ways keeps.
-/

namespace ByteRegex

open Grammar

theorem Limits.allow_eq_ok_iff {limits : Limits} {offset : Nat} {p q : Piece} :
    limits.allow offset p = .ok q ↔ q = p ∧ limits.Allows p.height := by
  unfold Limits.allow
  split
  · next ha =>
    simp only [Except.ok.injEq]
    exact ⟨fun h => ⟨h.symm, ha⟩, fun h => h.1.symm⟩
  · next ha => exact ⟨nofun, fun h => absurd h.2 ha⟩

theorem Limits.allow_eq_error_iff {limits : Limits} {offset : Nat} {p : Piece}
    {e : CompileError} :
    limits.allow offset p = .error e ↔ e = limits.tooDeep offset ∧ ¬ limits.Allows p.height := by
  unfold Limits.allow
  split
  · next ha => exact ⟨nofun, fun h => absurd ha h.2⟩
  · next ha =>
    simp only [Except.error.injEq]
    exact ⟨fun h => ⟨h.symm, ha⟩, fun h => h.1.symm⟩

/-! ## Literals -/

theorem Grammar.isLiteral_of_ofByte? {b : UInt8} (inGroup : Bool) (h : Mark.ofByte? b = none) :
    IsLiteral inGroup b := by
  have hne : ∀ m : Mark, b ≠ m.byte := by
    rintro m rfl
    rw [Mark.ofByte?_byte] at h
    cases h
  refine ⟨fun hm => ?_, fun _ => hne _⟩
  obtain ⟨m, -, hb⟩ := List.mem_map.1 hm
  exact hne m hb.symm

theorem Grammar.isLiteral_groupClose : IsLiteral false Mark.groupClose.byte := by
  constructor
  · decide
  · intro h
    cases h

theorem Grammar.IsLiteral.ofByte? {inGroup : Bool} {b : UInt8} (h : IsLiteral inGroup b) :
    Mark.ofByte? b = none ∨ inGroup = false ∧ b = Mark.groupClose.byte := by
  obtain ⟨hb, hclose⟩ := h
  cases ho : Mark.ofByte? b with
  | none => exact .inl rfl
  | some m =>
    obtain rfl := Mark.ofByte?_eq_some_iff.1 ho
    by_cases hm : m = .groupClose
    · subst hm
      exact .inr ⟨by simpa using hclose, rfl⟩
    · cases m <;> contradiction

namespace Scope

variable {limits : Limits} {s s' : Scope}

theorem finish_eq_ok_iff {pieces : List Piece} :
    s.finish limits = .ok pieces ↔
      (s.left = none ∧ pieces = s.pieces) ∨
      ∃ left, s.left = some left ∧ pieces = [.alternation left.pieces s.pieces] ∧
        limits.Allows (Piece.alternation left.pieces s.pieces).height := by
  obtain ⟨ps, left⟩ := s
  cases left with
  | none => simp [finish, eq_comm]
  | some left =>
    simp only [finish, CompileError.map_eq_ok_iff, Limits.allow_eq_ok_iff]
    constructor
    · rintro ⟨q, ⟨rfl, ha⟩, rfl⟩
      exact .inr ⟨left, rfl, rfl, ha⟩
    · rintro (⟨h, -⟩ | ⟨_, h, rfl, ha⟩)
      · cases h
      · cases h
        exact ⟨_, ⟨rfl, ha⟩, rfl⟩

theorem finish_eq_error {e : CompileError} (h : s.finish limits = .error e) :
    ∃ left, s.left = some left ∧ e = limits.tooDeep left.bar ∧
      ¬ limits.Allows (Piece.alternation left.pieces s.pieces).height := by
  obtain ⟨pieces, left⟩ := s
  cases left with
  | none => cases h
  | some left => exact ⟨left, rfl, Limits.allow_eq_error_iff.1 (CompileError.map_eq_error_iff.1 h)⟩

theorem quantify_eq_ok_iff {mark : Mark} {offset : Nat} {b : Bound} :
    s.quantify limits mark offset b = .ok s' ↔
      ∃ p ps, s.pieces = p :: ps ∧ limits.Allows (p.repetition b).height ∧
        s' = { s with pieces := p.repetition b :: ps } := by
  obtain ⟨pieces, left⟩ := s
  cases pieces with
  | nil => simp [quantify]
  | cons p ps =>
    simp only [quantify, CompileError.map_eq_ok_iff, Limits.allow_eq_ok_iff]
    constructor
    · rintro ⟨q, ⟨rfl, ha⟩, rfl⟩
      exact ⟨p, ps, rfl, ha, rfl⟩
    · rintro ⟨_, _, h, ha, rfl⟩
      cases h
      exact ⟨_, ⟨rfl, ha⟩, rfl⟩

theorem quantify_eq_error {mark : Mark} {offset : Nat} {b : Bound} {e : CompileError}
    (h : s.quantify limits mark offset b = .error e) :
    (s.pieces = [] ∧ e = .danglingQuantifier mark.char offset) ∨
      ∃ p ps, s.pieces = p :: ps ∧ e = limits.tooDeep offset ∧
        ¬ limits.Allows (p.repetition b).height := by
  obtain ⟨pieces, left⟩ := s
  cases pieces with
  | nil =>
    cases h
    exact .inl ⟨rfl, rfl⟩
  | cons p ps =>
    exact .inr ⟨p, ps, rfl, Limits.allow_eq_error_iff.1 (CompileError.map_eq_error_iff.1 h)⟩

end Scope

namespace Reader

def inGroup (r : Reader) : Bool := !r.enclosing.isEmpty

/-- The reader behind a byte, but for the offset, which is always one more. -/
inductive Advances (limits : Limits) (r : Reader) : UInt8 → Reader → Prop where
  | literal {b : UInt8} : r.mode = .plain → IsLiteral r.inGroup b →
    Advances limits r b (r.push (.literal b))
  | openGroup : r.mode = .plain → limits.Allows (r.enclosing.length + 1) →
    Advances limits r Mark.groupOpen.byte
      { r with scope := {}, enclosing := ⟨r.offset, r.scope⟩ :: r.enclosing }
  | closeGroup {g : OpenGroup} {gs : List OpenGroup} {children : List Piece} :
    r.mode = .plain → r.enclosing = g :: gs → r.scope.finish limits = .ok children →
    limits.Allows (Piece.group children).height →
    Advances limits r Mark.groupClose.byte
      { r with scope := g.around.push (.group children), enclosing := gs }
  | bar {pieces : List Piece} : r.mode = .plain → r.scope.finish limits = .ok pieces →
    Advances limits r Mark.bar.byte { r with scope := ⟨[], some ⟨pieces, r.offset⟩⟩ }
  | quantifier {m : Mark} {b : Bound} {p : Piece} {ps : List Piece} : r.mode = .plain →
    Repeats m b → r.scope.pieces = p :: ps → limits.Allows (p.repetition b).height →
    Advances limits r m.byte { r with scope := { r.scope with pieces := p.repetition b :: ps } }
  | beginClass : r.mode = .plain →
    Advances limits r Mark.classOpen.byte { r with mode := .inClass r.offset .start }
  | inClass {opened : Nat} {scan next : ClassScan} {b : UInt8} :
    r.mode = .inClass opened scan → scan.step opened r.offset b = .ok (.more next) →
    Advances limits r b { r with mode := .inClass opened next }
  | endClass {opened : Nat} {scan : ClassScan} {c : ByteClass} {b : UInt8} :
    r.mode = .inClass opened scan → scan.step opened r.offset b = .ok (.closed c) →
    Advances limits r b { r.push (.charSet c) with mode := .plain }
  | beginBound : r.mode = .plain →
    Advances limits r Mark.boundOpen.byte { r with mode := .inBound r.offset [] }
  | inBound {opened : Nat} {text : List UInt8} {b : UInt8} :
    r.mode = .inBound opened text → b ≠ Mark.boundClose →
    Advances limits r b { r with mode := .inBound opened (b :: text) }
  | endBound {opened : Nat} {text : List UInt8} {b : Bound} {p : Piece} {ps : List Piece} :
    r.mode = .inBound opened text → Bound.read limits opened text.reverse = .ok b →
    r.scope.pieces = p :: ps → limits.Allows (p.repetition b).height →
    Advances limits r Mark.boundClose
      { r with scope := { r.scope with pieces := p.repetition b :: ps }, mode := .plain }

variable {limits : Limits} {r r' r'' : Reader}

theorem quantify_eq_ok_iff {mark : Mark} {offset : Nat} {b : Bound} :
    r.quantify limits mark offset b = .ok r' ↔
      ∃ p ps, r.scope.pieces = p :: ps ∧ limits.Allows (p.repetition b).height ∧
        r' = { r with scope := { r.scope with pieces := p.repetition b :: ps } } := by
  simp only [quantify, CompileError.map_eq_ok_iff, Scope.quantify_eq_ok_iff]
  constructor
  · rintro ⟨_, ⟨p, ps, hp, ha, rfl⟩, rfl⟩
    exact ⟨p, ps, hp, ha, rfl⟩
  · rintro ⟨p, ps, hp, ha, rfl⟩
    exact ⟨_, ⟨p, ps, hp, ha, rfl⟩, rfl⟩

theorem advances_of_closeGroup (hp : r.mode = .plain) (h : r.closeGroup limits = .ok r') :
    Advances limits r Mark.groupClose.byte r' := by
  unfold closeGroup at h
  split at h
  · next he =>
    cases h
    exact .literal hp (by simpa [inGroup, he] using isLiteral_groupClose)
  · next g gs he =>
    obtain ⟨children, hc, h⟩ := CompileError.bind_eq_ok_iff.1 h
    obtain ⟨p, hallow, h⟩ := CompileError.bind_eq_ok_iff.1 h
    obtain ⟨rfl, ha⟩ := Limits.allow_eq_ok_iff.1 hallow
    cases h
    exact .closeGroup hp he hc ha

theorem advances_of_readMark (hp : r.mode = .plain) {m : Mark}
    (h : r.readMark limits m = .ok r') : Advances limits r m.byte r' := by
  have hquantify : ∀ b, Repeats m b → r.quantify limits m r.offset b = .ok r' →
      Advances limits r m.byte r' := by
    intro b hm hq
    obtain ⟨p, ps, hps, ha, rfl⟩ := quantify_eq_ok_iff.1 hq
    exact .quantifier hp hm hps ha
  cases m with
  | groupOpen =>
    simp only [readMark, openGroup] at h
    split at h
    · next ha => cases h; exact .openGroup hp ha
    · cases h
  | groupClose => exact advances_of_closeGroup hp h
  | bar =>
    obtain ⟨s, hs, rfl⟩ := CompileError.map_eq_ok_iff.1 h
    obtain ⟨pieces, hf, rfl⟩ := CompileError.map_eq_ok_iff.1 hs
    exact .bar hp hf
  | classOpen => cases h; exact .beginClass hp
  | boundOpen => cases h; exact .beginBound hp
  | star => exact hquantify _ .star h
  | plus => exact hquantify _ .plus h
  | question => exact hquantify _ .question h

theorem advances_of_readByte {b : UInt8} (h : r.readByte limits b = .ok r') :
    Advances limits r b r' := by
  unfold readByte at h
  split at h
  · next hp =>
    unfold readPlain at h
    split at h
    · next hb => cases h; exact .literal hp (isLiteral_of_ofByte? _ hb)
    · next m hb =>
      obtain rfl := Mark.ofByte?_eq_some_iff.1 hb
      exact advances_of_readMark hp h
  · next opened scan hm =>
    obtain ⟨progress, hs, rfl⟩ := CompileError.map_eq_ok_iff.1 h
    cases progress with
    | more next => exact .inClass hm hs
    | closed c => exact .endClass hm hs
  · next opened text hm =>
    unfold readInBound at h
    split at h
    · next hb =>
      subst hb
      obtain ⟨b, hb, h⟩ := CompileError.bind_eq_ok_iff.1 h
      obtain ⟨p, ps, hps, ha, rfl⟩ := quantify_eq_ok_iff.1 h
      exact .endBound hm hb hps ha
    · next hb => cases h; exact .inBound hm hb

theorem readByte_mark (hp : r.mode = .plain) (m : Mark) :
    r.readByte limits m.byte = r.readMark limits m := by
  simp only [readByte, hp, readPlain, Mark.ofByte?_byte]

theorem Advances.readByte {b : UInt8} (h : Advances limits r b r') :
    r.readByte limits b = .ok r' := by
  cases h with
  | literal hp hb =>
    rcases hb.ofByte? with hb | ⟨hg, rfl⟩
    · simp only [Reader.readByte, hp, readPlain, hb]
    · have he : r.enclosing = [] := by simpa [inGroup] using hg
      rw [readByte_mark hp, readMark, Reader.closeGroup, he]
  | openGroup hp ha => rw [readByte_mark hp, readMark, Reader.openGroup, if_pos ha]
  | @closeGroup g _ children hp he hc ha =>
    have hallow : limits.allow g.opened (.group children) = .ok (.group children) :=
      Limits.allow_eq_ok_iff.2 ⟨rfl, ha⟩
    simp only [readByte_mark hp, readMark, Reader.closeGroup, he, hc, bind, Except.bind, hallow]
  | bar hp hf =>
    simp only [readByte_mark hp, readMark, Scope.split, hf, Except.map]
  | quantifier hp hm hps ha =>
    rw [readByte_mark hp]
    cases hm <;> exact quantify_eq_ok_iff.2 ⟨_, _, hps, ha, rfl⟩
  | beginClass hp => rw [readByte_mark hp, readMark]
  | inClass hm hs => simp only [Reader.readByte, hm, readInClass, hs, Except.map]
  | endClass hm hs => simp only [Reader.readByte, hm, readInClass, hs, Except.map]
  | beginBound hp => rw [readByte_mark hp, readMark]
  | inBound hm hb => simp only [Reader.readByte, hm, readInBound, if_neg hb]
  | endBound hm hb hps ha =>
    simp only [Reader.readByte, hm, readInBound, if_pos, hb, bind, Except.bind]
    exact quantify_eq_ok_iff.2 ⟨_, _, hps, ha, rfl⟩

theorem step_eq_ok_iff {b : UInt8} :
    r.step limits b = .ok r' ↔
      ∃ s, Advances limits r b s ∧ r' = { s with offset := r.offset + 1 } := by
  simp only [step, CompileError.map_eq_ok_iff, eq_comm (b := r')]
  exact exists_congr fun s => and_congr_left fun _ => ⟨advances_of_readByte, Advances.readByte⟩

/-! ## Runs -/

def Runs (limits : Limits) (r : Reader) (text : List UInt8) (r' : Reader) : Prop :=
  text.foldlM (Reader.step limits) r = .ok r'

theorem Runs.nil (r : Reader) : Runs limits r [] r := rfl

theorem runs_nil_iff : Runs limits r [] r' ↔ r' = r := by
  simp [Runs, pure, Except.pure, eq_comm]

theorem runs_cons_iff {b : UInt8} {text : List UInt8} :
    Runs limits r (b :: text) r' ↔ ∃ s, Advances limits r b s ∧
      Runs limits { s with offset := r.offset + 1 } text r' := by
  simp only [Runs, List.foldlM_cons, CompileError.bind_eq_ok_iff, step_eq_ok_iff]
  constructor
  · rintro ⟨_, ⟨s, hs, rfl⟩, hr⟩
    exact ⟨s, hs, hr⟩
  · rintro ⟨s, hs, hr⟩
    exact ⟨_, ⟨s, hs, rfl⟩, hr⟩

theorem Runs.cons {b : UInt8} {text : List UInt8} (h : Advances limits r b r')
    (hr : Runs limits { r' with offset := r.offset + 1 } text r'') :
    Runs limits r (b :: text) r'' := runs_cons_iff.2 ⟨r', h, hr⟩

theorem Runs.single {b : UInt8} (h : Advances limits r b r') :
    Runs limits r [b] { r' with offset := r.offset + 1 } := Runs.cons h (Runs.nil _)

theorem Runs.append {front back : List UInt8} (h : Runs limits r front r')
    (h' : Runs limits r' back r'') : Runs limits r (front ++ back) r'' := by
  rw [Runs, List.foldlM_append, h]
  exact h'

/-- What every step keeps, given the text read before it, holds at the end of a run. -/
theorem Runs.invariant {P : List UInt8 → Reader → Prop}
    (hstep : ∀ text r b s, P text r → Advances limits r b s →
      P (text ++ [b]) { s with offset := r.offset + 1 })
    {text bytes : List UInt8} (hr : Runs limits r bytes r') (h : P text r) :
    P (text ++ bytes) r' := by
  induction bytes generalizing r text with
  | nil =>
    obtain rfl := runs_nil_iff.1 hr
    rwa [List.append_nil]
  | cons b bytes ih =>
    obtain ⟨s, hs, hr⟩ := runs_cons_iff.1 hr
    rw [List.append_cons]
    exact ih hr (hstep text r b s h hs)

theorem Runs.offset {bytes : List UInt8} (hr : Runs limits r bytes r') :
    r'.offset = r.offset + bytes.length := by
  have hstep : ∀ (text : List UInt8) (s : Reader) (b : UInt8) (s' : Reader),
      s.offset = r.offset + text.length → Advances limits s b s' →
      { s' with offset := s.offset + 1 }.offset = r.offset + (text ++ [b]).length := by
    intro text s b s' h _
    simp only [h, List.length_append, List.length_singleton, Nat.add_assoc]
  have hstart : r.offset = r.offset + ([] : List UInt8).length := rfl
  exact hr.invariant hstep hstart

/-! ## The rest of a pattern -/

def complete (limits : Limits) (text : List UInt8) (r : Reader) :
    Except CompileError (List Term) :=
  text.foldlM (step limits) r >>= finish limits

theorem complete_nil : r.complete limits [] = r.finish limits := rfl

theorem complete_cons (b : UInt8) (text : List UInt8) :
    r.complete limits (b :: text) = r.step limits b >>= complete limits text := by
  simp only [complete, List.foldlM_cons, bind_assoc]
  rfl

theorem Runs.complete {front : List UInt8} (h : Runs limits r front r') (back : List UInt8) :
    r.complete limits (front ++ back) = r'.complete limits back := by
  rw [Reader.complete, List.foldlM_append, h]
  rfl

/-- One step at the byte that the reader has reached in the pattern. -/
theorem Advances.complete {b : UInt8} (hs : Advances limits r b r') {pattern : List UInt8}
    (h : pattern[r.offset]? = some b) :
    r.complete limits (pattern.drop r.offset) =
      { r' with offset := r.offset + 1 }.complete limits (pattern.drop (r.offset + 1)) := by
  obtain ⟨hlt, hget⟩ := List.getElem?_eq_some_iff.1 h
  rw [List.drop_eq_getElem_cons hlt, hget, complete_cons, step_eq_ok_iff.2 ⟨r', hs, rfl⟩]
  rfl

end Reader

theorem parse_eq_complete (limits : Limits) (pattern : List UInt8) :
    parse limits pattern = Reader.complete limits pattern {} := rfl

theorem parse_eq_ok_iff_runs {limits : Limits} {pattern : List UInt8} {ts : List Term} :
    parse limits pattern = .ok ts ↔
      ∃ r, Reader.Runs limits {} pattern r ∧ r.finish limits = .ok ts :=
  CompileError.bind_eq_ok_iff

theorem Reader.finish_eq_ok_iff {limits : Limits} {r : Reader} {ts : List Term} :
    r.finish limits = .ok ts ↔ r.mode = .plain ∧ r.enclosing = [] ∧
      ∃ pieces, r.scope.finish limits = .ok pieces ∧ ts = Piece.terms pieces := by
  obtain ⟨offset, scope, enclosing, mode⟩ := r
  cases mode with
  | inClass opened scan => simp [finish]
  | inBound opened text => simp [finish]
  | plain =>
    cases enclosing with
    | nil => simp [finish, CompileError.bind_eq_ok_iff, eq_comm (b := ts)]
    | cons g gs => simp [finish, CompileError.bind_eq_ok_iff]

end ByteRegex
