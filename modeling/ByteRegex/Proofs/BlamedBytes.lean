import ByteRegex.Proofs.FailingSteps
import ByteRegex.Proofs.FinalErrors

/-!
# Blamed bytes

Every error of a pattern names the offset of one byte, and this is a byte that can be to blame: the
mark that opens what is not closed or not well formed, the hyphen of a range, or the mark that nests
too deep. The offsets that a reader keeps are those of such bytes, each met in the role that it is
blamed for, and a reader without a term to repeat stands at the beginning of a scope.
-/

namespace ByteRegex

open Grammar

def Meets (limits : Limits) (pattern : List UInt8) (offset : Nat) (b : UInt8) (r : Reader) : Prop :=
  pattern[offset]? = some b ∧ Reader.Runs limits {} (pattern.take offset) r

def HasMark (limits : Limits) (pattern : List UInt8) (offset : Nat) (m : Mark) : Prop :=
  ∃ r, Meets limits pattern offset m.byte r ∧ r.mode = .plain

def HasHyphen (limits : Limits) (pattern : List UInt8) (offset : Nat) : Prop :=
  ∃ r opened scan, Meets limits pattern offset Mark.hyphen r ∧ r.mode = .inClass opened scan ∧
    HasMark limits pattern opened .classOpen

/-- Nothing stands before the offset, or a mark that opens a scope stands right before it. -/
def BeginsScope (limits : Limits) (pattern : List UInt8) (offset : Nat) : Prop :=
  offset = 0 ∨ ∃ before m, offset = before + 1 ∧ HasMark limits pattern before m ∧
    (m = .groupOpen ∨ m = .bar)

def Mark.IsQuantifier : Mark → Prop
  | star | plus | question | boundOpen => True
  | _ => False

def CompileError.Blames (limits : Limits) (pattern : List UInt8) : CompileError → Prop
  | unterminatedGroup offset => HasMark limits pattern offset .groupOpen
  | unterminatedClass offset => HasMark limits pattern offset .classOpen
  | emptyClass offset => HasMark limits pattern offset .classOpen ∧
    pattern[offset + 1]? = some Mark.classClose
  | invalidRange offset => HasHyphen limits pattern offset
  | unterminatedBound offset | missingMin offset | invalidBound offset | malformedBound offset =>
    HasMark limits pattern offset .boundOpen
  | repeatTooLarge offset limit => HasMark limits pattern offset .boundOpen ∧
    limit = limits.maxRepeat.toNat
  | danglingQuantifier quantifier offset => BeginsScope limits pattern offset ∧
    ∃ m : Mark, m.IsQuantifier ∧ quantifier = m.char ∧ HasMark limits pattern offset m
  | nestTooDeep offset limit => limit = limits.nestLimit.toNat ∧
    ∃ m : Mark, (m = .groupOpen ∨ m = .bar ∨ m.IsQuantifier) ∧ HasMark limits pattern offset m
  | tooManyStates _ => False

section

variable {limits : Limits} {text : List UInt8} {offset : Nat} {b : UInt8} {m : Mark} {r : Reader}

theorem Meets.append (h : Meets limits text offset b r) (more : List UInt8) :
    Meets limits (text ++ more) offset b r := by
  obtain ⟨hlt, -⟩ := List.getElem?_eq_some_iff.1 h.1
  rw [Meets, List.getElem?_append_left hlt, List.take_append_of_le_length (Nat.le_of_lt hlt)]
  exact h

theorem meets_next (hr : Reader.Runs limits {} text r) (b : UInt8) (more : List UInt8) :
    Meets limits (text ++ b :: more) r.offset b r := by
  have hoffset : r.offset = text.length := hr.offset.trans (Nat.zero_add _)
  rw [Meets, hoffset]
  exact ⟨by simp, by simpa using hr⟩

theorem HasMark.append (h : HasMark limits text offset m) (more : List UInt8) :
    HasMark limits (text ++ more) offset m := by
  obtain ⟨r, hmeets, hp⟩ := h
  exact ⟨r, hmeets.append more, hp⟩

theorem HasHyphen.append (h : HasHyphen limits text offset) (more : List UInt8) :
    HasHyphen limits (text ++ more) offset := by
  obtain ⟨r, opened, scan, hmeets, hm, hopen⟩ := h
  exact ⟨r, opened, scan, hmeets.append more, hm, hopen.append more⟩

theorem BeginsScope.append (h : BeginsScope limits text offset) (more : List UInt8) :
    BeginsScope limits (text ++ more) offset := by
  rcases h with hzero | ⟨before, m, hoffset, hmark, hm⟩
  · exact .inl hzero
  · exact .inr ⟨before, m, hoffset, hmark.append more, hm⟩

end

/-! ## Offsets that a reader keeps -/

def Scope.EndsAtBar (limits : Limits) (text : List UInt8) (s : Scope) : Prop :=
  ∀ left ∈ s.left, HasMark limits text left.bar .bar

/-- An opening bracket or brace, and a hyphen that may be about to form a range. A class that has
only just begun ends the text. -/
def Mode.PointsInto (limits : Limits) (text : List UInt8) : Mode → Prop
  | .plain => True
  | .inClass opened scan => HasMark limits text opened .classOpen ∧
    match scan with
    | .start => text.length = opened + 1
    | .member _ _ => True
    | .hyphen begun _ _ => HasHyphen limits text begun
  | .inBound opened _ => HasMark limits text opened .boundOpen

theorem Scope.EndsAtBar.append {limits : Limits} {text : List UInt8} {s : Scope}
    (h : s.EndsAtBar limits text) (more : List UInt8) : s.EndsAtBar limits (text ++ more) :=
  fun left hleft => (h left hleft).append more

namespace Reader

def itemStart (r : Reader) : Nat :=
  match r.mode with
  | .plain => r.offset
  | .inClass opened _ | .inBound opened _ => opened

structure PointsInto (limits : Limits) (text : List UInt8) (r : Reader) : Prop where
  runs : Runs limits {} text r
  scope : r.scope.EndsAtBar limits text
  enclosing : ∀ g ∈ r.enclosing, HasMark limits text g.opened .groupOpen ∧
    g.around.EndsAtBar limits text
  mode : r.mode.PointsInto limits text
  begins : r.scope.pieces = [] → BeginsScope limits text r.itemStart

variable {limits : Limits} {text : List UInt8} {r r' : Reader} {b : UInt8} {e : CompileError}

theorem pointsInto_start (limits : Limits) : ({} : Reader).PointsInto limits [] where
  runs := Runs.nil _
  scope := nofun
  enclosing := nofun
  mode := trivial
  begins := fun _ => .inl rfl

theorem PointsInto.advances (h : r.PointsInto limits text) (hr : Advances limits r b r') :
    { r' with offset := r.offset + 1 }.PointsInto limits (text ++ [b]) := by
  have hruns := h.runs.append (Runs.single hr)
  have hnext := meets_next h.runs b []
  have hscope := h.scope.append [b]
  have henclosing : ∀ g ∈ r.enclosing, HasMark limits (text ++ [b]) g.opened .groupOpen ∧
      g.around.EndsAtBar limits (text ++ [b]) :=
    fun g hg => ⟨(h.enclosing g hg).1.append [b], (h.enclosing g hg).2.append [b]⟩
  have hmode := h.mode
  have hbegins : r.scope.pieces = [] → BeginsScope limits (text ++ [b]) r.itemStart :=
    fun hnil => (h.begins hnil).append [b]
  have hoffset : r.offset = text.length := h.runs.offset.trans (Nat.zero_add _)
  have hnonempty : ∀ (p : Piece) (ps : List Piece) {P : Prop}, p :: ps = [] → P :=
    fun p ps _ => (List.cons_ne_nil p ps).elim
  cases hr with
  | literal hp hb =>
    exact ⟨hruns, hscope, henclosing, by simp [push, hp, Mode.PointsInto], hnonempty _ _⟩
  | openGroup hp ha =>
    have hmark : HasMark limits (text ++ [Mark.groupOpen.byte]) r.offset .groupOpen :=
      ⟨r, hnext, hp⟩
    refine ⟨hruns, ?_, List.forall_mem_cons.2 ⟨⟨hmark, hscope⟩, henclosing⟩, ?_, fun _ => ?_⟩
    · simp [Scope.EndsAtBar]
    · simp [hp, Mode.PointsInto]
    · simp only [itemStart, hp]
      exact .inr ⟨r.offset, .groupOpen, rfl, hmark, .inl rfl⟩
  | closeGroup hp he hc ha =>
    rw [he] at henclosing
    obtain ⟨hg, hgs⟩ := List.forall_mem_cons.1 henclosing
    exact ⟨hruns, hg.2, hgs, by simp [hp, Mode.PointsInto], hnonempty _ _⟩
  | bar hp hf =>
    have hmark : HasMark limits (text ++ [Mark.bar.byte]) r.offset .bar := ⟨r, hnext, hp⟩
    refine ⟨hruns, ?_, henclosing, by simp [hp, Mode.PointsInto], fun _ => ?_⟩
    · rintro left ⟨⟩
      exact hmark
    · simp only [itemStart, hp]
      exact .inr ⟨r.offset, .bar, rfl, hmark, .inr rfl⟩
  | quantifier hp hm hps ha =>
    exact ⟨hruns, hscope, henclosing, by simp [hp, Mode.PointsInto], hnonempty _ _⟩
  | beginClass hp =>
    have hmark : HasMark limits (text ++ [Mark.classOpen.byte]) r.offset .classOpen :=
      ⟨r, hnext, hp⟩
    refine ⟨hruns, hscope, henclosing, ⟨hmark, by simp [hoffset]⟩, fun hnil => ?_⟩
    simpa only [itemStart, hp] using hbegins hnil
  | inClass hm hs =>
    rw [hm] at hmode
    have hopen := hmode.1.append [b]
    refine ⟨hruns, hscope, henclosing, ⟨hopen, ?_⟩, fun hnil => ?_⟩
    · cases (ClassScan.extends_of_step hs).2 with
      | hyphen hh =>
        subst hh
        exact ⟨r, _, _, hnext, hm, hopen⟩
      | _ => trivial
    · simpa only [itemStart, hm] using hbegins hnil
  | endClass hm hs => exact ⟨hruns, hscope, henclosing, trivial, hnonempty _ _⟩
  | beginBound hp =>
    have hmark : HasMark limits (text ++ [Mark.boundOpen.byte]) r.offset .boundOpen :=
      ⟨r, hnext, hp⟩
    refine ⟨hruns, hscope, henclosing, hmark, fun hnil => ?_⟩
    simpa only [itemStart, hp] using hbegins hnil
  | inBound hm hb =>
    rw [hm] at hmode
    refine ⟨hruns, hscope, henclosing, HasMark.append hmode [b], fun hnil => ?_⟩
    simpa only [itemStart, hm] using hbegins hnil
  | endBound hm hb hps ha => exact ⟨hruns, hscope, henclosing, trivial, hnonempty _ _⟩

theorem pointsInto_of_runs (hr : Runs limits {} text r) : r.PointsInto limits text :=
  hr.invariant (fun _ _ _ _ h hs => h.advances hs) (pointsInto_start limits)

/-! ## Errors -/

theorem isQuantifier_of_repeats {m : Mark} {bound : Bound} (h : Repeats m bound) :
    m.IsQuantifier := by
  cases h <;> trivial

theorem blames_of_explains {offset : Nat} {body : List UInt8}
    (hmark : HasMark limits text offset .boundOpen)
    (h : Bound.Explains limits.maxRepeat.toNat offset body e) : e.Blames limits text := by
  cases h with
  | missingMin _ => exact hmark
  | malformed _ => exact hmark
  | invalid _ _ _ => exact hmark
  | tooLarge _ _ _ => exact ⟨hmark, rfl⟩

theorem PointsInto.blames_of_fails (h : r.PointsInto limits text) (hf : Fails limits r b e)
    (more : List UInt8) : e.Blames limits (text ++ b :: more) := by
  have hnext := meets_next h.runs b more
  have hmode := h.mode
  cases hf with
  | openGroup hp ha => exact ⟨rfl, .groupOpen, .inl rfl, r, hnext, hp⟩
  | @closeGroup g gs _ hp he hc ha =>
    have hg : g ∈ r.enclosing := he ▸ List.mem_cons_self
    exact ⟨rfl, .groupOpen, .inl rfl, (h.enclosing g hg).1.append _⟩
  | @alternation _ left hp hm hl ha =>
    exact ⟨rfl, .bar, .inr (.inl rfl), (h.scope left hl).append _⟩
  | dangling hp hm hnil =>
    have hbegins := h.begins hnil
    simp only [itemStart, hp] at hbegins
    exact ⟨hbegins.append _, _, isQuantifier_of_repeats hm, rfl, r, hnext, hp⟩
  | quantifier hp hm hps ha =>
    exact ⟨rfl, _, .inr (.inr (isQuantifier_of_repeats hm)), r, hnext, hp⟩
  | emptyClass hm =>
    rw [hm] at hmode
    obtain ⟨hopen, hlength⟩ := hmode
    refine ⟨hopen.append _, ?_⟩
    rw [← hlength]
    simp
  | range hm hanchor =>
    rw [hm] at hmode
    exact HasHyphen.append hmode.2 _
  | bound hm hread =>
    rw [hm] at hmode
    exact blames_of_explains (HasMark.append hmode _) (Bound.explains_of_read hread)
  | danglingBound hm hread hnil =>
    have hbegins := h.begins hnil
    simp only [itemStart, hm] at hbegins
    rw [hm] at hmode
    exact ⟨hbegins.append _, .boundOpen, trivial, rfl, HasMark.append hmode _⟩
  | quantifierBound hm hread hps ha =>
    rw [hm] at hmode
    exact ⟨rfl, .boundOpen, .inr (.inr trivial), HasMark.append hmode _⟩

theorem PointsInto.blames_of_finish (h : r.PointsInto limits text)
    (hf : r.finish limits = .error e) : e.Blames limits text := by
  have hmode := h.mode
  rcases finish_eq_error hf with ⟨opened, scan, hm, rfl⟩ | ⟨opened, body, hm, rfl⟩ |
    ⟨left, hleft, rfl⟩ | ⟨g, hg, rfl⟩
  · rw [hm] at hmode
    rcases scan.endError_cases opened with he | ⟨begun, members, rfl, he⟩
    · rw [he]
      exact hmode.1
    · rw [he]
      exact hmode.2
  · rw [hm] at hmode
    exact hmode
  · exact ⟨rfl, .bar, .inr (.inl rfl), h.scope left hleft⟩
  · exact (h.enclosing g hg).1

end Reader

/-- The error of a rejected pattern names the offset of a byte that is to blame. -/
theorem parse_error_blames {limits : Limits} {pattern : List UInt8} {e : CompileError}
    (h : parse limits pattern = .error e) : e.Blames limits pattern := by
  rcases fails_or_finish_of_parse h with ⟨front, b, back, r, rfl, hr, hf⟩ | ⟨r, hr, hf⟩
  · exact (Reader.pointsInto_of_runs hr).blames_of_fails hf back
  · exact (Reader.pointsInto_of_runs hr).blames_of_finish hf

/-- The patterns are `(b|{2}c`, where the bar opens a scope, and `x[a-c-`, which ends behind
the hyphen that is to blame. -/
theorem parse_error_blames_of_brace :
    parse {} [40, 98, 124, 123, 50, 125, 99] = .error (.danglingQuantifier '\x7b' 3) ∧
      (CompileError.danglingQuantifier '\x7b' 3).Blames {} [40, 98, 124, 123, 50, 125, 99] ∧
      parse {} [120, 91, 97, 45, 99, 45] = .error (.invalidRange 5) ∧
      HasHyphen {} [120, 91, 97, 45, 99, 45] 5 := by
  have hdangling : parse {} [40, 98, 124, 123, 50, 125, 99] =
      .error (.danglingQuantifier '\x7b' 3) := rfl
  have hrange : parse {} [120, 91, 97, 45, 99, 45] = .error (.invalidRange 5) := rfl
  exact ⟨hdangling, parse_error_blames hdangling, hrange, parse_error_blames hrange⟩

end ByteRegex
