import ByteRegex.Proofs.ReaderSteps

/-!
# Final errors

An error that is met while a pattern is read does not depend on what follows, so any longer pattern
is rejected for the same reason. The end of a pattern shows three things besides: what is still
open, a hyphen that can start no range, and an alternation that nests too deep. The offsets that
the reader keeps tell these apart from the errors that are met before.
-/

namespace ByteRegex

/-- Whether the error of a pattern stays when the pattern goes on. A hyphen at the end may yet turn
out to be the last byte of its class, and an alternation is checked when its right branch ends. -/
def CompileError.IsFinal (pattern : List UInt8) : CompileError → Prop
  | danglingQuantifier _ _ | emptyClass _ | missingMin _ | invalidBound _ | malformedBound _
  | repeatTooLarge _ _ => True
  | invalidRange offset => offset + 1 ≠ pattern.length
  | nestTooDeep offset _ => pattern[offset]? ≠ some Mark.bar.byte
  | unterminatedGroup _ | unterminatedClass _ | unterminatedBound _ | tooManyStates _ => False

/-! ## Offsets of bars and hyphens -/

def Scope.BarIn (text : List UInt8) (s : Scope) : Prop :=
  ∀ left ∈ s.left, text[left.bar]? = some Mark.bar.byte

theorem Scope.BarIn.append {text : List UInt8} {s : Scope} (h : s.BarIn text)
    (more : List UInt8) : s.BarIn (text ++ more) := by
  intro left hl
  have hbar := h left hl
  obtain ⟨hlt, -⟩ := List.getElem?_eq_some_iff.1 hbar
  rw [List.getElem?_append_left hlt]
  exact hbar

namespace Reader

structure Locates (text : List UInt8) (r : Reader) : Prop where
  offset_eq : r.offset = text.length
  scope_bar : r.scope.BarIn text
  around_bar : ∀ g ∈ r.enclosing, g.around.BarIn text
  hyphen : ∀ opened begun members anchor,
    r.mode = .inClass opened (.hyphen begun members anchor) → begun + 1 = text.length

variable {limits : Limits} {text : List UInt8} {r r' : Reader}

theorem locates_start : ({} : Reader).Locates [] where
  offset_eq := rfl
  scope_bar := nofun
  around_bar := nofun
  hyphen := nofun

/-- A hyphen is kept only until the next byte. -/
theorem hyphen_of_extends {offset begun : Nat} {b : UInt8} {scan : ClassScan}
    {members : ByteClass} {anchor : Option UInt8}
    (h : ClassScan.Extends offset b scan (.hyphen begun members anchor)) : begun = offset := by
  cases h
  rfl

theorem Locates.advances {b : UInt8} (h : r.Locates text) (hr : Advances limits r b r') :
    { r' with offset := r.offset + 1 }.Locates (text ++ [b]) := by
  have hoffset : r.offset + 1 = (text ++ [b]).length := by
    rw [h.offset_eq, List.length_append, List.length_singleton]
  have hscope := h.scope_bar.append [b]
  have haround : ∀ g ∈ r.enclosing, g.around.BarIn (text ++ [b]) :=
    fun g hg => (h.around_bar g hg).append [b]
  cases hr with
  | literal hp hb => exact ⟨hoffset, hscope, haround, by simp [push, hp]⟩
  | openGroup hp ha =>
    exact ⟨hoffset, nofun, List.forall_mem_cons.2 ⟨hscope, haround⟩, by simp [hp]⟩
  | closeGroup hp he hc ha =>
    rw [he] at haround
    obtain ⟨hg, hgs⟩ := List.forall_mem_cons.1 haround
    exact ⟨hoffset, hg, hgs, by simp [hp]⟩
  | bar hp hf =>
    refine ⟨hoffset, ?_, haround, by simp [hp]⟩
    rintro left ⟨⟩
    simp [h.offset_eq]
  | quantifier hp hm hps ha => exact ⟨hoffset, hscope, haround, by simp [hp]⟩
  | beginClass hp => exact ⟨hoffset, hscope, haround, nofun⟩
  | inClass hm hs =>
    refine ⟨hoffset, hscope, haround, ?_⟩
    rintro opened begun members anchor ⟨⟩
    rw [hyphen_of_extends (ClassScan.extends_of_step hs).2]
    exact hoffset
  | endClass hm hs => exact ⟨hoffset, hscope, haround, nofun⟩
  | beginBound hp => exact ⟨hoffset, hscope, haround, nofun⟩
  | inBound hm hb => exact ⟨hoffset, hscope, haround, nofun⟩
  | endBound hm hb hps ha => exact ⟨hoffset, hscope, haround, nofun⟩

theorem locates_of_runs (hr : Runs limits {} text r) : r.Locates text :=
  hr.invariant (fun _ _ _ _ h hs => h.advances hs) locates_start

end Reader

/-! ## The end of a pattern -/

theorem ClassScan.endError_cases (opened : Nat) (scan : ClassScan) :
    scan.endError opened = .unterminatedClass opened ∨
      ∃ begun members, scan = .hyphen begun members none ∧
        scan.endError opened = .invalidRange begun := by
  cases scan with
  | start => exact .inl rfl
  | member members anchor => exact .inl rfl
  | hyphen begun members anchor =>
    cases anchor with
    | none => exact .inr ⟨begun, members, rfl, rfl⟩
    | some first => exact .inl rfl

namespace Reader

variable {limits : Limits} {text : List UInt8} {r : Reader} {e : CompileError}

/-- What only the end of a pattern shows. -/
theorem finish_eq_error (h : r.finish limits = .error e) :
    (∃ opened scan, r.mode = .inClass opened scan ∧ e = scan.endError opened) ∨
      (∃ opened body, r.mode = .inBound opened body ∧ e = .unterminatedBound opened) ∨
      (∃ left ∈ r.scope.left, e = limits.tooDeep left.bar) ∨
      ∃ g ∈ r.enclosing, e = .unterminatedGroup g.opened := by
  obtain ⟨offset, scope, enclosing, mode⟩ := r
  cases mode with
  | inClass opened scan =>
    cases h
    exact .inl ⟨opened, scan, rfl, rfl⟩
  | inBound opened body =>
    cases h
    exact .inr (.inl ⟨opened, body, rfl, rfl⟩)
  | plain =>
    rcases CompileError.bind_eq_error_iff.1 h with h | ⟨pieces, -, h⟩
    · obtain ⟨left, hleft, he, -⟩ := Scope.finish_eq_error h
      exact .inr (.inr (.inl ⟨left, hleft, he⟩))
    · cases enclosing with
      | nil => cases h
      | cons g gs =>
        cases h
        exact .inr (.inr (.inr ⟨g, List.mem_cons_self, rfl⟩))

theorem Locates.not_isFinal_of_finish (h : r.Locates text) (hf : r.finish limits = .error e) :
    ¬ e.IsFinal text := by
  intro hfinal
  rcases finish_eq_error hf with ⟨opened, scan, hm, rfl⟩ | ⟨opened, body, -, rfl⟩ |
    ⟨left, hleft, rfl⟩ | ⟨g, -, rfl⟩
  · rcases scan.endError_cases opened with he | ⟨begun, members, rfl, he⟩
    · rw [he] at hfinal
      exact hfinal
    · rw [he] at hfinal
      exact hfinal (h.hyphen opened begun members none hm)
  · exact hfinal
  · exact hfinal (h.scope_bar left hleft)
  · exact hfinal

end Reader

/-! ## Longer patterns -/

/-- A pattern that starts with a rejected one is rejected for the same reason, if this is final. -/
theorem parse_append_of_isFinal {limits : Limits} {pattern : List UInt8} {e : CompileError}
    (h : parse limits pattern = .error e) (hfinal : e.IsFinal pattern) (more : List UInt8) :
    parse limits (pattern ++ more) = .error e := by
  cases hr : pattern.foldlM (Reader.step limits) {} with
  | ok r =>
    rw [parse, hr] at h
    exact absurd hfinal ((Reader.locates_of_runs hr).not_isFinal_of_finish h)
  | error e' =>
    rw [parse, hr] at h
    cases h
    rw [parse, List.foldlM_append, hr]
    rfl

/-- The pattern is `[b-a`, and `]` closes the class too late. -/
theorem parse_append_of_inverted_range :
    parse {} [91, 98, 45, 97] = .error (.invalidRange 2) ∧
      (CompileError.invalidRange 2).IsFinal [91, 98, 45, 97] ∧
      parse {} ([91, 98, 45, 97] ++ [93]) = .error (.invalidRange 2) := by
  have hparse : parse {} [91, 98, 45, 97] = .error (.invalidRange 2) := rfl
  have hfinal : (CompileError.invalidRange 2).IsFinal [91, 98, 45, 97] := by
    change 2 + 1 ≠ 4
    decide
  exact ⟨hparse, hfinal, parse_append_of_isFinal hparse hfinal [93]⟩

end ByteRegex
