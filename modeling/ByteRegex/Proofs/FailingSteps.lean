import ByteRegex.Proofs.BoundReading

/-!
# Failing steps

All ways in which one byte ends the reading of a pattern with an error. A pattern that is rejected
is rejected by such a step, behind a run of steps that advance, or where it ends. That something is
not closed shows only where it ends.
-/

namespace ByteRegex

open Grammar

def CompileError.IsUnterminated : CompileError → Prop
  | unterminatedGroup _ | unterminatedClass _ | unterminatedBound _ => True
  | _ => False

namespace Reader

/-- How a reader fails at a byte. An alternation is found to nest too deep at the next bar or at the
parenthesis behind its right branch. -/
inductive Fails (limits : Limits) (r : Reader) : UInt8 → CompileError → Prop where
  | openGroup : r.mode = .plain → ¬ limits.Allows (r.enclosing.length + 1) →
    Fails limits r Mark.groupOpen.byte (limits.tooDeep r.offset)
  | closeGroup {g : OpenGroup} {gs : List OpenGroup} {children : List Piece} : r.mode = .plain →
    r.enclosing = g :: gs → r.scope.finish limits = .ok children →
    ¬ limits.Allows (Piece.group children).height →
    Fails limits r Mark.groupClose.byte (limits.tooDeep g.opened)
  | alternation {m : Mark} {left : LeftBranch} : r.mode = .plain → m = .bar ∨ m = .groupClose →
    r.scope.left = some left →
    ¬ limits.Allows (Piece.alternation left.pieces r.scope.pieces).height →
    Fails limits r m.byte (limits.tooDeep left.bar)
  | dangling {m : Mark} {b : Bound} : r.mode = .plain → Repeats m b → r.scope.pieces = [] →
    Fails limits r m.byte (.danglingQuantifier m.char r.offset)
  | quantifier {m : Mark} {b : Bound} {p : Piece} {ps : List Piece} : r.mode = .plain →
    Repeats m b → r.scope.pieces = p :: ps → ¬ limits.Allows (p.repetition b).height →
    Fails limits r m.byte (limits.tooDeep r.offset)
  | emptyClass {opened : Nat} : r.mode = .inClass opened .start →
    Fails limits r Mark.classClose (.emptyClass opened)
  | range {opened begun : Nat} {members : ByteClass} {anchor : Option UInt8} {b : UInt8} :
    r.mode = .inClass opened (.hyphen begun members anchor) →
    (∀ first ∈ anchor, ¬ first ≤ b) → Fails limits r b (.invalidRange begun)
  | bound {opened : Nat} {text : List UInt8} {e : CompileError} : r.mode = .inBound opened text →
    Bound.read limits opened text.reverse = .error e → Fails limits r Mark.boundClose e
  | danglingBound {opened : Nat} {text : List UInt8} {b : Bound} : r.mode = .inBound opened text →
    Bound.read limits opened text.reverse = .ok b → r.scope.pieces = [] →
    Fails limits r Mark.boundClose (.danglingQuantifier Mark.boundOpen.char opened)
  | quantifierBound {opened : Nat} {text : List UInt8} {b : Bound} {p : Piece} {ps : List Piece} :
    r.mode = .inBound opened text → Bound.read limits opened text.reverse = .ok b →
    r.scope.pieces = p :: ps → ¬ limits.Allows (p.repetition b).height →
    Fails limits r Mark.boundClose (limits.tooDeep opened)

variable {limits : Limits} {r : Reader} {b : UInt8} {e : CompileError}

theorem fails_of_closeGroup (hp : r.mode = .plain) (h : r.closeGroup limits = .error e) :
    Fails limits r Mark.groupClose.byte e := by
  unfold closeGroup at h
  split at h
  · cases h
  · next g gs he =>
    rcases CompileError.bind_eq_error_iff.1 h with h | ⟨children, hc, h⟩
    · obtain ⟨left, hleft, rfl, hallow⟩ := Scope.finish_eq_error h
      exact .alternation hp (.inr rfl) hleft hallow
    · rcases CompileError.bind_eq_error_iff.1 h with h | ⟨p, -, h⟩
      · obtain ⟨rfl, hallow⟩ := Limits.allow_eq_error_iff.1 h
        exact .closeGroup hp he hc hallow
      · cases h

theorem fails_of_readMark (hp : r.mode = .plain) {m : Mark} (h : r.readMark limits m = .error e) :
    Fails limits r m.byte e := by
  have hquantify : ∀ b, Repeats m b → r.quantify limits m r.offset b = .error e →
      Fails limits r m.byte e := by
    intro b hm hq
    rcases Scope.quantify_eq_error (CompileError.map_eq_error_iff.1 hq) with
      ⟨hnil, rfl⟩ | ⟨p, ps, hps, rfl, hallow⟩
    · exact .dangling hp hm hnil
    · exact .quantifier hp hm hps hallow
  cases m with
  | groupOpen =>
    simp only [readMark, openGroup] at h
    split at h
    · cases h
    · next ha => cases h; exact .openGroup hp ha
  | groupClose => exact fails_of_closeGroup hp h
  | bar =>
    have hsplit := CompileError.map_eq_error_iff.1 h
    have hfinish := CompileError.map_eq_error_iff.1 hsplit
    obtain ⟨left, hleft, rfl, hallow⟩ := Scope.finish_eq_error hfinish
    exact .alternation hp (.inl rfl) hleft hallow
  | classOpen => cases h
  | boundOpen => cases h
  | star => exact hquantify _ .star h
  | plus => exact hquantify _ .plus h
  | question => exact hquantify _ .question h

theorem fails_of_class {opened : Nat} {scan : ClassScan} (hm : r.mode = .inClass opened scan)
    (h : scan.step opened r.offset b = .error e) : Fails limits r b e := by
  cases scan with
  | start =>
    simp only [ClassScan.step] at h
    split at h
    · next hb => cases h; subst hb; exact .emptyClass hm
    · cases h
  | member members anchor =>
    simp only [ClassScan.step] at h
    split at h
    · cases h
    · split at h <;> cases h
  | hyphen begun members anchor =>
    simp only [ClassScan.step] at h
    split at h
    · cases h
    · have hrange := CompileError.map_eq_error_iff.1 h
      cases anchor with
      | none => cases hrange; exact .range hm (by simp)
      | some first =>
        simp only [ClassScan.closeRange] at hrange
        split at hrange
        · cases hrange
        · next hle => cases hrange; exact .range hm (by simpa using hle)

theorem fails_of_readInBound {opened : Nat} {text : List UInt8} (hm : r.mode = .inBound opened text)
    (h : r.readInBound limits opened text b = .error e) : Fails limits r b e := by
  unfold readInBound at h
  split at h
  · next hb =>
    subst hb
    rcases CompileError.bind_eq_error_iff.1 h with h | ⟨bound, hbound, h⟩
    · exact .bound hm h
    · rcases Scope.quantify_eq_error (CompileError.map_eq_error_iff.1 h) with
        ⟨hnil, rfl⟩ | ⟨p, ps, hps, rfl, hallow⟩
      · exact .danglingBound hm hbound hnil
      · exact .quantifierBound hm hbound hps hallow
  · cases h

theorem fails_of_step (h : r.step limits b = .error e) : Fails limits r b e := by
  have hread := CompileError.map_eq_error_iff.1 h
  unfold readByte at hread
  split at hread
  · next hp =>
    unfold readPlain at hread
    split at hread
    · cases hread
    · next m hb =>
      obtain rfl := Mark.ofByte?_eq_some_iff.1 hb
      exact fails_of_readMark hp hread
  · next opened scan hm => exact fails_of_class hm (CompileError.map_eq_error_iff.1 hread)
  · next opened text hm => exact fails_of_readInBound hm hread

/-! ## Rejected patterns -/

/-- No byte shows that something is never closed. -/
theorem Fails.not_isUnterminated (h : Fails limits r b e) : ¬ e.IsUnterminated := by
  cases h with
  | bound hm hread => cases Bound.explains_of_read hread <;> exact id
  | _ => exact id

/-- The rest of a pattern is rejected at one of its bytes or where it ends. -/
theorem fails_or_finish_of_complete {text : List UInt8} (h : r.complete limits text = .error e) :
    (∃ front b back r', text = front ++ b :: back ∧ Runs limits r front r' ∧ Fails limits r' b e) ∨
      ∃ r', Runs limits r text r' ∧ r'.finish limits = .error e := by
  induction text generalizing r with
  | nil => exact .inr ⟨r, Runs.nil r, h⟩
  | cons b text ih =>
    rw [complete_cons] at h
    rcases CompileError.bind_eq_error_iff.1 h with h | ⟨s, hs, h⟩
    · exact .inl ⟨[], b, text, r, rfl, Runs.nil r, fails_of_step h⟩
    · obtain ⟨s, hadvances, rfl⟩ := step_eq_ok_iff.1 hs
      rcases ih h with ⟨front, c, back, r', rfl, hr, hf⟩ | ⟨r', hr, hf⟩
      · exact .inl ⟨b :: front, c, back, r', rfl, Runs.cons hadvances hr, hf⟩
      · exact .inr ⟨r', Runs.cons hadvances hr, hf⟩

end Reader

theorem parse_of_runs {limits : Limits} {pattern : List UInt8} {r : Reader}
    (hr : Reader.Runs limits {} pattern r) : parse limits pattern = r.finish limits := by
  rw [parse, hr]
  rfl

theorem fails_or_finish_of_parse {limits : Limits} {pattern : List UInt8} {e : CompileError}
    (h : parse limits pattern = .error e) :
    (∃ front b back r, pattern = front ++ b :: back ∧ Reader.Runs limits {} front r ∧
      r.Fails limits b e) ∨ ∃ r, Reader.Runs limits {} pattern r ∧ r.finish limits = .error e :=
  Reader.fails_or_finish_of_complete h

theorem finish_of_parse_of_isUnterminated {limits : Limits} {pattern : List UInt8}
    {e : CompileError} (h : parse limits pattern = .error e) (he : e.IsUnterminated) :
    ∃ r, Reader.Runs limits {} pattern r ∧ r.finish limits = .error e := by
  rcases fails_or_finish_of_parse h with ⟨_, _, _, _, -, -, hfails⟩ | hend
  · exact absurd he hfails.not_isUnterminated
  · exact hend

end ByteRegex
