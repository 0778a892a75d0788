import ByteRegex.Proofs.GrammarSoundness

/-!
# Reading what the grammar derives

A reader follows every derivation whose terms nest no deeper than the limit allows on top of the
groups that are open already. With the converse this says exactly which patterns are read, and as
which terms.
-/

namespace ByteRegex

open Grammar

namespace Piece

theorem eq_of_term_eq {p q : Piece} (h : p.term = q.term) : p = q := by
  obtain ⟨t, n, hn⟩ := p
  obtain ⟨u, m, hm⟩ := q
  cases h
  cases hn.trans hm.symm
  rfl

def ofTerm (t : Term) : Piece := ⟨t, t.height, rfl⟩

theorem eq_ofTerm {p : Piece} {t : Term} (h : p.term = t) : p = ofTerm t := eq_of_term_eq h

def stack (ts : List Term) : List Piece := (ts.map ofTerm).reverse

theorem stack_append (ts us : List Term) : stack (ts ++ us) = stack us ++ stack ts := by
  simp [stack]

@[simp] theorem terms_stack (ts : List Term) : terms (stack ts) = ts := by
  simp [terms, stack, Function.comp_def, ofTerm]

end Piece

namespace Limits

variable {limits : Limits}

theorem Allows.mono {n m : Nat} (h : limits.Allows n) (hle : m ≤ n) : limits.Allows m := by
  unfold Allows at h ⊢
  omega

end Limits

namespace Scope

variable {limits : Limits}

def pushAll (ts : List Term) (s : Scope) : Scope :=
  { s with pieces := Piece.stack ts ++ s.pieces }

theorem pushAll_append (ts us : List Term) (s : Scope) :
    s.pushAll (ts ++ us) = (s.pushAll ts).pushAll us := by
  simp [pushAll, Piece.stack_append]

theorem finish_alternation {l r : List Term} {bar : Nat}
    (h : limits.Allows (Term.heightAll [.alternation l r])) :
    Scope.finish limits ⟨Piece.stack r, some ⟨Piece.stack l, bar⟩⟩ =
      .ok (Piece.stack [.alternation l r]) := by
  have hp : Piece.alternation (Piece.stack l) (Piece.stack r) =
      Piece.ofTerm (.alternation l r) := Piece.eq_ofTerm (by simp [Piece.alternation])
  refine finish_eq_ok_iff.2 (.inr ⟨_, rfl, ?_, ?_⟩)
  · rw [hp]
    rfl
  · rw [hp]
    exact h.mono (Nat.le_max_left _ _)

end Scope

/-! ## Runs -/

namespace Reader

def advance (n : Nat) (s : Scope) (r : Reader) : Reader :=
  { r with offset := r.offset + n, scope := s }

variable {limits : Limits} {r : Reader}

theorem advance_advance (n m : Nat) (s s' : Scope) (r : Reader) :
    (r.advance n s).advance m s' = r.advance (n + m) s' := by
  simp [advance, Nat.add_assoc]

theorem runs_literal {b : UInt8} (hp : r.mode = .plain) (h : IsLiteral r.inGroup b) :
    Runs limits r [b] (r.advance 1 (r.scope.pushAll [.literal b])) :=
  Runs.single (.literal hp h)

/-- The scan may carry a hyphen from an offset of its own. -/
theorem runs_inClass {scan : ClassScan} {text : List UInt8} {c : ByteClass}
    (h : ClassScan.Closes scan text c) (r : Reader) (opened p : Nat)
    (hm : r.mode = .inClass opened (scan.relocate p)) :
    Runs limits r text
      { r.advance text.length (r.scope.pushAll [.charSet c]) with mode := .plain } := by
  induction h generalizing r p with
  | @last _ _ c _ _ hs =>
    obtain ⟨rfl, hends⟩ := ClassScan.ends_of_step hs
    exact Runs.single (.endClass hm ((hends.relocate p).step opened r.offset))
  | @more _ next b text _ _ _ hs _ ih =>
    obtain ⟨hb, hextends⟩ := ClassScan.extends_of_step hs
    have hstep := (hextends.relocate p r.offset).step hb opened
    have hrun := Runs.cons (.inClass hm hstep) (ih _ r.offset rfl)
    simpa only [advance, List.length_cons, Nat.add_assoc, Nat.add_comm 1] using hrun

theorem runs_charSet {text : List UInt8} {c : ByteClass} (hp : r.mode = .plain)
    (h : ClassScan.Closes .start text c) :
    Runs limits r (Mark.classOpen.byte :: text)
      (r.advance (text.length + 1) (r.scope.pushAll [.charSet c])) := by
  have hrun : Runs limits r _ _ := Runs.cons (.beginClass hp) (runs_inClass h _ r.offset 0 rfl)
  simpa only [advance, hp, Nat.add_assoc, Nat.add_comm 1] using hrun

theorem runs_inBound {text : List UInt8} (h : Mark.boundClose ∉ text) (r : Reader)
    (opened : Nat) (body : List UInt8) (hm : r.mode = .inBound opened body) :
    Runs limits r text { r.advance text.length r.scope with
                         mode := .inBound opened (text.reverse ++ body) } := by
  induction text generalizing r body with
  | nil =>
    rw [List.reverse_nil, List.nil_append, ← hm]
    exact Runs.nil r
  | cons b text ih =>
    rw [List.mem_cons, not_or] at h
    have hrun := Runs.cons (.inBound hm (Ne.symm h.1)) (ih h.2 _ (b :: body) rfl)
    simpa [advance, Nat.add_assoc, Nat.add_comm 1] using hrun

theorem runs_quantifier {quantifier : List UInt8} {b : Bound} {s : Scope} {t : Term}
    (hp : r.mode = .plain) (hs : r.scope = s.pushAll [t])
    (h : Quantifies limits.maxRepeat.toNat quantifier b) (ha : limits.Allows (t.height + 1)) :
    Runs limits r quantifier
      (r.advance quantifier.length (s.pushAll [.repetition t b.min b.max])) := by
  have hpieces : r.scope.pieces = Piece.ofTerm t :: s.pieces := by rw [hs]; rfl
  have hscope : { r.scope with pieces := (Piece.ofTerm t).repetition b :: s.pieces } =
      s.pushAll [.repetition t b.min b.max] := by rw [hs]; rfl
  cases h with
  | mark hr =>
    rw [← hscope]
    exact Runs.single (.quantifier hp hr hpieces ha)
  | @bound text _ hw ho hl =>
    have hread : Bound.read limits r.offset text.reverse.reverse = .ok b := by
      rw [List.reverse_reverse]
      exact Bound.read_of_isWritten r.offset hw ho hl
    have hbody : Runs limits _ _ _ := runs_inBound hw.boundClose_notMem
      { r with offset := r.offset + 1, mode := .inBound r.offset [] } r.offset [] rfl
    rw [List.append_nil] at hbody
    let r₁ : Reader :=
      { r with offset := r.offset + 1 + text.length, mode := .inBound r.offset text.reverse }
    have hclose := Runs.single (.endBound (r := r₁) rfl hread hpieces ha)
    have hrun := Runs.cons (.beginBound hp) (hbody.append hclose)
    rw [← hscope]
    simpa [advance, hp, r₁, Nat.add_assoc, Nat.add_comm 1] using hrun

/-! ## Groups and alternations -/

def enter (r : Reader) : Reader :=
  { r.advance 1 {} with enclosing := ⟨r.offset, r.scope⟩ :: r.enclosing }

theorem runs_group {text : List UInt8} {ts : List Term} {s : Scope} (hp : r.mode = .plain)
    (ha : limits.Allows (r.enclosing.length + (Term.heightAll ts + 1)))
    (hrun : Runs limits r.enter text (r.enter.advance text.length s))
    (hs : s.finish limits = .ok (Piece.stack ts)) :
    Runs limits r (Mark.groupOpen.byte :: (text ++ [Mark.groupClose.byte]))
      (r.advance (text.length + 2) (r.scope.pushAll [.group ts])) := by
  have hpiece : Piece.group (Piece.stack ts) = Piece.ofTerm (.group ts) :=
    Piece.eq_ofTerm (by simp [Piece.group])
  have hheight : limits.Allows (Piece.group (Piece.stack ts)).height := by
    rw [hpiece]
    exact ha.mono (Nat.le_add_left _ _)
  have hpush : r.scope.push (Piece.group (Piece.stack ts)) = r.scope.pushAll [.group ts] := by
    rw [hpiece]
    rfl
  have hclose := Runs.single (.closeGroup (r := r.enter.advance text.length s) hp rfl hs hheight)
  have hall := Runs.cons (.openGroup hp (ha.mono (by omega))) (hrun.append hclose)
  have hoffset : r.offset + (text.length + 2) = r.offset + 1 + text.length + 1 := by omega
  simpa only [advance, enter, hpush, hoffset] using hall

theorem runs_bar {l : List Term} (hp : r.mode = .plain)
    (hs : r.scope.finish limits = .ok (Piece.stack l)) :
    Runs limits r [Mark.bar.byte] (r.advance 1 ⟨[], some ⟨Piece.stack l, r.offset⟩⟩) :=
  Runs.single (.bar hp hs)

/-! ## Derivations -/

/-- What the reader does with the text of a phrase. A scope starts out empty and is complete when
its group or the pattern ends, other phrases add to the scope that they stand in. -/
def Follows (limits : Limits) (r : Reader) (text : List UInt8) (ts : List Term) : Phrase → Prop
  | .scope => r.scope = {} → ∃ s, Runs limits r text (r.advance text.length s) ∧
      s.finish limits = .ok (Piece.stack ts)
  | _ => Runs limits r text (r.advance text.length (r.scope.pushAll ts))

/-- The height of what is still to be read counts from the groups that are open already, so the
check on entering a group never fails before the check on leaving it. -/
theorem follows_of_derives {phrase : Phrase} {inGroup : Bool} {text : List UInt8}
    {ts : List Term} (h : Derives limits.maxRepeat.toNat phrase inGroup text ts) (r : Reader)
    (hp : r.mode = .plain) (hg : r.inGroup = inGroup)
    (ha : limits.Allows (r.enclosing.length + Term.heightAll ts)) :
    r.Follows limits text ts phrase := by
  induction h generalizing r with
  | literal hb => exact runs_literal hp (hg ▸ hb)
  | charSet hc => exact runs_charSet hp hc
  | @group _ text ts _ ih =>
    have hheight : Term.heightAll [.group ts] = Term.heightAll ts + 1 := by simp
    rw [hheight] at ha
    obtain ⟨s, hrun, hs⟩ := ih r.enter hp rfl
      (ha.mono (by simp only [enter, List.length_cons]; omega)) rfl
    simpa [Follows] using runs_group hp ha hrun hs
  | bare _ ih => exact ih r hp hg ha
  | @quantified _ text quantifier t b _ hq ih =>
    have hheight : Term.heightAll [.repetition t b.min b.max] = t.height + 1 := by simp
    rw [hheight] at ha
    have hitem := ih r hp hg (ha.mono (by simp))
    have hrun := hitem.append (runs_quantifier (r := r.advance text.length _) hp rfl hq
      (ha.mono (by omega)))
    rw [advance_advance] at hrun
    simpa [Follows] using hrun
  | empty => exact Runs.nil r
  | @append _ text item ts t _ _ ihs ihi =>
    rw [Term.heightAll_append] at ha
    have hfront := ihs r hp hg (ha.mono (by omega))
    have hback := ihi (r.advance text.length (r.scope.pushAll ts)) hp hg
      (ha.mono (by simp only [advance]; omega))
    have hrun := hfront.append hback
    rw [advance_advance] at hrun
    simpa [Follows, advance, Scope.pushAll_append] using hrun
  | @single _ text ts _ ih =>
    intro hs
    refine ⟨_, ih r hp hg ha, ?_⟩
    simp [hs, Scope.finish, Scope.pushAll]
  | @alternation _ left right l r' _ _ ihl ihr =>
    intro hs
    have hheight : Term.heightAll [.alternation l r'] =
        max (Term.heightAll l) (Term.heightAll r') + 1 := by simp
    obtain ⟨s, hleft, hf⟩ := ihl r hp hg (ha.mono (by omega)) hs
    let split : Scope := ⟨[], some ⟨Piece.stack l, r.offset + left.length⟩⟩
    have hbar := runs_bar (r := r.advance left.length s) hp hf
    have hright := ihr ((r.advance left.length s).advance 1 split) hp hg
      (ha.mono (by simp only [advance]; omega))
    have hrun := hleft.append (hbar.append hright)
    simp only [advance_advance] at hrun
    have hlength : (left ++ Mark.bar.byte :: right).length = left.length + 1 + right.length := by
      simp only [List.length_append, List.length_cons]
      omega
    refine ⟨split.pushAll r', ?_, ?_⟩
    · rw [hlength]
      exact hrun
    · rw [Scope.pushAll, List.append_nil]
      exact Scope.finish_alternation (ha.mono (Nat.le_add_left _ _))

end Reader

theorem parse_of_parses {limits : Limits} {pattern : List UInt8} {ts : List Term}
    (h : Parses limits.maxRepeat.toNat pattern ts) (ha : limits.Allows (Term.heightAll ts)) :
    parse limits pattern = .ok ts := by
  obtain ⟨s, hrun, hs⟩ := Reader.follows_of_derives h {} rfl rfl (by simpa using ha) rfl
  refine CompileError.bind_eq_ok_iff.2 ⟨_, hrun, ?_⟩
  simp only [Reader.finish, Reader.advance, hs, bind, Except.bind, Piece.terms_stack]

end ByteRegex
