import ByteRegex.Proofs.ParseExactness
import ByteRegex.Proofs.ReadingHeights

/-!
# Readers at spots

A reader stands at a spot of a recursive reading if it has read the pattern up to the cursor and has
the groups open that the calls are in. What becomes of the pattern from there is told by its next
byte: this is what the calls rely on, one case for each turn that a sequence can take.
-/

namespace ByteRegex

open Grammar

namespace Descent

variable {limits : Limits} {pattern : List UInt8} {opened : List Nat} {pos : Nat} {b : UInt8}
  {depth : UInt32}

/-! ## Counts -/

theorem lt_largest (h : limits.nestLimit ≠ 4294967295) :
    limits.nestLimit.toNat < Limits.wordMax := by
  have hlt := limits.nestLimit.toNat_lt
  have hne : limits.nestLimit.toNat ≠ (4294967295 : UInt32).toNat :=
    fun he => h (UInt32.toNat.inj he)
  simp only [UInt32.reduceToNat] at hne
  simp only [Limits.wordMax]
  omega

theorem le_nestLimit_of_largest (h : limits.nestLimit = 4294967295) (depth : UInt32) :
    depth ≤ limits.nestLimit := by
  have hlt := depth.toNat_lt
  rw [h, UInt32.le_iff_toNat_le]
  simp only [UInt32.reduceToNat]
  omega

theorem Counted.measures (h : Counted limits opened depth)
    (hmax : limits.nestLimit ≠ 4294967295) : Measures depth opened.length := by
  obtain ⟨hlength, -⟩ := h.resolve_left hmax
  have hlt := depth.toNat_lt
  unfold Measures Limits.wordMax
  omega

/-- Where the count is right, the word that counts the groups tells which number is allowed. -/
theorem Counted.nest_eq (h : Counted limits opened depth) :
    nest limits pos (saturatingSucc depth) =
      if limits.Allows (opened.length + 1) then .ok (saturatingSucc depth)
      else .error (limits.tooDeep pos) := by
  by_cases hmax : limits.nestLimit = 4294967295
  · rw [nest, if_pos (le_nestLimit_of_largest hmax _),
      if_pos (Limits.allows_of_nestLimit_eq hmax _)]
  · exact (h.measures hmax).succ.nest_eq

theorem Counted.succ (h : Counted limits opened depth)
    (hallow : limits.Allows (opened.length + 1)) (pos : Nat) :
    Counted limits (pos :: opened) (saturatingSucc depth) := by
  by_cases hmax : limits.nestLimit = 4294967295
  · exact .inl hmax
  · have hsucc := (h.measures hmax).succ
    have hlimit := lt_largest hmax
    refine .inr ⟨?_, hsucc.le_iff.2 hallow⟩
    unfold Measures at hsucc
    unfold Limits.Allows at hallow
    rw [List.length_cons]
    omega

theorem Counted.pred (h : Counted limits (pos :: opened) depth) :
    Counted limits opened (depth - 1) := by
  rcases h with hmax | ⟨hlength, hle⟩
  · exact .inl hmax
  · rw [List.length_cons] at hlength
    rw [UInt32.le_iff_toNat_le] at hle
    have hone : (1 : UInt32) ≤ depth := by
      rw [UInt32.le_iff_toNat_le, hlength]
      simp
    have hpred : (depth - 1).toNat = opened.length := by
      rw [UInt32.toNat_sub_of_le _ _ hone, hlength]
      simp
    refine .inr ⟨hpred, ?_⟩
    rw [UInt32.le_iff_toNat_le, hpred]
    omega

theorem enter_of_allows (h : Counted limits opened depth)
    (hallow : limits.Allows (opened.length + 1)) :
    enter limits opened pos depth = .ok (saturatingSucc depth) := by
  rw [enter, h.nest_eq, if_pos hallow]
  exact if_pos (h.succ hallow pos)

theorem enter_of_not_allows (h : Counted limits opened depth)
    (hallow : ¬ limits.Allows (opened.length + 1)) :
    enter limits opened pos depth = reject (limits.tooDeep pos) := by
  rw [enter, h.nest_eq, if_neg hallow]
  rfl

theorem leave_of_counted (h : Counted limits (pos :: opened) depth) :
    leave limits opened depth = .ok (depth - 1) := by
  have hzero : ¬(depth = 0 ∧ limits.nestLimit ≠ 4294967295) := by
    rintro ⟨rfl, hmax⟩
    obtain ⟨hlength, -⟩ := h.resolve_left hmax
    simp at hlength
  rw [leave, if_neg hzero, counted, if_pos h.pred]

/-! ## Turns -/

inductive Begins (inGroup : Bool) : UInt8 → Turn → Prop where
  | bar : Begins inGroup Mark.bar.byte .stop
  | groupClose : inGroup = true → Begins inGroup Mark.groupClose.byte .stop
  | literal {b : UInt8} : IsLiteral inGroup b → Begins inGroup b .literal
  | group : Begins inGroup Mark.groupOpen.byte .group
  | charSet : Begins inGroup Mark.classOpen.byte .charSet
  | bound : Begins inGroup Mark.boundOpen.byte .bound
  | quantifier {m : Mark} {b : Bound} : Repeats m b → Begins inGroup m.byte (.quantifier m b)

theorem begins_turn (inGroup : Bool) (b : UInt8) : Begins inGroup b (turn inGroup b) := by
  cases hb : Mark.ofByte? b with
  | none =>
    rw [turn, hb]
    exact .literal (isLiteral_of_ofByte? inGroup hb)
  | some m =>
    rw [turn, hb]
    obtain rfl := Mark.ofByte?_eq_some_iff.1 hb
    cases m with
    | groupOpen => exact .group
    | groupClose =>
      cases inGroup with
      | false => exact .literal isLiteral_groupClose
      | true => exact .groupClose rfl
    | bar => exact .bar
    | classOpen => exact .charSet
    | boundOpen => exact .bound
    | star => exact .quantifier .star
    | plus => exact .quantifier .plus
    | question => exact .quantifier .question

/-! ## Readers at spots

The outcome of a reader is what becomes of a pattern of which it has read as much as its offset
says. A scope ends with the pattern or before the parenthesis that closes its group, and a sequence
stops there or before a bar. -/

/-- The reader has read the pattern up to the spot, within the groups of `opened`. -/
structure Stands (limits : Limits) (pattern : List UInt8) (opened : List Nat) (r : Reader)
    (s : Spot) : Prop where
  plain : r.mode = .plain
  offset_eq : r.offset = s.pos
  pos_le : s.pos ≤ pattern.length
  opened_eq : r.enclosing.map OpenGroup.opened = opened
  counted : Counted limits opened s.depth

def outcome (limits : Limits) (pattern : List UInt8) (r : Reader) :
    Except CompileError (List Term) := r.complete limits (pattern.drop r.offset)

def goTo (pos : Nat) (sc : Scope) (r : Reader) : Reader := { r with offset := pos, scope := sc }

def intoGroup (pos : Nat) (r : Reader) : Reader :=
  { r with offset := pos + 1, scope := {}, enclosing := ⟨pos, r.scope⟩ :: r.enclosing }

def Ends (pattern : List UInt8) (opened : List Nat) (pos : Nat) : Prop :=
  pattern[pos]? = none ∨ (pattern[pos]? = some Mark.groupClose.byte ∧ opened ≠ [])

def Stops (pattern : List UInt8) (opened : List Nat) (pos : Nat) : Prop :=
  pattern[pos]? = some Mark.bar.byte ∨ Ends pattern opened pos

/-- A call that began at `s`, where `r` stands, ended at `t` with `sc` as the scope. -/
structure Reached (limits : Limits) (pattern : List UInt8) (opened : List Nat) (r : Reader)
    (s : Spot) (sc : Scope) (t : Spot) : Prop where
  pos_le : s.pos ≤ t.pos
  stands : Stands limits pattern opened (goTo t.pos sc r) t
  outcome_eq : outcome limits pattern r = outcome limits pattern (goTo t.pos sc r)

variable {r : Reader} {s t u : Spot} {sc sc' : Scope}

theorem Reached.trans (h : Reached limits pattern opened r s sc t)
    (h' : Reached limits pattern opened (goTo t.pos sc r) t sc' u) :
    Reached limits pattern opened r s sc' u :=
  ⟨Nat.le_trans h.pos_le h'.pos_le, h'.stands, h.outcome_eq.trans h'.outcome_eq⟩

namespace Stands

variable (h : Stands limits pattern opened r s)

include h

theorem inGroup_eq : r.inGroup = !opened.isEmpty := by
  rw [Reader.inGroup, ← h.opened_eq, List.isEmpty_map]

theorem length_eq : r.enclosing.length = opened.length := by
  rw [← h.opened_eq, List.length_map]

theorem at_offset (hb : pattern[s.pos]? = some b) : pattern[r.offset]? = some b := by
  rw [h.offset_eq, hb]

theorem reached : Reached limits pattern opened r s r.scope s := by
  have hgoTo : goTo s.pos r.scope r = r := by rw [goTo, ← h.offset_eq]
  refine ⟨Nat.le_refl _, ?_, ?_⟩
  · rwa [hgoTo]
  · rw [hgoTo]

theorem reached_of_outcome {n : Nat} (hle : s.pos ≤ n) (hn : n ≤ pattern.length)
    (heq : outcome limits pattern r = outcome limits pattern (goTo n sc r)) :
    Reached limits pattern opened r s sc ⟨n, s.depth⟩ :=
  ⟨hle, ⟨h.plain, rfl, hn, h.opened_eq, h.counted⟩, heq⟩

/-- A step of the reader within the groups of `opened`. -/
theorem advance (hb : pattern[s.pos]? = some b)
    (ha : Reader.Advances limits r b { r with scope := sc }) :
    Reached limits pattern opened r s sc ⟨s.pos + 1, s.depth⟩ := by
  refine h.reached_of_outcome (Nat.le_succ _) (lt_length hb) ?_
  rw [outcome, ha.complete (h.at_offset hb), h.offset_eq]
  rfl

theorem outcome_eq_step (hb : pattern[s.pos]? = some b) :
    outcome limits pattern r =
      r.step limits b >>= Reader.complete limits (pattern.drop (s.pos + 1)) := by
  rw [outcome, h.offset_eq, drop_of_getElem? hb, Reader.complete_cons]

theorem outcome_quantifier {m : Mark} {bound : Bound} (hb : pattern[s.pos]? = some m.byte)
    (hm : Repeats m bound) :
    outcome limits pattern r = r.scope.quantify limits m s.pos bound >>= fun sc =>
      outcome limits pattern (goTo (s.pos + 1) sc r) := by
  have hread : r.readByte limits m.byte = r.quantify limits m s.pos bound := by
    rw [Reader.readByte_mark h.plain, ← h.offset_eq]
    cases hm <;> rfl
  rw [h.outcome_eq_step hb, Reader.step, hread, Reader.quantify, h.offset_eq]
  cases r.scope.quantify limits m s.pos bound <;> rfl

theorem outcome_charSet (hb : pattern[s.pos]? = some Mark.classOpen.byte) :
    outcome limits pattern r = readClass pattern s.pos >>= fun p =>
      outcome limits pattern (goTo p.2 (r.scope.push (.charSet p.1)) r) := by
  have hplain := h.plain
  rw [outcome, Reader.complete_classOpen limits hplain (h.at_offset hb), h.offset_eq]
  refine congrArg _ (funext fun p => ?_)
  rw [outcome, goTo, Reader.behindClass, hplain]
  rfl

theorem outcome_bound (hb : pattern[s.pos]? = some Mark.boundOpen.byte) :
    outcome limits pattern r = readBound limits pattern s.pos >>= fun p =>
      r.scope.quantify limits .boundOpen s.pos p.1 >>= fun sc =>
        outcome limits pattern (goTo p.2 sc r) := by
  have hplain := h.plain
  rw [outcome, Reader.complete_boundOpen limits hplain (h.at_offset hb), h.offset_eq]
  refine congrArg _ (funext fun p => ?_)
  rw [Reader.behindBound_eq hplain, h.offset_eq]
  cases r.scope.quantify limits .boundOpen s.pos p.1 with
  | error e => rfl
  | ok sc =>
    simp only [outcome, goTo, Except.map, hplain]
    rfl

theorem outcome_behind_bound {bound : Bound} {stop : Nat}
    (hb : pattern[s.pos]? = some Mark.boundOpen.byte)
    (hread : readBound limits pattern s.pos = .ok (bound, stop)) :
    outcome limits pattern r = r.scope.quantify limits .boundOpen s.pos bound >>= fun sc =>
      outcome limits pattern (goTo stop sc r) := by
  rw [h.outcome_bound hb, hread]
  rfl

theorem reached_charSet {c : ByteClass} {stop : Nat}
    (hb : pattern[s.pos]? = some Mark.classOpen.byte)
    (hread : readClass pattern s.pos = .ok (c, stop)) :
    Reached limits pattern opened r s (r.scope.push (.charSet c)) ⟨stop, s.depth⟩ := by
  obtain ⟨hpos, hle⟩ := lt_of_readClass (lt_length hb) hread
  refine h.reached_of_outcome (Nat.le_of_lt hpos) hle ?_
  rw [h.outcome_charSet hb, hread]
  rfl

/-- A quantifier that ends before `n`, be it a single byte or a bound. -/
theorem reached_of_quantify {m : Mark} {bound : Bound} {n : Nat}
    (hn : s.pos < n ∧ n ≤ pattern.length)
    (heq : outcome limits pattern r = r.scope.quantify limits m s.pos bound >>= fun sc =>
      outcome limits pattern (goTo n sc r))
    (hsc : r.scope.quantify limits m s.pos bound = .ok sc) :
    Reached limits pattern opened r s sc ⟨n, s.depth⟩ := by
  refine h.reached_of_outcome (Nat.le_of_lt hn.1) hn.2 ?_
  rw [heq, hsc]
  rfl

theorem outcome_of_not_allows (hb : pattern[s.pos]? = some Mark.groupOpen.byte)
    (hallow : ¬ limits.Allows (opened.length + 1)) :
    outcome limits pattern r = .error (limits.tooDeep s.pos) := by
  have hopen : r.openGroup limits = .error (limits.tooDeep s.pos) := by
    rw [Reader.openGroup, h.length_eq, if_neg hallow, h.offset_eq]
  rw [h.outcome_eq_step hb, Reader.step, Reader.readByte_mark h.plain, Reader.readMark, hopen]
  rfl

theorem outcome_groupOpen (hb : pattern[s.pos]? = some Mark.groupOpen.byte)
    (hallow : limits.Allows (opened.length + 1)) :
    outcome limits pattern r = outcome limits pattern (intoGroup s.pos r) := by
  have ha : limits.Allows (r.enclosing.length + 1) := by rwa [h.length_eq]
  rw [outcome, (Reader.Advances.openGroup h.plain ha).complete (h.at_offset hb), h.offset_eq]
  rfl

theorem inside (hb : pattern[s.pos]? = some Mark.groupOpen.byte)
    (hallow : limits.Allows (opened.length + 1)) :
    Stands limits pattern (s.pos :: opened) (intoGroup s.pos r)
      ⟨s.pos + 1, saturatingSucc s.depth⟩ where
  plain := h.plain
  offset_eq := rfl
  pos_le := lt_length hb
  opened_eq := by rw [intoGroup, List.map_cons, h.opened_eq]
  counted := h.counted.succ hallow s.pos

theorem outcome_of_none (hn : pattern[s.pos]? = none) :
    outcome limits pattern r = r.finish limits := by
  rw [outcome, h.offset_eq, drop_of_getElem?_none hn, Reader.complete_nil]

theorem outcome_bar (hb : pattern[s.pos]? = some Mark.bar.byte) :
    outcome limits pattern r = r.scope.finish limits >>= fun ps =>
      outcome limits pattern (goTo (s.pos + 1) ⟨[], some ⟨ps, s.pos⟩⟩ r) := by
  rw [h.outcome_eq_step hb, Reader.step, Reader.readByte_mark h.plain, Reader.readMark, Scope.split,
    h.offset_eq]
  cases r.scope.finish limits <;> rfl

theorem outcome_groupClose {g : OpenGroup} {gs : List OpenGroup} (hg : r.enclosing = g :: gs)
    (hb : pattern[s.pos]? = some Mark.groupClose.byte) :
    outcome limits pattern r = r.scope.finish limits >>= fun ps =>
      limits.allow g.opened (.group ps) >>= fun p => outcome limits pattern
        { r with offset := s.pos + 1, scope := g.around.push p, enclosing := gs } := by
  rw [h.outcome_eq_step hb, Reader.step, Reader.readByte_mark h.plain, Reader.readMark,
    Reader.closeGroup, hg, h.offset_eq]
  cases r.scope.finish limits with
  | error e => rfl
  | ok ps =>
    simp only [bind, Except.bind]
    cases limits.allow g.opened (.group ps) <;> rfl

theorem outcome_of_unterminated {g : OpenGroup} {gs : List OpenGroup} {ps : List Piece}
    (hg : r.enclosing = g :: gs) (hn : pattern[s.pos]? = none)
    (hfinish : r.scope.finish limits = .ok ps) :
    outcome limits pattern r = .error (.unterminatedGroup g.opened) := by
  rw [h.outcome_of_none hn, Reader.finish, h.plain, hfinish, hg]
  rfl

/-- Wherever a sequence stops, its scope is finished first. -/
theorem outcome_of_finish_error {e : CompileError} (hstop : Stops pattern opened s.pos)
    (he : r.scope.finish limits = .error e) : outcome limits pattern r = .error e := by
  rcases hstop with hb | hn | ⟨hb, hne⟩
  · rw [h.outcome_bar hb, he]
    rfl
  · rw [h.outcome_of_none hn, Reader.finish, h.plain, he]
    rfl
  · obtain ⟨g, gs, hg⟩ := List.exists_cons_of_ne_nil
      (show r.enclosing ≠ [] from fun hnil => hne (by rw [← h.opened_eq, hnil, List.map_nil]))
    rw [h.outcome_groupClose hg hb, he]
    rfl

end Stands

theorem outcome_behind_group {children : List Piece}
    (h : Stands limits pattern (pos :: opened) (goTo t.pos sc (intoGroup pos r)) t)
    (hclose : pattern[t.pos]? = some Mark.groupClose.byte)
    (hfinish : sc.finish limits = .ok children) :
    outcome limits pattern (goTo t.pos sc (intoGroup pos r)) =
      limits.allow pos (.group children) >>= fun p =>
        outcome limits pattern (goTo (t.pos + 1) (r.scope.push p) r) := by
  have hscope : (goTo t.pos sc (intoGroup pos r)).scope.finish limits = .ok children := hfinish
  rw [h.outcome_groupClose rfl hclose, hscope]
  rfl

end Descent

end ByteRegex
