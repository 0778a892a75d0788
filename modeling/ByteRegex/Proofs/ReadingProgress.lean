import ByteRegex.Proofs.RecursiveReading

/-!
# Progress of a reading

Calls of a recursive reading move the cursor forward and leave the number of open groups as it was.
This holds of any call that returns, from wherever it is made: whatever might break it is checked on
the way and would be a fault.
-/

namespace ByteRegex

namespace Descent

variable {α β : Type} {limits : Limits} {pattern : List UInt8} {opened : List Nat} {fuel pos : Nat}

/-! ## Calls that return -/

theorem bind_eq_ok_iff {x : Except Halt α} {f : α → Except Halt β} {z : β} :
    x >>= f = .ok z ↔ ∃ y, x = .ok y ∧ f y = .ok z := by
  cases x <;> simp [bind, Except.bind]

theorem lift_eq_ok_iff {x : Except CompileError α} {y : α} : lift x = .ok y ↔ x = .ok y := by
  cases x <;> simp [lift, Except.mapError]

theorem move_eq_ok_iff {n : Nat} : move pattern n = .ok pos ↔ pos = n ∧ n ≤ pattern.length := by
  unfold move fault
  split
  · next h => simp [h, eq_comm]
  · next h => simp [h]

theorem counted_eq_ok_iff {depth depth' : UInt32} :
    counted limits opened depth = .ok depth' ↔ depth' = depth ∧ Counted limits opened depth := by
  unfold counted fault
  split
  · next h => simp [h, eq_comm]
  · next h => simp [h]

theorem nest_eq_ok_iff {height height' : UInt32} :
    nest limits pos height = .ok height' ↔ height' = height ∧ height ≤ limits.nestLimit := by
  unfold nest
  split
  · next h => simp [h, eq_comm]
  · next h => simp [h]

/-! ## Classes and bounds -/

theorem lt_of_classLoop {start stop : Nat} {members c : ByteClass} {anchor : Option UInt8}
    {first : Bool}
    (h : classLoop pattern start fuel pos members anchor first = .ok (c, stop)) :
    pos < stop ∧ stop ≤ pattern.length := by
  induction fuel generalizing pos members anchor first with
  | zero => cases h
  | succ fuel ih =>
    unfold classLoop at h
    split at h
    · cases h
    split at h
    · obtain ⟨next, hmove, h⟩ := bind_eq_ok_iff.1 h
      obtain ⟨rfl, hle⟩ := move_eq_ok_iff.1 hmove
      cases h
      exact ⟨Nat.lt_succ_self pos, hle⟩
    split at h
    · obtain ⟨next, hmove, h⟩ := bind_eq_ok_iff.1 h
      obtain ⟨rfl, -⟩ := move_eq_ok_iff.1 hmove
      have hrest := ih h
      exact ⟨by omega, hrest.2⟩
    split at h
    · cases h
    split at h
    · cases h
    split at h
    · obtain ⟨next, hmove, h⟩ := bind_eq_ok_iff.1 h
      obtain ⟨rfl, -⟩ := move_eq_ok_iff.1 hmove
      have hrest := ih h
      exact ⟨by omega, hrest.2⟩
    · cases h

theorem lt_of_charSet {c : ByteClass} {stop : Nat} (h : charSet pattern fuel pos = .ok (c, stop)) :
    pos < stop ∧ stop ≤ pattern.length := by
  obtain ⟨next, hmove, h⟩ := bind_eq_ok_iff.1 h
  obtain ⟨rfl, -⟩ := move_eq_ok_iff.1 hmove
  obtain ⟨⟨d, last⟩, hloop, h⟩ := bind_eq_ok_iff.1 h
  have hrest := lt_of_classLoop hloop
  dsimp only at h
  split at h
  · cases h
  · cases h
    exact ⟨by omega, hrest.2⟩

theorem lt_of_bound {bd : Bound} {stop : Nat} (h : bound limits pattern pos = .ok (bd, stop)) :
    pos < stop ∧ stop ≤ pattern.length := by
  obtain ⟨rest, -, h⟩ := bind_eq_ok_iff.1 h
  split at h
  · cases h
  · next length _ =>
    obtain ⟨next, hmove, h⟩ := bind_eq_ok_iff.1 h
    obtain ⟨rfl, hle⟩ := move_eq_ok_iff.1 hmove
    obtain ⟨text, -, h⟩ := bind_eq_ok_iff.1 h
    obtain ⟨d, -, h⟩ := bind_eq_ok_iff.1 h
    cases h
    exact ⟨by omega, hle⟩

theorem lt_of_readClass {c : ByteClass} {stop : Nat} (hpos : pos < pattern.length)
    (h : readClass pattern pos = .ok (c, stop)) : pos < stop ∧ stop ≤ pattern.length := by
  rw [← lift_eq_ok_iff, ← charSet_eq hpos (Nat.le_refl _)] at h
  exact lt_of_charSet h

theorem lt_of_readBound {bd : Bound} {stop : Nat} (hpos : pos < pattern.length)
    (h : readBound limits pattern pos = .ok (bd, stop)) : pos < stop ∧ stop ≤ pattern.length := by
  rw [← lift_eq_ok_iff, ← bound_eq hpos] at h
  exact lt_of_bound h

/-! ## Sequences and groups -/

/-- A sequence has read a byte, a class, a group or a quantifier, and its next call begins there. -/
inductive Continues (limits : Limits) (pattern : List UInt8) (fuel : Nat) (opened : List Nat)
    (row : Row) (s : Spot) : Row → Spot → Prop where
  | literal {b : UInt8} {pos : Nat} : move pattern (s.pos + 1) = .ok pos →
    Continues limits pattern fuel opened row s (row.push (.literal b) 0) { s with pos := pos }
  | group {t : Term} {height : UInt32} {next : Spot} :
    group limits pattern opened (fun opened =>
      scope limits pattern (sequence limits pattern fuel opened {}) fuel) s =
        .ok ((t, height), next) →
    Continues limits pattern fuel opened row s (row.push t height) next
  | charSet {c : ByteClass} {pos : Nat} : charSet pattern fuel s.pos = .ok (c, pos) →
    Continues limits pattern fuel opened row s (row.push (.charSet c) 0) { s with pos := pos }
  | bound {b : Bound} {pos : Nat} {row' : Row} : bound limits pattern s.pos = .ok (b, pos) →
    row.quantify limits .boundOpen s.pos b = .ok row' →
    Continues limits pattern fuel opened row s row' { s with pos := pos }
  | quantifier {m : Mark} {b : Bound} {pos : Nat} {row' : Row} :
    move pattern (s.pos + 1) = .ok pos → row.quantify limits m s.pos b = .ok row' →
    Continues limits pattern fuel opened row s row' { s with pos := pos }

theorem continues_of_sequence {row : Row} {s : Spot} {p : Row × Spot}
    (h : sequence limits pattern (fuel + 1) opened row s = .ok p) :
    p = (row, s) ∨ ∃ row' t, Continues limits pattern fuel opened row s row' t ∧
      sequence limits pattern fuel opened row' t = .ok p := by
  cases hb : pattern[s.pos]? with
  | none =>
    simp only [sequence, hb] at h
    exact .inl (Except.ok.inj h).symm
  | some b =>
    cases hturn : turn (!opened.isEmpty) b with
    | stop =>
      simp only [sequence, hb, hturn] at h
      exact .inl (Except.ok.inj h).symm
    | literal =>
      simp only [sequence, hb, hturn] at h
      obtain ⟨next, hmove, h⟩ := bind_eq_ok_iff.1 h
      exact .inr ⟨_, _, .literal hmove, h⟩
    | group =>
      simp only [sequence, hb, hturn] at h
      obtain ⟨⟨⟨t, height⟩, next⟩, hgroup, h⟩ := bind_eq_ok_iff.1 h
      exact .inr ⟨_, _, .group hgroup, h⟩
    | charSet =>
      simp only [sequence, hb, hturn] at h
      obtain ⟨⟨c, next⟩, hclass, h⟩ := bind_eq_ok_iff.1 h
      exact .inr ⟨_, _, .charSet hclass, h⟩
    | bound =>
      simp only [sequence, hb, hturn] at h
      obtain ⟨⟨c, next⟩, hbound, h⟩ := bind_eq_ok_iff.1 h
      obtain ⟨quantified, hquantify, h⟩ := bind_eq_ok_iff.1 h
      exact .inr ⟨_, _, .bound hbound (lift_eq_ok_iff.1 hquantify), h⟩
    | quantifier m c =>
      simp only [sequence, hb, hturn] at h
      obtain ⟨next, hmove, h⟩ := bind_eq_ok_iff.1 h
      obtain ⟨quantified, hquantify, h⟩ := bind_eq_ok_iff.1 h
      exact .inr ⟨_, _, .quantifier hmove (lift_eq_ok_iff.1 hquantify), h⟩

theorem group_eq_ok {inside : List Nat → Call Content} {s u : Spot} {p : Term × UInt32}
    (h : group limits pattern opened inside s = .ok (p, u)) :
    ∃ depth children v, enter limits opened s.pos s.depth = .ok depth ∧
      inside (s.pos :: opened) ⟨s.pos + 1, depth⟩ = .ok (children, v) ∧
      leave limits opened v.depth = .ok u.depth ∧ u.pos = v.pos + 1 ∧ u.pos ≤ pattern.length ∧
      p = (.group children.terms, saturatingSucc children.height) := by
  obtain ⟨depth, henter, h⟩ := bind_eq_ok_iff.1 h
  obtain ⟨next, hmove, h⟩ := bind_eq_ok_iff.1 h
  obtain ⟨rfl, -⟩ := move_eq_ok_iff.1 hmove
  obtain ⟨⟨children, v⟩, hinside, h⟩ := bind_eq_ok_iff.1 h
  obtain ⟨depth', hleave, h⟩ := bind_eq_ok_iff.1 h
  split at h
  · obtain ⟨next', hmove', h⟩ := bind_eq_ok_iff.1 h
    obtain ⟨rfl, hle⟩ := move_eq_ok_iff.1 hmove'
    obtain ⟨height, hheight, h⟩ := bind_eq_ok_iff.1 h
    obtain ⟨rfl, -⟩ := nest_eq_ok_iff.1 (lift_eq_ok_iff.1 hheight)
    cases h
    exact ⟨depth, children, v, henter, hinside, hleave, rfl, hle, rfl⟩
  · cases h

/-! ## Advances -/

structure Advanced (limits : Limits) (pattern : List UInt8) (s t : Spot) : Prop where
  pos_le : s.pos ≤ t.pos
  le_length : s.pos ≤ pattern.length → t.pos ≤ pattern.length
  depth_eq : limits.nestLimit < 4294967295 → t.depth = s.depth

theorem advanced_refl (s : Spot) : Advanced limits pattern s s :=
  ⟨Nat.le_refl _, id, fun _ => rfl⟩

theorem Advanced.trans {s t u : Spot} (h : Advanced limits pattern s t)
    (h' : Advanced limits pattern t u) : Advanced limits pattern s u where
  pos_le := Nat.le_trans h.pos_le h'.pos_le
  le_length hs := h'.le_length (h.le_length hs)
  depth_eq hlt := (h'.depth_eq hlt).trans (h.depth_eq hlt)

theorem advanced_to {s : Spot} (h : s.pos < pos ∧ pos ≤ pattern.length) :
    Advanced limits pattern s { s with pos := pos } :=
  ⟨Nat.le_of_lt h.1, fun _ => h.2, fun _ => rfl⟩

theorem advanced_of_move {s : Spot} (h : move pattern (s.pos + 1) = .ok pos) :
    Advanced limits pattern s { s with pos := pos } := by
  obtain ⟨rfl, hle⟩ := move_eq_ok_iff.1 h
  exact advanced_to ⟨Nat.lt_succ_self _, hle⟩

def Advances (limits : Limits) (pattern : List UInt8) (call : Call α) : Prop :=
  ∀ (s : Spot) (x : α) (t : Spot), call s = .ok (x, t) → Advanced limits pattern s t

theorem advances_branches {right : Call Row} (hright : Advances limits pattern right)
    (left : Content) : Advances limits pattern (branches limits pattern right fuel left) := by
  intro s c t h
  induction fuel generalizing s left with
  | zero => cases h
  | succ fuel ih =>
    unfold branches at h
    split at h
    · obtain ⟨next, hmove, h⟩ := bind_eq_ok_iff.1 h
      obtain ⟨⟨row, u⟩, hu, h⟩ := bind_eq_ok_iff.1 h
      obtain ⟨height, -, h⟩ := bind_eq_ok_iff.1 h
      exact (advanced_of_move hmove).trans ((hright _ _ _ hu).trans (ih _ u h))
    · cases h
      exact advanced_refl _

theorem advances_scope {call : Call Row} (hcall : Advances limits pattern call) :
    Advances limits pattern (scope limits pattern call fuel) := by
  intro s c t h
  obtain ⟨⟨row, u⟩, hu, h⟩ := bind_eq_ok_iff.1 h
  exact (hcall _ _ _ hu).trans (advances_branches hcall row.content _ _ _ h)

theorem enter_eq_ok_iff {depth depth' : UInt32} : enter limits opened pos depth = .ok depth' ↔
    depth' = saturatingSucc depth ∧ depth' ≤ limits.nestLimit ∧
      Counted limits (pos :: opened) depth' := by
  simp only [enter, bind_eq_ok_iff, lift_eq_ok_iff, nest_eq_ok_iff, counted_eq_ok_iff]
  constructor
  · rintro ⟨_, ⟨rfl, hle⟩, rfl, hcounted⟩
    exact ⟨rfl, hle, hcounted⟩
  · rintro ⟨rfl, hle, hcounted⟩
    exact ⟨_, ⟨rfl, hle⟩, rfl, hcounted⟩

theorem depth_eq_of_enter {depth depth' : UInt32} (h : enter limits opened pos depth = .ok depth')
    (hlimit : limits.nestLimit < 4294967295) : depth' - 1 = depth := by
  obtain ⟨rfl, hle, -⟩ := enter_eq_ok_iff.1 h
  unfold saturatingSucc at hle ⊢
  split at hle
  · next hmax =>
    subst hmax
    exact absurd hlimit (UInt32.not_lt.2 hle)
  · next hmax =>
    rw [if_neg hmax]
    exact UInt32.add_sub_cancel depth 1

theorem depth_eq_of_leave {depth depth' : UInt32} (h : leave limits opened depth = .ok depth') :
    depth' = depth - 1 ∧ Counted limits opened depth' := by
  unfold leave at h
  split at h
  · cases h
  · obtain ⟨rfl, hcounted⟩ := counted_eq_ok_iff.1 h
    exact ⟨rfl, hcounted⟩

/-- A group takes at least its parentheses and leaves the count as it was, which is right. -/
structure PassedGroup (limits : Limits) (pattern : List UInt8) (opened : List Nat) (s t : Spot) :
    Prop where
  pos_lt : s.pos < t.pos
  le_length : t.pos ≤ pattern.length
  depth_eq : limits.nestLimit < 4294967295 → t.depth = s.depth
  counted : Counted limits opened t.depth

theorem PassedGroup.advanced {s t : Spot} (h : PassedGroup limits pattern opened s t) :
    Advanced limits pattern s t := ⟨Nat.le_of_lt h.pos_lt, fun _ => h.le_length, h.depth_eq⟩

theorem passedGroup_of_group {inside : List Nat → Call Content}
    (hinside : ∀ opened, Advances limits pattern (inside opened)) {s t : Spot} {p : Term × UInt32}
    (h : group limits pattern opened inside s = .ok (p, t)) :
    PassedGroup limits pattern opened s t := by
  obtain ⟨depth, children, u, henter, hu, hleave, hpos, hle, -⟩ := group_eq_ok h
  obtain ⟨hleft, hcounted⟩ := depth_eq_of_leave hleave
  have hadvanced := hinside _ _ _ _ hu
  have hinto : s.pos + 1 ≤ u.pos := hadvanced.pos_le
  refine ⟨by omega, hle, fun hlimit => ?_, hcounted⟩
  have hdepth : u.depth = depth := hadvanced.depth_eq hlimit
  rw [hleft, hdepth]
  exact depth_eq_of_enter henter hlimit

theorem Continues.advanced {row row' : Row} {s t : Spot}
    (h : Continues limits pattern fuel opened row s row' t)
    (hcall : ∀ opened row, Advances limits pattern (sequence limits pattern fuel opened row)) :
    Advanced limits pattern s t := by
  cases h with
  | literal hmove => exact advanced_of_move hmove
  | group hgroup =>
    exact (passedGroup_of_group (fun opened => advances_scope (hcall opened {})) hgroup).advanced
  | charSet hclass => exact advanced_to (lt_of_charSet hclass)
  | bound hbound _ => exact advanced_to (lt_of_bound hbound)
  | quantifier hmove _ => exact advanced_of_move hmove

theorem advances_sequence (fuel : Nat) (opened : List Nat) (row : Row) :
    Advances limits pattern (sequence limits pattern fuel opened row) := by
  induction fuel generalizing opened row with
  | zero =>
    intro s row' t h
    cases h
  | succ fuel ih =>
    intro s row' t h
    obtain heq | ⟨next, u, hnext, h⟩ := continues_of_sequence h
    · cases heq
      exact advanced_refl _
    · exact (hnext.advanced ih).trans (ih _ _ _ _ _ h)

end Descent

end ByteRegex
