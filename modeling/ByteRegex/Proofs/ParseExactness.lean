import ByteRegex.Proofs.GrammarCompleteness

/-!
# Exactness of reading

Every piece that a reader holds has passed the check on its height. So a pattern is read exactly
when the grammar derives terms from it that nest no deeper than the limit, and these are the terms
it is read as. Both limits on patterns therefore select among the patterns that are read without
them and change none of their terms.
-/

namespace ByteRegex

open Grammar

namespace Limits

variable {limits : Limits}

theorem allows_zero (limits : Limits) : limits.Allows 0 := Nat.zero_le _

theorem allows_max {n m : Nat} (hn : limits.Allows n) (hm : limits.Allows m) :
    limits.Allows (max n m) := by
  unfold Allows at hn hm ⊢
  omega

theorem allows_highest {pieces : List Piece} (h : ∀ p ∈ pieces, limits.Allows p.height) :
    limits.Allows (Piece.highest pieces) := by
  induction pieces with
  | nil => exact limits.allows_zero
  | cons p ps ih =>
    obtain ⟨hp, hps⟩ := List.forall_mem_cons.1 h
    exact allows_max hp (ih hps)

/-- The largest limit on nesting is none. -/
theorem allows_of_nestLimit_eq (h : limits.nestLimit = 4294967295) (n : Nat) :
    limits.Allows n := by
  unfold Allows
  rw [h]
  exact Nat.min_le_right n wordMax

end Limits

/-! ## Checked pieces -/

def Scope.Checked (limits : Limits) (s : Scope) : Prop := ∀ p ∈ s.pieces, limits.Allows p.height

namespace Scope

variable {limits : Limits} {s : Scope}

theorem Checked.push {p : Piece} (h : s.Checked limits) (hp : limits.Allows p.height) :
    (s.push p).Checked limits := List.forall_mem_cons.2 ⟨hp, h⟩

theorem Checked.quantify {p : Piece} {ps : List Piece} {b : Bound} (h : s.Checked limits)
    (hs : s.pieces = p :: ps) (hp : limits.Allows (p.repetition b).height) :
    Checked limits { s with pieces := p.repetition b :: ps } := by
  rw [Checked, hs] at h
  exact List.forall_mem_cons.2 ⟨hp, (List.forall_mem_cons.1 h).2⟩

theorem Checked.finish {pieces : List Piece} (h : s.Checked limits)
    (hs : s.finish limits = .ok pieces) : ∀ p ∈ pieces, limits.Allows p.height := by
  rcases finish_eq_ok_iff.1 hs with ⟨-, rfl⟩ | ⟨left, -, rfl, ha⟩
  · exact h
  · exact List.forall_mem_singleton.2 ha

end Scope

def Reader.Checked (limits : Limits) (r : Reader) : Prop :=
  r.scope.Checked limits ∧ ∀ g ∈ r.enclosing, g.around.Checked limits

namespace Reader

variable {limits : Limits} {r r' : Reader}

theorem Checked.push {p : Piece} (h : r.Checked limits) (hp : limits.Allows p.height) :
    (r.push p).Checked limits := ⟨h.1.push hp, h.2⟩

theorem Checked.advances {b : UInt8} (h : r.Checked limits) (hr : Advances limits r b r') :
    r'.Checked limits := by
  cases hr with
  | literal hp hb => exact h.push limits.allows_zero
  | openGroup hp ha => exact ⟨List.forall_mem_nil _, List.forall_mem_cons.2 ⟨h.1, h.2⟩⟩
  | closeGroup hp he hc ha =>
    obtain ⟨-, hgroups⟩ := h
    rw [he] at hgroups
    obtain ⟨hg, hgs⟩ := List.forall_mem_cons.1 hgroups
    exact ⟨hg.push ha, hgs⟩
  | bar hp hf => exact ⟨List.forall_mem_nil _, h.2⟩
  | quantifier hp hm hps ha => exact ⟨h.1.quantify hps ha, h.2⟩
  | beginClass hp => exact h
  | inClass hm hs => exact h
  | endClass hm hs => exact h.push limits.allows_zero
  | beginBound hp => exact h
  | inBound hm hb => exact h
  | endBound hm hb hps ha => exact ⟨h.1.quantify hps ha, h.2⟩

theorem checked_start (limits : Limits) : ({} : Reader).Checked limits :=
  ⟨List.forall_mem_nil _, List.forall_mem_nil _⟩

theorem checked_of_runs {bytes : List UInt8} (hr : Runs limits {} bytes r) :
    r.Checked limits := by
  have hstep : ∀ (_ : List UInt8) (r : Reader) (b : UInt8) (s : Reader),
      r.Checked limits → Advances limits r b s →
      { s with offset := r.offset + 1 }.Checked limits := by
    intro _ r b s h hs
    have hchecked : s.Checked limits := h.advances hs
    exact hchecked
  exact @Runs.invariant limits {} r (fun _ r => r.Checked limits) hstep [] bytes hr
    (checked_start limits)

end Reader

/-! ## Patterns -/

theorem allows_of_parse {limits : Limits} {pattern : List UInt8} {ts : List Term}
    (h : parse limits pattern = .ok ts) : limits.Allows (Term.heightAll ts) := by
  obtain ⟨r, hr, hf⟩ := parse_eq_ok_iff_runs.1 h
  obtain ⟨-, -, pieces, hs, rfl⟩ := Reader.finish_eq_ok_iff.1 hf
  rw [← Piece.highest_eq]
  exact Limits.allows_highest ((Reader.checked_of_runs hr).1.finish hs)

theorem parse_eq_ok_iff {limits : Limits} {pattern : List UInt8} {ts : List Term} :
    parse limits pattern = .ok ts ↔
      Parses limits.maxRepeat.toNat pattern ts ∧ limits.Allows (Term.heightAll ts) :=
  ⟨fun h => ⟨parses_of_parse h, allows_of_parse h⟩, fun h => parse_of_parses h.1 h.2⟩

theorem parse_eq_ok_iff_parses {limits : Limits} (hnest : limits.nestLimit = 4294967295)
    {pattern : List UInt8} {ts : List Term} :
    parse limits pattern = .ok ts ↔ Parses limits.maxRepeat.toNat pattern ts := by
  rw [parse_eq_ok_iff]
  exact and_iff_left (Limits.allows_of_nestLimit_eq hnest _)

/-- Without a limit on nesting a pattern is read as terms exactly if the grammar derives them from
it, which are never two different lists, and the reader has then consumed the pattern. -/
theorem parse_eq_ok_iff_derivable (maxRepeat : UInt32) (maxStates : UInt64)
    (pattern : List UInt8) :
    let limits : Limits := ⟨maxRepeat, maxStates, 4294967295⟩
    (∀ ts, parse limits pattern = .ok ts ↔ Parses maxRepeat.toNat pattern ts) ∧
    (∀ ts us, Parses maxRepeat.toNat pattern ts → Parses maxRepeat.toNat pattern us → ts = us) ∧
    ∀ ts, parse limits pattern = .ok ts → ∃ r, pattern.foldlM (Reader.step limits) {} = .ok r ∧
      r.finish limits = .ok ts ∧ r.offset = pattern.length := by
  intro limits
  have hiff : ∀ ts, parse limits pattern = .ok ts ↔ Parses maxRepeat.toNat pattern ts := by
    intro ts
    rw [parse_eq_ok_iff]
    exact and_iff_left (Limits.allows_of_nestLimit_eq rfl _)
  refine ⟨hiff, ?_, ?_⟩
  · intro ts us ht hu
    exact Except.ok.inj (((hiff ts).2 ht).symm.trans ((hiff us).2 hu))
  · intro ts h
    obtain ⟨r, hr, hf⟩ := parse_eq_ok_iff_runs.1 h
    exact ⟨r, hr, hf, hr.offset.trans (Nat.zero_add _)⟩

/-- The pattern is `a+b*c?|(d[e-g]){12,}`. -/
theorem parse_eq_ok_iff_derivable_of_quantifiers :
    let pattern : List UInt8 := [97, 43, 98, 42, 99, 63, 124, 40, 100, 91, 101, 45, 103, 93, 41,
      123, 49, 50, 44, 125]
    let left : List Term := [.repetition (.literal 97) 1 none, .repetition (.literal 98) 0 none,
      .repetition (.literal 99) 0 (some 1)]
    let right : List Term :=
      [.repetition (.group [.literal 100, .charSet (.ofList [101, 102, 103])]) 12 none]
    parse ⟨12, 1000, 4294967295⟩ pattern = .ok [.alternation left right] ∧
      Parses 12 pattern [.alternation left right] ∧
      ∀ ts, Parses 12 pattern ts → ts = [.alternation left right] := by
  intro pattern left right
  have hparse : parse ⟨12, 1000, 4294967295⟩ pattern = .ok [.alternation left right] := rfl
  obtain ⟨hiff, hunique, -⟩ := parse_eq_ok_iff_derivable 12 1000 pattern
  have hderives : Parses 12 pattern [.alternation left right] := (hiff _).1 hparse
  exact ⟨hparse, hderives, fun ts hts => hunique _ _ hts hderives⟩

/-- The limits on counts and on nesting are gates: they let terms pass unchanged or not at all. -/
theorem parse_eq_ok_iff_within_limits (limits : Limits) (hpos : 1 ≤ limits.maxRepeat)
    (pattern : List UInt8) (ts : List Term) :
    parse limits pattern = .ok ts ↔
      parse { limits with maxRepeat := 4294967295, nestLimit := 4294967295 } pattern = .ok ts ∧
      min (Term.heightAll ts) 4294967295 ≤ limits.nestLimit.toNat ∧
      ∀ body min max, .repetition body min max ∈ Term.nodesAll ts →
        max.getD min ≤ limits.maxRepeat.toNat := by
  have hle : limits.maxRepeat.toNat ≤ (4294967295 : UInt32).toNat :=
    Nat.le_of_lt_succ limits.maxRepeat.toNat_lt
  have hwithin : Term.Every (Term.RepeatsWithin limits.maxRepeat.toNat) ts ↔
      ∀ body min max, .repetition body min max ∈ Term.nodesAll ts →
        max.getD min ≤ limits.maxRepeat.toNat := by
    constructor
    · intro h body min max hm
      exact h _ hm
    · intro h t hm
      cases t with
      | repetition body min max => exact h body min max hm
      | literal b => trivial
      | charSet c => trivial
      | group us => trivial
      | alternation l r => trivial
  have hunlimited := @Limits.allows_of_nestLimit_eq
    { limits with maxRepeat := 4294967295, nestLimit := 4294967295 } rfl
  rw [parse_eq_ok_iff, parse_eq_ok_iff, and_iff_left (hunlimited _), Parses, Parses,
    derives_iff_within (UInt32.le_iff_toNat_le.1 hpos) hle, hwithin, and_assoc]
  exact and_congr_right fun _ => and_comm

/-- The pattern is `a{2}|b`. One less for either limit, and it is rejected. -/
theorem parse_within_limits_at_boundary :
    let pattern : List UInt8 := [97, 123, 50, 125, 124, 98]
    let terms : List Term := [.alternation [.repetition (.literal 97) 2 (some 2)] [.literal 98]]
    (1 : UInt32) ≤ 2 ∧ parse ⟨2, 1000, 2⟩ pattern = .ok terms ∧
      parse ⟨4294967295, 1000, 4294967295⟩ pattern = .ok terms ∧ Term.heightAll terms = 2 ∧
      (∀ body min max, .repetition body min max ∈ Term.nodesAll terms → max.getD min ≤ 2) ∧
      parse ⟨1, 1000, 2⟩ pattern = .error (.repeatTooLarge 1 1) ∧
      parse ⟨2, 1000, 1⟩ pattern = .error (.nestTooDeep 4 1) := by
  intro pattern terms
  have hpos : (1 : UInt32) ≤ 2 := by decide
  have hparse : parse ⟨2, 1000, 2⟩ pattern = .ok terms := rfl
  obtain ⟨hunlimited, -, hcounts⟩ :=
    (parse_eq_ok_iff_within_limits ⟨2, 1000, 2⟩ hpos pattern terms).1 hparse
  exact ⟨hpos, hparse, hunlimited, rfl, hcounts, rfl, rfl⟩

end ByteRegex
