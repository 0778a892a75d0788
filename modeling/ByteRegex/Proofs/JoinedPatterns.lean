import ByteRegex.Proofs.ReadableTerms

/-!
# Joined patterns

How the terms of a pattern follow from those of its parts when two patterns are put side by side or
around a bar, or when one is put in parentheses. Since alternations lean to the left, a pattern in
front of a bar becomes the innermost left branch of all that follows.
-/

namespace ByteRegex

open Grammar

namespace Term

/-- What two patterns with a bar between them are read as, when the second alone is read as the last
argument. -/
def graft (ts : List Term) : List Term → List Term
  | [alternation l r] => [alternation (graft ts l) r]
  | us => [alternation ts us]

theorem graft_alternation (ts l r : List Term) :
    graft ts [alternation l r] = [alternation (graft ts l) r] := by
  rw [graft]

theorem graft_of_forall {ts us : List Term} (h : ∀ u ∈ us, ¬ u.IsAlternation) :
    graft ts us = [alternation ts us] := by
  rw [graft]
  rintro l r rfl
  exact h _ List.mem_cons_self trivial

inductive OutsideGroups (t : Term) : List Term → Prop where
  | here {ts : List Term} : t ∈ ts → OutsideGroups t ts
  | left {ts l r : List Term} : alternation l r ∈ ts → OutsideGroups t l → OutsideGroups t ts
  | right {ts l r : List Term} : alternation l r ∈ ts → OutsideGroups t r → OutsideGroups t ts
  | body {ts : List Term} {u : Term} {min : Nat} {max : Option Nat} : repetition u min max ∈ ts →
    OutsideGroups t [u] → OutsideGroups t ts

theorem OutsideGroups.mono {t : Term} {ts us : List Term} (h : OutsideGroups t ts)
    (hsub : ts ⊆ us) : OutsideGroups t us := by
  cases h with
  | here ht => exact .here (hsub ht)
  | left ha h => exact .left (hsub ha) h
  | right ha h => exact .right (hsub ha) h
  | body hr h => exact .body (hsub hr) h

end Term

open Term

namespace Grammar

variable {maxRepeat : Nat} {phrase : Phrase} {inGroup : Bool} {text text' : List UInt8}
  {ts us : List Term}

/-! ## Side by side -/

theorem Derives.sequence_append (h : Derives maxRepeat .sequence inGroup text ts)
    (h' : Derives maxRepeat .sequence inGroup text' us) :
    Derives maxRepeat .sequence inGroup (text ++ text') (ts ++ us) := by
  generalize hphrase : Phrase.sequence = phrase at h'
  induction h' with
  | empty =>
    rw [List.append_nil, List.append_nil]
    exact h
  | append _ hi ihs _ =>
    rw [← List.append_assoc, ← List.append_assoc]
    exact .append (ihs h rfl) hi
  | _ => cases hphrase

/-- A scope without a bar of its own is a sequence. -/
theorem Derives.sequence_of_scope (h : Derives maxRepeat .scope inGroup text ts)
    (hnone : ∀ t ∈ ts, ¬ t.IsAlternation) : Derives maxRepeat .sequence inGroup text ts := by
  cases h with
  | single hs => exact hs
  | alternation _ _ => exact absurd trivial (hnone _ List.mem_cons_self)

/-! ## Around a bar -/

theorem Derives.graft (h : Derives maxRepeat .scope inGroup text ts)
    (h' : Derives maxRepeat .scope inGroup text' us) :
    Derives maxRepeat .scope inGroup (text ++ Mark.bar.byte :: text') (graft ts us) := by
  generalize hphrase : Phrase.scope = phrase at h'
  induction h' with
  | single hs _ =>
    rw [graft_of_forall hs.shapes]
    exact .alternation h hs
  | alternation _ hr ihl _ =>
    rw [graft_alternation, ← List.cons_append, ← List.append_assoc]
    exact .alternation (ihl h rfl) hr
  | _ => cases hphrase

/-! ## In parentheses -/

/-- Parentheses change the meaning of closing parentheses only, and of those only that belong to no
group. -/
theorem Derives.in_group (h : Derives maxRepeat phrase inGroup text ts)
    (hclosers : ¬ OutsideGroups (.literal Mark.groupClose.byte) ts) :
    Derives maxRepeat phrase true text ts := by
  induction h with
  | literal hb =>
    refine .literal ⟨hb.1, fun _ hclose => hclosers ?_⟩
    rw [hclose]
    exact .here List.mem_cons_self
  | charSet hc => exact .charSet hc
  | group hs _ => exact .group hs
  | bare _ ih => exact .bare (ih hclosers)
  | quantified _ hq ih =>
    exact .quantified (ih fun ho => hclosers (.body List.mem_cons_self ho)) hq
  | empty => exact .empty
  | append _ _ ihs ihi =>
    have hfront := ihs fun ho => hclosers (ho.mono (List.subset_append_left _ _))
    have hlast := ihi fun ho => hclosers (ho.mono (List.subset_append_right _ _))
    exact .append hfront hlast
  | single _ ih => exact .single (ih hclosers)
  | alternation _ _ ihl ihr =>
    have hleft := ihl fun ho => hclosers (.left List.mem_cons_self ho)
    have hright := ihr fun ho => hclosers (.right List.mem_cons_self ho)
    exact .alternation hleft hright

end Grammar

/-! ## Patterns -/

section

variable {limits : Limits} {p q : List UInt8} {ts us : List Term}

theorem parse_append (hnest : limits.nestLimit = 4294967295) (hp : parse limits p = .ok ts)
    (hq : parse limits q = .ok us) (hnone : ∀ t ∈ ts ++ us, ¬ t.IsAlternation) :
    parse limits (p ++ q) = .ok (ts ++ us) := by
  obtain ⟨hts, hus⟩ := List.forall_mem_append.1 hnone
  rw [parse_eq_ok_iff_parses hnest] at hp hq ⊢
  have hfront := Derives.sequence_of_scope hp hts
  have hback := Derives.sequence_of_scope hq hus
  exact .single (hfront.sequence_append hback)

theorem parse_around_bar (hnest : limits.nestLimit = 4294967295) (hp : parse limits p = .ok ts)
    (hq : parse limits q = .ok us) :
    parse limits (p ++ Mark.bar.byte :: q) = .ok (graft ts us) := by
  rw [parse_eq_ok_iff_parses hnest] at hp hq ⊢
  exact Derives.graft hp hq

theorem parse_in_parentheses (hnest : limits.nestLimit = 4294967295)
    (hp : parse limits p = .ok ts)
    (hclosers : ¬ OutsideGroups (.literal Mark.groupClose.byte) ts) :
    parse limits (Mark.groupOpen.byte :: (p ++ [Mark.groupClose.byte])) = .ok [.group ts] := by
  rw [parse_eq_ok_iff_parses hnest] at hp ⊢
  have hgroup : Derives limits.maxRepeat.toNat .item false
      (Mark.groupOpen.byte :: (p ++ [Mark.groupClose.byte])) [.group ts] :=
    .bare (.group (Derives.in_group hp hclosers))
  exact .single (.append .empty hgroup)

/-- Without a limit on nesting, two patterns are read side by side as the terms of both unless one
of them is an alternation. With a bar between them, the first comes into the innermost left branch
of the second. Parentheses make a group of a pattern in which no closing parenthesis stands for
itself. -/
theorem parse_joined (hnest : limits.nestLimit = 4294967295) (hp : parse limits p = .ok ts)
    (hq : parse limits q = .ok us) :
    ((∀ t ∈ ts ++ us, ¬ t.IsAlternation) → parse limits (p ++ q) = .ok (ts ++ us)) ∧
    parse limits (p ++ Mark.bar.byte :: q) = .ok (graft ts us) ∧
    (¬ OutsideGroups (.literal Mark.groupClose.byte) ts →
      parse limits (Mark.groupOpen.byte :: (p ++ [Mark.groupClose.byte])) = .ok [.group ts]) :=
  ⟨parse_append hnest hp hq, parse_around_bar hnest hp hq, parse_in_parentheses hnest hp⟩

/-- The patterns are `(a)` and `b|c|d`. -/
theorem parse_joined_of_group :
    let limits : Limits := { nestLimit := 4294967295 }
    parse limits [40, 97, 41] = .ok [.group [.literal 97]] ∧
    parse limits [98, 124, 99, 124, 100] =
      .ok [.alternation [.alternation [.literal 98] [.literal 99]] [.literal 100]] ∧
    parse limits [40, 97, 41, 124, 98, 124, 99, 124, 100] = .ok [.alternation [.alternation
      [.alternation [.group [.literal 97]] [.literal 98]] [.literal 99]] [.literal 100]] ∧
    parse limits [40, 40, 97, 41, 41] = .ok [.group [.group [.literal 97]]] ∧
    parse limits [40, 97, 41, 40, 97, 41] = .ok [.group [.literal 97], .group [.literal 97]] := by
  intro limits
  have hp : parse limits [40, 97, 41] = .ok [.group [.literal 97]] := rfl
  have hq : parse limits [98, 124, 99, 124, 100] =
    .ok [.alternation [.alternation [.literal 98] [.literal 99]] [.literal 100]] := rfl
  have hclosers : ¬ OutsideGroups (.literal Mark.groupClose.byte) [.group [.literal 97]] := by
    intro h
    cases h with
    | here ht => cases List.mem_singleton.1 ht
    | left ha _ => cases List.mem_singleton.1 ha
    | right ha _ => cases List.mem_singleton.1 ha
    | body hr _ => cases List.mem_singleton.1 hr
  have hnone : ∀ t ∈ [group [literal 97]] ++ [group [literal 97]], ¬ t.IsAlternation := by
    simp [IsAlternation]
  obtain ⟨-, hbar, hparentheses⟩ := parse_joined rfl hp hq
  simp only [graft] at hbar
  exact ⟨hp, hq, hbar, hparentheses hclosers, (parse_joined rfl hp hp).1 hnone⟩

end

end ByteRegex
