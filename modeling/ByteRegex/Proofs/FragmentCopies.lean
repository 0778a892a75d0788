import ByteRegex.Proofs.RedundantGroups

/-!
# Copies of fragments

A term has one fragment, and this is what construction appends to every arena that leaves room for
it, with all numbers shifted. So the copies of a body that a repetition is unrolled into are shifted
images of the same fragment. All that the repetition adds to them are silent transitions from their
entries and exits: a copy that may be skipped can be left at its entry for the exit of the
repetition, and every copy leads on to the next one or, if it is the last, to that exit.
-/

namespace ByteRegex

namespace Arena

/-! ## Room within a limit -/

/-- What is built takes no more room than the limit leaves, and every limit that leaves this room
gives the same. -/
structure Fits {α : Type} (build : Nat → Arena → Option (α × Arena)) (limit : Nat) (a : Arena)
    (x : α) (b : Arena) : Prop where
  size_le : a.size ≤ b.size
  le_limit : b.size ≤ max limit a.size
  build_eq : ∀ limit', b.size ≤ limit' → build limit' a = some (x, b)

def Fitting {α : Type} (build : Nat → Arena → Option (α × Arena)) : Prop :=
  ∀ limit a x b, build limit a = some (x, b) → Fits build limit a x b

section Fitting

variable {α β : Type} {build : Nat → Arena → Option (α × Arena)}

theorem fitting_fresh : Fitting fresh := by
  intro limit a x b h
  unfold fresh at h
  split at h
  · next hlt =>
    cases h
    constructor
    · rw [Array.size_push]
      exact Nat.le_succ _
    · rw [Array.size_push]
      omega
    · intro limit' hle
      rw [Array.size_push] at hle
      exact if_pos hle
  · cases h

theorem fitting_some (x : α) : Fitting fun _ a => some (x, a) := by
  intro limit a y b h
  cases h
  exact ⟨Nat.le_refl _, Nat.le_max_right _ _, fun _ _ => rfl⟩

theorem Fitting.after {f : Arena → Arena} (h : Fitting build) (hf : ∀ a, (f a).size = a.size) :
    Fitting fun limit a => build limit (f a) := by
  intro limit a x b hb
  obtain ⟨hsize, hlimit, heq⟩ := h limit (f a) x b hb
  rw [hf] at hsize hlimit
  exact ⟨hsize, hlimit, heq⟩

theorem Fitting.bind {next : α → Nat → Arena → Option (β × Arena)} (h : Fitting build)
    (hnext : ∀ x, Fitting (next x)) :
    Fitting fun limit a => build limit a >>= fun p => next p.1 limit p.2 := by
  intro limit a y c hc
  obtain ⟨⟨x, b⟩, hb, hc⟩ := Option.bind_eq_some_iff.1 hc
  obtain ⟨hsize, hlimit, heq⟩ := h limit a x b hb
  obtain ⟨hsize', hlimit', heq'⟩ := hnext x limit b y c hc
  refine ⟨by omega, by omega, fun limit' hle => ?_⟩
  exact Option.bind_eq_some_iff.2 ⟨(x, b), heq limit' (by omega), heq' limit' hle⟩

theorem fitting_unroll {body : Nat → Arena → Option (Fragment × Arena)} (h : Fitting body)
    (min stop remaining ordinal : Nat) (copy : Fragment) :
    Fitting fun limit => unroll (body limit) min stop remaining ordinal copy := by
  induction remaining generalizing ordinal copy with
  | zero => exact fitting_some copy
  | succ remaining ih =>
    exact h.bind fun next =>
      (ih (ordinal + 1) next).after (size_attach min stop ordinal copy next)

end Fitting

mutual

theorem fitting_fragment : ∀ t : Term, Fitting fun limit => fragment limit t
  | .literal b => fitting_fresh.bind fun start => fitting_fresh.bind fun stop =>
      (fitting_some (⟨start, stop⟩ : Fragment)).after (size_connect start (.byte b) stop)
  | .charSet c => fitting_fresh.bind fun start => fitting_fresh.bind fun stop =>
      (fitting_some (⟨start, stop⟩ : Fragment)).after (size_connectClass start c stop)
  | .group ts => fitting_concat ts
  | .alternation l r => fitting_fresh.bind fun start => fitting_fresh.bind fun stop =>
      (fitting_concat l).bind fun l => (fitting_concat r).bind fun r =>
        (((fitting_some (⟨start, stop⟩ : Fragment)).after (size_link r.stop stop)).after
          (size_link l.stop stop)).after fun a =>
            (size_link start r.start _).trans (size_link start l.start a)
  | .repetition t min max => by
    have hclose (start stop : Nat) (last : Fragment) :=
      ((fitting_some (⟨start, stop⟩ : Fragment)).after
        (size_link_of (max = none) stop last.start)).after (size_link last.stop stop)
    have hcopies (start stop : Nat) (first : Fragment) :=
      ((fitting_unroll (fitting_fragment t) min stop (copies min max - 1) 2 first).bind
        (hclose start stop)).after (size_link start first.start)
    have hbody (start stop : Nat) :=
      ((fitting_fragment t).bind (hcopies start stop)).after (size_link_of (min = 0) start stop)
    exact fitting_fresh.bind fun start => fitting_fresh.bind (hbody start)

theorem fitting_concat : ∀ ts : List Term, Fitting fun limit => concat limit ts
  | [] => fitting_fresh.bind fun q => fitting_some (⟨q, q⟩ : Fragment)
  | t :: ts => (fitting_fragment t).bind (fitting_chain ts)

theorem fitting_chain : ∀ (ts : List Term) (f : Fragment), Fitting fun limit => chain limit ts f
  | [], f => fitting_some f
  | t :: ts, f => (fitting_fragment t).bind fun next =>
      (fitting_chain ts ⟨f.start, next.stop⟩).after (size_link f.stop next.start)

end

/-! ## Fragments behind an arena -/

variable {limit : Nat} {a b : Arena} {f : Fragment} {t : Term}

/-- A fragment is built behind an arena if and only if it can be built on its own and the limit
leaves room for it. It is then the same one, with all numbers shifted. -/
theorem fragment_eq_some_iff : fragment limit t a = some (f, b) ↔ ∃ g x,
    fragment limit t #[] = some (g, x) ∧ a.size + x.size ≤ limit ∧ f = g.shift a.size ∧
      b = onto a x := by
  have hshift (k : Nat) : fragment (k + a.size) t a =
      (fragment k t #[]).map (Prod.map (Fragment.shift a.size) (onto a)) := by
    have h := shifted_fragment k a t #[]
    rwa [onto_empty] at h
  constructor
  · intro h
    have hroom : ¬ limit ≤ a.size := by
      intro hfull
      rw [fragment_of_full hfull] at h
      cases h
    obtain ⟨k, rfl⟩ := Nat.exists_eq_add_of_le' (Nat.le_of_not_le hroom)
    rw [hshift] at h
    obtain ⟨⟨g, x⟩, hx, heq⟩ := Option.map_eq_some_iff.1 h
    cases heq
    have hfits := fitting_fragment t k #[] g x hx
    have hsize : x.size ≤ k := by simpa using hfits.le_limit
    exact ⟨g, x, hfits.build_eq _ (by omega), by omega, rfl, rfl⟩
  · rintro ⟨g, x, hx, hsize, rfl, rfl⟩
    obtain ⟨k, rfl⟩ := Nat.exists_eq_add_of_le' (Nat.le_of_add_right_le hsize)
    have hfits := fitting_fragment t _ #[] g x hx
    rw [hshift, hfits.build_eq k (by omega)]
    rfl

end Arena

/-! ## Copies

Copies are counted from zero. The exit of each leads to `next`, which behind the last copy is the
exit of the repetition, and `skips` is what the entry of a copy has if the copy may be left out. -/

def State.addSilent (targets : List Nat) (s : State) : State :=
  targets.foldl (fun s q => s.addTransition .epsilon q) s

theorem State.addSilent_nil (s : State) : s.addSilent [] = s := rfl

theorem State.addSilent_addSilent (ps qs : List Nat) (s : State) :
    (s.addSilent ps).addSilent qs = s.addSilent (ps ++ qs) := List.foldl_append.symm

/-- A body of `size` states and what a repetition, whose own two states come first, makes of it. -/
structure Unrolling where
  entry : Nat
  least : Nat
  count : Nat
  body : Fragment
  size : Nat
  body_within : body.Within 0 size

namespace Unrolling

variable (u : Unrolling) (i j : Nat)

def exit : Nat := u.entry + 1

def base : Nat := u.entry + 2 + i * u.size

def copy : Fragment := u.body.shift (u.base i)

def next : Nat := if i + 1 < u.count then (u.copy (i + 1)).start else u.exit

def skips : List Nat := if j = u.body.start ∧ 0 < i ∧ u.least ≤ i then [u.exit] else []

/-- The targets of the silent transitions that a repetition adds to the `j`th state of its `i`th
copy. -/
def joints : List Nat := u.skips i j ++ if j = u.body.stop then [u.next i] else []

theorem base_zero : u.base 0 = u.entry + 2 := by simp [base]

theorem base_succ : u.base (i + 1) = u.base i + u.size := by
  simp only [base, Nat.add_mul, Nat.one_mul]
  omega

theorem base_mono {i k : Nat} (h : i ≤ k) : u.base i ≤ u.base k :=
  Nat.add_le_add_left (Nat.mul_le_mul_right u.size h) _

theorem copy_within : (u.copy i).Within (u.base i) (u.base (i + 1)) := by
  have hstart := u.body_within.start_mem
  have hstop := u.body_within.stop_mem
  rw [base_succ]
  exact Fragment.within_mk (by omega) (by omega)

theorem start_eq : (u.copy i).start = u.base i + u.body.start := Nat.add_comm _ _

theorem stop_eq : (u.copy i).stop = u.base i + u.body.stop := Nat.add_comm _ _

theorem eq_start_iff : u.base i + j = (u.copy i).start ↔ j = u.body.start := by
  rw [start_eq, Nat.add_left_cancel_iff]

theorem eq_stop_iff : u.base i + j = (u.copy i).stop ↔ j = u.body.stop := by
  rw [stop_eq, Nat.add_left_cancel_iff]

end Unrolling

namespace Arena

variable {limit : Nat} {a b x : Arena} {f g last : Fragment} {t : Term} {p q : Nat}

theorem state_onto_of_lt (hq : q < a.size) : (onto a x).state q = a.state q := by
  simp only [state, onto, Array.getD_eq_getD_getElem?, Array.getElem?_append, if_pos hq]

theorem state_onto_add (a x : Arena) (j : Nat) :
    (onto a x).state (a.size + j) = (x.state j).shift a.size := by
  have hle : ¬ a.size + j < a.size := by omega
  simp only [state, onto, Array.getD_eq_getD_getElem?, Array.getElem?_append, if_neg hle,
    Nat.add_sub_cancel_left, Array.getElem?_map]
  cases x[j]? <;> rfl

theorem state_link (hp : p < a.size) (r : Nat) :
    (link p r a).state q = (a.state q).addSilent (if q = p then [r] else []) := by
  rw [link, connect, state_modify _ hp]
  split <;> rfl

theorem state_link_of (P : Prop) [Decidable P] (hp : p < a.size) (r : Nat) :
    (if P then link p r a else a).state q =
      (a.state q).addSilent (if q = p ∧ P then [r] else []) := by
  by_cases h : P
  · rw [if_pos h, state_link hp]
    simp only [h, and_true]
  · rw [if_neg h]
    simp only [h, and_false, if_false, State.addSilent_nil]

theorem state_attach {min stop ordinal : Nat} {copy next : Fragment} (hcopy : copy.stop < a.size)
    (hnext : next.start < a.size) : (attach min stop ordinal copy next a).state q =
      (a.state q).addSilent ((if q = copy.stop then [next.start] else []) ++
        if q = next.start ∧ min < ordinal then [stop] else []) := by
  rw [attach, state_link_of _ (by rwa [size_link]), state_link hcopy, State.addSilent_addSilent]

section Copies

variable {u : Unrolling} {i : Nat} {c : Arena}

def addCopy (u : Unrolling) (i : Nat) (x c : Arena) : Arena :=
  attach u.least u.exit (i + 2) (u.copy i) (u.copy (i + 1)) (onto c x)

theorem size_addCopy (hsize : x.size = u.size) (hc : c.size = u.base (i + 1)) :
    (addCopy u i x c).size = u.base (i + 2) := by
  rw [addCopy, size_attach, size_onto, hsize, hc, u.base_succ (i + 1), Nat.add_comm]

theorem state_addCopy (hsize : x.size = u.size) (hc : c.size = u.base (i + 1)) :
    (addCopy u i x c).state q = ((onto c x).state q).addSilent
      ((if q = (u.copy i).stop then [(u.copy (i + 1)).start] else []) ++
        if q = (u.copy (i + 1)).start ∧ u.least < i + 2 then [u.exit] else []) := by
  have honto : (onto c x).size = u.base (i + 1) + u.size := by
    rw [size_onto, hsize, hc, Nat.add_comm]
  have hstop := (u.copy_within i).stop_mem
  have hstart := (u.copy_within (i + 1)).start_mem
  rw [u.base_succ (i + 1)] at hstart
  exact state_attach (by omega) (by omega)

/-- The copy before it is led on to it. -/
theorem state_addCopy_before (hsize : x.size = u.size) (hc : c.size = u.base (i + 1))
    (hq : q < c.size) : (addCopy u i x c).state q =
      (c.state q).addSilent (if q = (u.copy i).stop then [(u.copy (i + 1)).start] else []) := by
  have hstart := (u.copy_within (i + 1)).start_mem
  have hne : ¬(q = (u.copy (i + 1)).start ∧ u.least < i + 2) := by omega
  rw [state_addCopy hsize hc, state_onto_of_lt hq, if_neg hne, List.append_nil]

theorem state_addCopy_inside (hsize : x.size = u.size) (hc : c.size = u.base (i + 1)) (j : Nat) :
    (addCopy u i x c).state (u.base (i + 1) + j) =
      ((x.state j).shift (u.base (i + 1))).addSilent (u.skips (i + 1) j) := by
  have hstop := (u.copy_within i).stop_mem
  have hne : u.base (i + 1) + j ≠ (u.copy i).stop := by omega
  have hskips : u.skips (i + 1) j =
      if u.base (i + 1) + j = (u.copy (i + 1)).start ∧ u.least < i + 2 then [u.exit] else [] := by
    simp only [Unrolling.skips, u.eq_start_iff, Nat.lt_succ_iff, Nat.zero_le, true_and]
  have hstate := state_onto_add c x j
  rw [hc] at hstate
  rw [state_addCopy hsize hc, hstate, if_neg hne, List.nil_append, hskips]

structure Unrolled (u : Unrolling) (x : Arena) (i : Nat) (b : Arena) : Prop where
  size_eq : b.size = u.base u.count
  state_eq : ∀ k, i ≤ k → k < u.count → ∀ j < u.size,
    b.state (u.base k + j) = ((x.state j).shift (u.base k)).addSilent (u.joints k j)

/-- Further copies, and the transition from the last of them to the exit of the repetition. Of the
states before them only the exit of the copy before the first changes. -/
theorem unrolled_of_unroll {body : Arena → Option (Fragment × Arena)}
    (hbody : ∀ c f d, body c = some (f, d) → f = u.body.shift c.size ∧ d = onto c x)
    (hsize : x.size = u.size) {remaining : Nat}
    (hcount : u.count = i + 1 + remaining) (hc : c.size = u.base (i + 1))
    (h : unroll body u.least u.exit remaining (i + 2) (u.copy i) c = some (last, b)) :
    last = u.copy (u.count - 1) ∧ Unrolled u x (i + 1) (link last.stop u.exit b) ∧
      ∀ q < c.size, (link last.stop u.exit b).state q =
        (c.state q).addSilent (if q = (u.copy i).stop then [u.next i] else []) := by
  induction remaining generalizing i c with
  | zero =>
    cases h
    have hstop := (u.copy_within i).stop_mem
    have hlast : u.count - 1 = i := by omega
    have hnext : u.next i = u.exit := if_neg (by omega)
    refine ⟨by rw [hlast], ⟨?_, fun k hk hlt => absurd hk (by omega)⟩, fun q hq => ?_⟩
    · rw [size_link, hc, hcount]
    · rw [state_link (by omega), hnext]
  | succ remaining ih =>
    obtain ⟨⟨next, d⟩, hnext, h⟩ := Option.bind_eq_some_iff.1 h
    obtain ⟨rfl, rfl⟩ := hbody c next d hnext
    rw [show u.body.shift c.size = u.copy (i + 1) by rw [hc, Unrolling.copy]] at h
    have hcopy := size_addCopy hsize hc
    obtain ⟨hlast, hunrolled, hbefore⟩ := ih (by omega) hcopy h
    have hwithin := u.copy_within (i + 1)
    have hnext : u.next i = (u.copy (i + 1)).start := if_pos (by omega)
    refine ⟨hlast, ⟨hunrolled.size_eq, fun k hk hlt j hj => ?_⟩, fun q hq => ?_⟩
    · rcases Nat.eq_or_lt_of_le hk with rfl | hk
      · have hq : u.base (i + 1) + j < (addCopy u i x c).size := by
          rw [hcopy, u.base_succ (i + 1)]
          omega
        rw [hbefore _ hq, state_addCopy_inside hsize hc, State.addSilent_addSilent]
        simp only [u.eq_stop_iff, Unrolling.joints]
      · exact hunrolled.state_eq k hk hlt j hj
    · have hlt : q < (addCopy u i x c).size := by
        rw [hcopy, u.base_succ (i + 1)]
        omega
      have hne : q ≠ (u.copy (i + 1)).stop := by
        have hstop := hwithin.stop_mem
        omega
      rw [hbefore q hlt, if_neg hne, State.addSilent_nil, state_addCopy_before hsize hc hq, hnext]

end Copies

/-! ## Repetitions -/

def unrolling (a : Arena) (min : Nat) (max : Option Nat) (g : Fragment) (x : Arena)
    (h : g.Within 0 x.size) : Unrolling :=
  ⟨a.size, min, copies min max - 1 + 1, g, x.size, h⟩

/-- A repetition behind the states of `a`: its own two states and the copies of its body. Without a
maximum its exit leads back to the last copy. -/
structure LaidOut (u : Unrolling) (max : Option Nat) (a x b : Arena) : Prop where
  size_eq : b.size = u.base u.count
  before : ∀ q < a.size, b.state q = a.state q
  entry : b.state u.entry =
    ({} : State).addSilent ((if u.least = 0 then [u.exit] else []) ++ [(u.copy 0).start])
  exit : b.state u.exit =
    ({} : State).addSilent (if max = none then [(u.copy (u.count - 1)).start] else [])
  copies : ∀ i < u.count, ∀ j < u.size,
    b.state (u.base i + j) = ((x.state j).shift (u.base i)).addSilent (u.joints i j)

theorem state_of_size_le (h : a.size ≤ q) : a.state q = {} := by
  rw [state, Array.getD_eq_getD_getElem?, Array.getElem?_eq_none h]
  rfl

section FirstCopy

variable {u : Unrolling}

def frontOf (u : Unrolling) (a : Arena) : Arena :=
  if u.least = 0 then link u.entry u.exit ((a.push {}).push {}) else (a.push {}).push {}

theorem size_frontOf (hentry : u.entry = a.size) : (frontOf u a).size = u.base 0 := by
  rw [frontOf, size_link_of, size_push_push, Unrolling.base, hentry, Nat.zero_mul, Nat.add_zero]

def firstCopy (u : Unrolling) (x a : Arena) : Arena :=
  link u.entry (u.copy 0).start (onto (frontOf u a) x)

theorem size_firstCopy (hentry : u.entry = a.size) (hsize : x.size = u.size) :
    (firstCopy u x a).size = u.base 1 := by
  rw [firstCopy, size_link, size_onto, size_frontOf hentry, hsize, u.base_succ 0, Nat.add_comm]

theorem state_firstCopy (hentry : u.entry = a.size) :
    (firstCopy u x a).state q =
      ((onto (frontOf u a) x).state q).addSilent
        (if q = u.entry then [(u.copy 0).start] else []) := by
  have hbase := u.base_zero
  have honto := size_onto (frontOf u a) x
  rw [size_frontOf hentry] at honto
  exact state_link (by omega) _

theorem state_firstCopy_front (hentry : u.entry = a.size) (hq : q < u.base 0) :
    (firstCopy u x a).state q = (a.state q).addSilent
      ((if q = u.entry ∧ u.least = 0 then [u.exit] else []) ++
        if q = u.entry then [(u.copy 0).start] else []) := by
  have hpush := size_push_push a
  rw [state_firstCopy hentry, state_onto_of_lt (by rwa [size_frontOf hentry]), frontOf,
    state_link_of _ (by omega), state_push, state_push, State.addSilent_addSilent]

theorem state_firstCopy_inside (hentry : u.entry = a.size) (j : Nat) :
    (firstCopy u x a).state (u.base 0 + j) = (x.state j).shift (u.base 0) := by
  have hbase := u.base_zero
  have hne : u.base 0 + j ≠ u.entry := by omega
  have hstate := state_onto_add (frontOf u a) x j
  rw [size_frontOf hentry] at hstate
  rw [state_firstCopy hentry, hstate, if_neg hne, State.addSilent_nil]

end FirstCopy

theorem laidOut_of_unroll {u : Unrolling} {max : Option Nat}
    {body : Arena → Option (Fragment × Arena)}
    (hbody : ∀ c f d, body c = some (f, d) → f = u.body.shift c.size ∧ d = onto c x)
    (hentry : u.entry = a.size) (hsize : x.size = u.size) (hcount : 0 < u.count)
    (h : unroll body u.least u.exit (u.count - 1) 2 (u.copy 0) (firstCopy u x a) = some (last, b)) :
    LaidOut u max a x (if max = none then link u.exit last.start (link last.stop u.exit b) else
      link last.stop u.exit b) := by
  have hbase := u.base_zero
  have hexit : u.exit = u.entry + 1 := rfl
  have hfirst := size_firstCopy hentry hsize
  have hstop := (u.copy_within 0).stop_mem
  obtain ⟨rfl, hunrolled, hbefore⟩ := unrolled_of_unroll hbody hsize (by omega) hfirst h
  have hcopies : u.base 1 ≤ u.base u.count := u.base_mono hcount
  have hnext : u.base 1 = u.base 0 + u.size := u.base_succ 0
  have hloop : ∀ q, (if max = none then link u.exit (u.copy (u.count - 1)).start
      (link (u.copy (u.count - 1)).stop u.exit b) else
      link (u.copy (u.count - 1)).stop u.exit b).state q =
      ((link (u.copy (u.count - 1)).stop u.exit b).state q).addSilent
        (if q = u.exit ∧ max = none then [(u.copy (u.count - 1)).start] else []) := by
    intro q
    exact state_link_of _ (by rw [hunrolled.size_eq]; omega) _
  have hfront : ∀ q < u.base 0, (link (u.copy (u.count - 1)).stop u.exit b).state q =
      (a.state q).addSilent ((if q = u.entry ∧ u.least = 0 then [u.exit] else []) ++
        if q = u.entry then [(u.copy 0).start] else []) := by
    intro q hq
    have hne : q ≠ (u.copy 0).stop := by omega
    rw [hbefore q (by omega), if_neg hne, State.addSilent_nil, state_firstCopy_front hentry hq]
  constructor
  case size_eq => rw [size_link_of, hunrolled.size_eq]
  case before =>
    intro q hq
    have hne : q ≠ u.entry ∧ q ≠ u.exit := by omega
    rw [hloop, hfront q (by omega)]
    simp only [hne, false_and, if_false, List.append_nil, State.addSilent_nil]
  case entry =>
    have hne : u.entry ≠ u.exit := by omega
    rw [hloop, hfront _ (by omega), state_of_size_le (by omega)]
    simp only [hne, true_and, false_and, if_true, if_false, State.addSilent_nil]
  case exit =>
    have hne : u.exit ≠ u.entry := by omega
    rw [hloop, hfront _ (by omega), state_of_size_le (by omega)]
    simp only [hne, true_and, false_and, if_false, List.append_nil, State.addSilent_nil]
  case copies =>
    intro i hi j hj
    have hne : u.base i + j ≠ u.exit := by
      have := u.base_mono (Nat.zero_le i)
      omega
    rw [hloop]
    simp only [hne, false_and, if_false, State.addSilent_nil]
    rcases Nat.eq_zero_or_pos i with rfl | hpos
    · have hskips : u.skips 0 j = [] := by simp [Unrolling.skips]
      rw [hbefore _ (by omega), state_firstCopy_inside hentry, Unrolling.joints, hskips,
        List.nil_append]
      simp only [u.eq_stop_iff]
    · exact hunrolled.state_eq i hpos hi j hj

/-- The fragment of a repetition, from the fragment that its body has on its own. -/
theorem laidOut_of_fragment {min : Nat} {max : Option Nat}
    (h : fragment limit (.repetition t min max) a = some (f, b)) :
    ∃ g x, fragment limit t #[] = some (g, x) ∧ ∃ hg : g.Within 0 x.size,
      f = ⟨a.size, a.size + 1⟩ ∧ LaidOut (a.unrolling min max g x hg) max a x b := by
  have h := of_fresh_bind (of_fresh_bind h)
  rw [Array.size_push] at h
  obtain ⟨⟨first, c⟩, hfirst, h⟩ := Option.bind_eq_some_iff.1 h
  obtain ⟨⟨last, d⟩, hlast, h⟩ := Option.bind_eq_some_iff.1 h
  cases h
  obtain ⟨g, x, hx, -, rfl, rfl⟩ := fragment_eq_some_iff.1 hfirst
  have hg : g.Within 0 x.size := within_of_fragment t hx
  refine ⟨g, x, hx, hg, rfl, ?_⟩
  have hbody : ∀ c f d, fragment limit t c = some (f, d) → f = g.shift c.size ∧ d = onto c x := by
    intro c f d hd
    obtain ⟨g', x', hx', -, rfl, rfl⟩ := fragment_eq_some_iff.1 hd
    cases hx.symm.trans hx'
    exact ⟨rfl, rfl⟩
  let u := a.unrolling min max g x hg
  have hsize : (frontOf u a).size = u.base 0 := size_frontOf rfl
  change unroll _ min u.exit (u.count - 1) 2 (g.shift (frontOf u a).size)
    (link u.entry (g.shift (frontOf u a).size).start (onto (frontOf u a) x)) = _ at hlast
  rw [hsize] at hlast
  exact laidOut_of_unroll (u := u) hbody rfl rfl (Nat.succ_pos _) hlast

/-- A term is built behind any arena as it is built on its own, with all numbers shifted, if and only
if the limit leaves room for it. Each copy of the body of a repetition is therefore the fragment of
the body, shifted to where the copy begins, with the silent transitions added that leave its entry
and its exit. -/
theorem fragment_translates (limit : Nat) (t : Term) (a : Arena) :
    (∀ f b, fragment limit t a = some (f, b) ↔ ∃ g x, fragment limit t #[] = some (g, x) ∧
      a.size + x.size ≤ limit ∧ f = g.shift a.size ∧ b = onto a x) ∧
    ∀ min max f b, fragment limit (.repetition t min max) a = some (f, b) →
      ∃ g x, fragment limit t #[] = some (g, x) ∧ ∃ hg : g.Within 0 x.size,
        f = ⟨a.size, a.size + 1⟩ ∧ LaidOut (a.unrolling min max g x hg) max a x b :=
  ⟨fun _ _ => fragment_eq_some_iff, fun _ _ _ _ => laidOut_of_fragment⟩

/-- The term is that of `a{1,3}`, behind one other state. -/
theorem fragment_translates_of_three_copies : ∃ f b,
    fragment 20 (.repetition (.literal 97) 1 (some 3)) #[{}] = some (f, b) ∧
    (∃ g x, fragment 20 (.repetition (.literal 97) 1 (some 3)) #[] = some (g, x) ∧
      1 + x.size ≤ 20 ∧ f = g.shift 1 ∧ b = onto #[{}] x) ∧
    ∃ g x, fragment 20 (.literal 97) #[] = some (g, x) ∧ ∃ hg : g.Within 0 x.size,
      f = ⟨1, 2⟩ ∧ (unrolling #[{}] 1 (some 3) g x hg).count = 3 ∧
        LaidOut (unrolling #[{}] 1 (some 3) g x hg) (some 3) #[{}] x b := by
  obtain ⟨f, b, h⟩ : ∃ f b,
    fragment 20 (.repetition (.literal 97) 1 (some 3)) #[{}] = some (f, b) := ⟨_, _, rfl⟩
  have hshift := ((fragment_translates 20 _ #[{}]).1 f b).1 h
  obtain ⟨g, x, hx, hg, hf, hlaid⟩ := (fragment_translates 20 _ #[{}]).2 _ _ f b h
  exact ⟨f, b, h, hshift, g, x, hx, hg, hf, rfl, hlaid⟩

end Arena

end ByteRegex
