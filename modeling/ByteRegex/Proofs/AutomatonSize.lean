import ByteRegex.Proofs.ParseExactness
import ByteRegex.Regex

/-!
# Sizes of automata

How many states a term needs, as a number that does not depend on any limit, and that construction
adds exactly these states to an arena: it fails only where they do not fit, and what it builds does
not depend on how much more would fit.
-/

namespace ByteRegex

/-! ## Sizes of terms -/

namespace Term

mutual

def states : Term → Nat
  | literal _ => 2
  | charSet _ => 2
  | group children => statesAll children
  | alternation left right => 2 + statesAll left + statesAll right
  | repetition body _ (some n) => 2 + n * body.states
  | repetition body min none => 2 + max min 1 * body.states

def statesAll : List Term → Nat
  | [] => 1
  | t :: ts => t.states + statesSum ts

def statesSum : List Term → Nat
  | [] => 0
  | t :: ts => t.states + statesSum ts

end

/-- The copy that is always there and the further ones make up all copies of a body. -/
theorem states_repetition {t : Term} {min : Nat} {max : Option Nat}
    (h : (repetition t min max).IsSound) :
    (repetition t min max).states =
      2 + (t.states + (Arena.copies min max - 1) * t.states) := by
  have hpos : 1 ≤ Arena.copies min max := Arena.one_le_copies (fun n hn => (h n hn).2) min
  have hcopies : t.states + (Arena.copies min max - 1) * t.states =
      Arena.copies min max * t.states := by
    obtain ⟨k, hk⟩ := Nat.exists_eq_add_of_le hpos
    rw [hk, Nat.add_sub_cancel_left, Nat.add_mul, Nat.one_mul]
  rw [hcopies]
  cases max <;> rfl

example : statesAll [.repetition (.group [.literal 97, .literal 98]) 2 (some 3)] = 14 := by decide

end Term

/-! ## Construction within a limit -/

namespace Arena

/-- Under every limit `build` adds the same `n` states, or fails if they are too many. -/
def Adds {α : Type} (n : Nat) (build : Nat → Arena → Option (α × Arena)) : Prop :=
  ∀ a, ∃ (x : α) (b : Arena), b.size = a.size + n ∧ ∀ limit, a.size ≤ limit →
    build limit a = if a.size + n ≤ limit then some (x, b) else none

variable {α β : Type} {n m : Nat} {build : Nat → Arena → Option (α × Arena)}

theorem adds_fresh : Adds 1 fresh :=
  fun a => ⟨a.size, a.push {}, Array.size_push _, fun _ _ => rfl⟩

theorem adds_zero (x : α) : Adds 0 fun _ a => some (x, a) :=
  fun a => ⟨x, a, rfl, fun _ h => (if_pos h).symm⟩

/-- Changing transitions beforehand makes no difference. -/
theorem Adds.after {f : Arena → Arena} (h : Adds n build) (hf : ∀ a, (f a).size = a.size) :
    Adds n fun limit a => build limit (f a) := by
  intro a
  have hbuild := h (f a)
  rwa [hf a] at hbuild

theorem Adds.bind {next : α → Nat → Arena → Option (β × Arena)} (h : Adds n build)
    (hnext : ∀ x, Adds m (next x)) :
    Adds (n + m) fun limit a => build limit a >>= fun p => next p.1 limit p.2 := by
  intro a
  obtain ⟨x, b, hb, hbuild⟩ := h a
  obtain ⟨y, c, hc, hnext⟩ := hnext x b
  refine ⟨y, c, by omega, ?_⟩
  intro limit ha
  change build limit a >>= (fun p => next p.1 limit p.2) = _
  rw [hbuild limit ha]
  by_cases hn : a.size + n ≤ limit
  · have hlimit : b.size ≤ limit := by omega
    rw [if_pos hn, ← Nat.add_assoc, ← hb]
    exact hnext limit hlimit
  · rw [if_neg hn, if_neg (by omega)]
    rfl

theorem adds_unroll {body : Nat → Arena → Option (Fragment × Arena)} (h : Adds n body)
    (min stop remaining ordinal : Nat) (copy : Fragment) :
    Adds (remaining * n) fun limit => unroll (body limit) min stop remaining ordinal copy := by
  induction remaining generalizing ordinal copy with
  | zero =>
    rw [Nat.zero_mul]
    exact adds_zero copy
  | succ remaining ih =>
    rw [Nat.add_mul, Nat.one_mul, Nat.add_comm]
    exact h.bind fun next =>
      (ih (ordinal + 1) next).after (size_attach min stop ordinal copy next)

mutual

theorem adds_fragment : ∀ t : Term, Term.Every Term.IsSound [t] →
    Adds t.states fun limit => fragment limit t
  | .literal b, _ => by
    have h := adds_fresh.bind fun start => adds_fresh.bind fun stop =>
      (adds_zero (⟨start, stop⟩ : Fragment)).after (size_connect start (.byte b) stop)
    exact h
  | .charSet c, _ => by
    have h := adds_fresh.bind fun start => adds_fresh.bind fun stop =>
      (adds_zero (⟨start, stop⟩ : Fragment)).after (size_connectClass start c stop)
    exact h
  | .group ts, hs => adds_concat ts (Term.every_group.1 hs).2
  | .alternation l r, hs => by
    obtain ⟨-, hl, hr⟩ := Term.every_alternation.1 hs
    have h := adds_fresh.bind fun start => adds_fresh.bind fun stop =>
      (adds_concat l hl).bind fun l => (adds_concat r hr).bind fun r =>
        (((adds_zero (⟨start, stop⟩ : Fragment)).after (size_link r.stop stop)).after
          (size_link l.stop stop)).after fun a =>
            (size_link start r.start _).trans (size_link start l.start a)
    have hsize : Term.states (.alternation l r) =
        1 + (1 + (Term.statesAll l + (Term.statesAll r + 0))) := by
      rw [Term.states]
      omega
    rw [hsize]
    exact h
  | .repetition t min max, hs => by
    obtain ⟨hbound, ht⟩ := Term.every_repetition.1 hs
    have hclose (start stop : Nat) (last : Fragment) :=
      ((adds_zero (⟨start, stop⟩ : Fragment)).after
        (size_link_of (max = none) stop last.start)).after (size_link last.stop stop)
    have hcopies (start stop : Nat) (first : Fragment) :=
      ((adds_unroll (adds_fragment t ht) min stop (copies min max - 1) 2 first).bind
        (hclose start stop)).after (size_link start first.start)
    have hbody (start stop : Nat) :=
      ((adds_fragment t ht).bind (hcopies start stop)).after (size_link_of (min = 0) start stop)
    have h := adds_fresh.bind fun start => adds_fresh.bind (hbody start)
    have hsize : Term.states (.repetition t min max) =
        1 + (1 + (t.states + ((copies min max - 1) * t.states + 0))) := by
      rw [Term.states_repetition hbound]
      omega
    rw [hsize]
    exact h

theorem adds_concat : ∀ ts : List Term, Term.Every Term.IsSound ts →
    Adds (Term.statesAll ts) fun limit => concat limit ts
  | [], _ => by
    have h := adds_fresh.bind fun q => adds_zero (⟨q, q⟩ : Fragment)
    exact h
  | t :: ts, hs => by
    obtain ⟨ht, hts⟩ := Term.every_cons.1 hs
    exact (adds_fragment t ht).bind fun f => adds_chain ts f hts

theorem adds_chain : ∀ (ts : List Term) (f : Fragment), Term.Every Term.IsSound ts →
    Adds (Term.statesSum ts) fun limit => chain limit ts f
  | [], f, _ => adds_zero f
  | t :: ts, f, hs => by
    obtain ⟨ht, hts⟩ := Term.every_cons.1 hs
    have h := (adds_fragment t ht).bind fun next =>
      (adds_chain ts ⟨f.start, next.stop⟩ hts).after (size_link f.stop next.start)
    exact h

end

end Arena

/-! ## Automata -/

/-- Flags do not count, and the two states around the fragments do. -/
theorem Nfa.exists_ofTerms?_eq {ts : List Term} (hs : Term.Every Term.IsSound ts) :
    ∃ nfa : Nfa, nfa.states.size = Term.statesAll ts + 2 ∧ ∀ limit,
      ofTerms? limit ts = if Term.statesAll ts + 2 ≤ limit then some nfa else none := by
  have h := (Arena.adds_concat ts hs).bind fun body => Arena.adds_fresh.bind fun start =>
    Arena.adds_fresh.bind fun accept =>
      (((Arena.adds_zero start).after (Arena.size_mark start accept)).after
        (Arena.size_link body.stop accept)).after (Arena.size_link start body.start)
  obtain ⟨start, a, ha, hbuild⟩ := h #[]
  refine ⟨⟨a, start⟩, by simpa using ha, ?_⟩
  intro limit
  have hmap : ofTerms? limit ts =
      (if 0 + (Term.statesAll ts + 2) ≤ limit then some (start, a) else none).map
        fun p => ⟨p.2, p.1⟩ := by
    have hlimit := hbuild limit (Nat.zero_le _)
    change _ = (if 0 + (Term.statesAll ts + 2) ≤ limit then some (start, a) else none) at hlimit
    rw [← hlimit]
    simp only [ofTerms?, Option.bind_eq_bind, Option.map_bind, Function.comp_def, Option.map_some]
  rw [hmap, Nat.zero_add]
  split <;> rfl

namespace Regex

/-- Compilation has three outcomes. What the parser rejects is rejected with its error, and all
else compiles, if the limit on states allows, to an automaton that its terms determine. -/
theorem compile_eq_of_parse (limits : Limits) (pattern : List UInt8) :
    match parse limits pattern with
    | .error e => compile limits pattern = .error e
    | .ok ts => ∃ r : Regex, r.terms = ts ∧ r.stateCount = Term.statesAll ts + 2 ∧
      ∀ maxStates : UInt64, compile { limits with maxStates := maxStates } pattern =
        if Term.statesAll ts + 2 ≤ min maxStates.toNat 4294967295 then .ok r
        else .error (.tooManyStates (min maxStates.toNat 4294967295)) := by
  cases hp : parse limits pattern with
  | error e => exact compile_of_parse_error hp
  | ok ts =>
    obtain ⟨nfa, hsize, hnfa⟩ := Nfa.exists_ofTerms?_eq (parses_of_parse hp).every_isSound
    refine ⟨⟨pattern, ts, nfa⟩, rfl, hsize, ?_⟩
    intro maxStates
    have hparse : parse { limits with maxStates := maxStates } pattern = .ok ts :=
      parse_eq_ok_iff.2 (parse_eq_ok_iff.1 hp)
    have hlimit := hnfa { limits with maxStates := maxStates }.stateLimit
    by_cases hfit : Term.statesAll ts + 2 ≤ min maxStates.toNat 4294967295
    · rw [if_pos hfit]
      exact compile_of_ofTerms?_some hparse (hlimit.trans (if_pos hfit))
    · rw [if_neg hfit]
      exact compile_of_ofTerms?_none hparse (hlimit.trans (if_neg hfit))

end Regex

end ByteRegex
