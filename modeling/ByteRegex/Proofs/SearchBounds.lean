import ByteRegex.Proofs.SearchExactness

/-!
# Bounds on a search

How long the loop of a search goes on and how much it holds on the way. Only configurations of the
automaton are ever stacked or entered, each is expanded in one turn at most, and a turn takes one of
them from the stack, so the loop ends however the automaton leads back into itself.
-/

namespace ByteRegex

/-! ## Automata within their bounds -/

namespace Nfa

def InBounds (a : Nfa) : Prop :=
  a.start < a.states.size ∧ ∀ s ∈ a.states, ∀ e ∈ s.transitions.toList, e.2 < a.states.size

instance (a : Nfa) : Decidable a.InBounds := inferInstanceAs (Decidable (_ ∧ _))

variable {a : Nfa} {input : Array UInt8}

theorem InBounds.target_lt (h : a.InBounds) {p q : Nat} {s : Symbol} (hq : q ∈ a.targets p s) :
    q < a.states.size := by
  unfold targets state at hq
  rw [Array.getD_eq_getD_getElem?] at hq
  cases hp : a.states[p]? with
  | none =>
    rw [hp] at hq
    cases hq
  | some state =>
    rw [hp] at hq
    exact h.2 state (Array.mem_of_getElem? hp) (s, q) (Transitions.mem_targets_iff.1 hq)

theorem InBounds.mem_configs (h : a.InBounds) {c : Config} (hc : a.Reaches input a.root c) :
    c ∈ a.configs input.size := by
  refine mem_configs_iff.2 ⟨?_, hc.pos_le (Nat.zero_le _)⟩
  cases hc with
  | refl => exact h.1
  | tail _ hmove =>
    rcases mem_moves_iff.1 hmove with ⟨b, -, hq, -⟩ | ⟨hq, -⟩
    · exact h.target_lt hq
    · exact h.target_lt hq

end Nfa

/-! ## Turns of the loop -/

namespace Search

variable {a : Nfa} {input : Array UInt8} {n m : Nat} {s t : Search} {c : Config}

/-- How often the loop has tested its condition when it ends or is about to begin its next turn:
once for each turn, and once more unless a configuration was accepted. -/
def tests (turns : Nat) (s : Search) : Nat := if s.accepted then turns else turns + 1

def Expands (s : Search) (c : Config) : Prop :=
  s.accepted = false ∧ s.stack.head? = some c ∧ c ∉ s.memo

theorem Turn.mem_memo (h : Turn a input s t) (hc : c ∈ s.memo) : c ∈ t.memo := by
  cases h with
  | skip _ => exact hc
  | accept _ _ => exact Memo.mem_enter.2 (.inl hc)
  | expand _ _ => exact Memo.mem_enter.2 (.inl hc)

theorem Turn.mem_memo_of_expands (h : Turn a input s t) (hc : s.Expands c) : c ∈ t.memo := by
  obtain ⟨-, hhead, hnew⟩ := hc
  cases h with
  | skip hd =>
    cases hhead
    exact absurd hd hnew
  | accept _ _ =>
    cases hhead
    exact Memo.mem_enter.2 (.inr rfl)
  | expand _ _ =>
    cases hhead
    exact Memo.mem_enter.2 (.inr rfl)

theorem After.unique (h : After a input n s) (h' : After a input n t) : s = t := by
  induction h generalizing t with
  | start =>
    cases h'
    rfl
  | turn _ ht ih =>
    cases h' with
    | turn h' ht' => rw [ht.eq_step, ht'.eq_step, ih h']

/-- What is expanded is in the memo from then on. -/
theorem After.mem_memo_of_lt (h : After a input n s) (hc : s.Expands c) (h' : After a input m t)
    (hlt : n < m) : c ∈ t.memo := by
  induction h' with
  | start => exact absurd hlt (Nat.not_lt_zero n)
  | turn h' ht ih =>
    rcases Nat.lt_succ_iff_lt_or_eq.1 hlt with hlt | rfl
    · exact ht.mem_memo (ih hlt)
    · rw [h.unique h'] at hc
      exact ht.mem_memo_of_expands hc

/-- No configuration is expanded in two turns. -/
theorem After.eq_of_expands (h : After a input n s) (h' : After a input m t) (hc : s.Expands c)
    (hc' : t.Expands c) : n = m := by
  rcases Nat.lt_trichotomy n m with hlt | heq | hlt
  · exact absurd (h.mem_memo_of_lt hc h' hlt) hc'.2.2
  · exact heq
  · exact absurd (h'.mem_memo_of_lt hc' h hlt) hc.2.2

theorem After.tests_le (h : After a input n s) :
    s.tests n ≤ 1 + a.transitionCount * (input.size + 1) + 1 := by
  have hturns := h.invariant.steps_le
  unfold Nfa.visitBound at hturns
  unfold tests
  split <;> omega

variable (ha : a.InBounds)

include ha

theorem After.mem_configs (h : After a input n s) (hc : c ∈ s.memo ∨ c ∈ s.stack) :
    c ∈ a.configs input.size :=
  ha.mem_configs (h.invariant.reached c hc)

theorem After.size_memo_le (h : After a input n s) :
    s.memo.size ≤ a.states.size * (input.size + 1) := by
  have hsubset : s.memo.entered.toList.toFinset ⊆ a.configs input.size := by
    intro c hc
    rw [List.mem_toFinset, Array.mem_toList_iff] at hc
    exact h.mem_configs ha (.inl hc)
  calc s.memo.size = s.memo.entered.toList.toFinset.card :=
        (List.toFinset_card_of_nodup h.invariant.nodup).symm
    _ ≤ (a.configs input.size).card := Finset.card_le_card hsubset
    _ = a.states.size * (input.size + 1) := a.card_configs input.size

end Search

namespace Nfa

/-- The loop of a search ends by itself, within a number of tests that is linear in the transitions
and in the length of the input. At every moment, it holds only configurations of the automaton, each
entered once at most, and none is expanded twice. -/
theorem search_bounded {a : Nfa} (ha : a.InBounds) (input : List UInt8) :
    (∃ turns, Search.After a input.toArray turns (a.search input) ∧
      (a.search input).isOver = true ∧
      (a.search input).tests turns ≤ 1 + a.transitionCount * (input.length + 1) + 1) ∧
    ∀ turns s, Search.After a input.toArray turns s →
      s.tests turns ≤ 1 + a.transitionCount * (input.length + 1) + 1 ∧
      (∀ c, c ∈ s.memo ∨ c ∈ s.stack → c.state < a.states.size ∧ c.pos ≤ input.length) ∧
      (∀ c, s.Expands c → ∀ turns' s', Search.After a input.toArray turns' s' → s'.Expands c →
        turns = turns') ∧
      s.memo.size ≤ a.states.size * (input.length + 1) := by
  constructor
  · obtain ⟨hover, turns, h⟩ := a.search_isOver input
    exact ⟨turns, h, hover, h.tests_le⟩
  · intro turns s h
    refine ⟨h.tests_le, ?_, ?_, h.size_memo_le ha⟩
    · exact fun c hc => mem_configs_iff.1 (h.mem_configs ha hc)
    · exact fun c hc turns' s' h' hc' => h.eq_of_expands h' hc hc'

/-- A silent cycle with a silent loop and two equal transitions on it. -/
def silentCycle : Nfa where
  states := #[
    { isStart := true,
      transitions := ((Transitions.empty.add .epsilon 0).add .epsilon 1).add .epsilon 1 },
    { isAccept := true, transitions := (Transitions.empty.add (.byte 97) 1).add .epsilon 0 }]
  start := 0

/-- The input is `ab`, of which only the first byte is ever consumed. -/
theorem search_bounded_of_silentCycle :
    silentCycle.InBounds ∧
    (∃ turns, Search.After silentCycle #[97, 98] turns (silentCycle.search [97, 98]) ∧
      (silentCycle.search [97, 98]).isOver = true ∧
      (silentCycle.search [97, 98]).tests turns ≤ 1 + 5 * (2 + 1) + 1) ∧
    ∀ turns s, Search.After silentCycle #[97, 98] turns s →
      s.tests turns ≤ 1 + 5 * (2 + 1) + 1 ∧
      (∀ c, c ∈ s.memo ∨ c ∈ s.stack → c.state < 2 ∧ c.pos ≤ 2) ∧
      (∀ c, s.Expands c → ∀ turns' s', Search.After silentCycle #[97, 98] turns' s' →
        s'.Expands c → turns = turns') ∧
      s.memo.size ≤ 2 * (2 + 1) :=
  ⟨by decide, search_bounded (by decide) [97, 98]⟩

end Nfa

end ByteRegex
