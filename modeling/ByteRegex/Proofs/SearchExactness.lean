import ByteRegex.Nfa.Search
import Mathlib.Algebra.BigOperators.Ring.Finset
import Mathlib.Algebra.Order.BigOperators.Group.Finset
import Mathlib.Logic.Relation

/-!
# Exactness of the search

A search goes through turns of its loop, of which there are three kinds, and each turn keeps an
invariant: what is entered or stacked can be reached, and as long as nothing has been accepted, all
that is one move away from an entered configuration is entered or stacked too. The invariant also
counts turns, so a search is over when its fuel is spent, and has then accepted exactly if an
accepting configuration can be reached.
-/

namespace ByteRegex

variable {a : Nfa} {input : Array UInt8}

/-! ## Moves -/

namespace Transitions

theorem length_lookup_le (s : Symbol) (es : List (Symbol × List Nat)) :
    ((es.lookup s).getD []).length ≤ es.foldr (fun e n => e.2.length + n) 0 := by
  induction es with
  | nil => exact Nat.zero_le _
  | cons e es ih =>
    rw [List.lookup_cons, List.foldr_cons]
    cases s == e.1 with
    | true => exact Nat.le_add_right _ _
    | false => exact Nat.le_add_left_of_le ih

theorem length_lookup_add_le {s s' : Symbol} (hne : s ≠ s') (es : List (Symbol × List Nat)) :
    ((es.lookup s).getD []).length + ((es.lookup s').getD []).length ≤
      es.foldr (fun e n => e.2.length + n) 0 := by
  induction es with
  | nil => exact Nat.zero_le _
  | cons e es ih =>
    rw [List.lookup_cons, List.lookup_cons, List.foldr_cons]
    by_cases hs : s = e.1
    · have hrest := length_lookup_le s' es
      have hs' : (s' == e.1) = false := beq_false_of_ne fun h => hne (hs.trans h.symm)
      rw [hs', beq_iff_eq.2 hs]
      exact Nat.add_le_add_left hrest _
    · have hrest := length_lookup_le s es
      rw [beq_false_of_ne hs]
      cases s' == e.1 with
      | true => exact (Nat.add_comm _ _).trans_le (Nat.add_le_add_left hrest _)
      | false => exact Nat.le_add_left_of_le ih

end Transitions

namespace Nfa

/-- Different symbols have different transitions. -/
theorem length_moves_le (c : Config) :
    (a.moves input c).length ≤ (a.state c.state).transitions.size := by
  unfold moves
  split
  · rw [List.length_map]
    exact Transitions.length_lookup_le _ _
  · next b _ =>
    have hne : Symbol.byte b ≠ .epsilon := nofun
    rw [List.length_append, List.length_map, List.length_map]
    exact Transitions.length_lookup_add_le hne _

theorem state_lt_of_moves {c : Config} (h : (a.moves input c).length ≠ 0) :
    c.state < a.states.size := by
  by_contra hsize
  have hempty : a.state c.state = {} := by
    rw [state, Array.getD_eq_getD_getElem?, Array.getElem?_eq_none (Nat.le_of_not_lt hsize)]
    rfl
  have hle := @length_moves_le a input c
  rw [hempty] at hle
  exact h (Nat.le_zero.1 hle)

theorem mem_moves_iff {c d : Config} :
    d ∈ a.moves input c ↔
      (∃ b, input[c.pos]? = some b ∧ d.state ∈ a.targets c.state (.byte b) ∧ d.pos = c.pos + 1) ∨
      d.state ∈ a.targets c.state .epsilon ∧ d.pos = c.pos := by
  have hmap : ∀ (targets : List Nat) (pos : Nat),
      d ∈ targets.map (Config.mk · pos) ↔ d.state ∈ targets ∧ d.pos = pos := by
    intro targets pos
    rw [List.mem_map]
    constructor
    · rintro ⟨q, hq, rfl⟩
      exact ⟨hq, rfl⟩
    · rintro ⟨hq, rfl⟩
      exact ⟨d.state, hq, rfl⟩
  unfold moves
  cases hb : input[c.pos]? with
  | none => simp [hmap]
  | some b => simp [hmap]

theorem pos_le_of_mem_moves {c d : Config} (h : d ∈ a.moves input c) (hc : c.pos ≤ input.size) :
    d.pos ≤ input.size := by
  rcases mem_moves_iff.1 h with ⟨b, hb, -, hd⟩ | ⟨-, hd⟩
  · obtain ⟨hlt, -⟩ := Array.getElem?_eq_some_iff.1 hb
    omega
  · omega

def Reaches (a : Nfa) (input : Array UInt8) : Config → Config → Prop :=
  Relation.ReflTransGen fun c d => d ∈ a.moves input c

theorem Reaches.pos_le {c d : Config} (h : a.Reaches input c d) (hc : c.pos ≤ input.size) :
    d.pos ≤ input.size := by
  induction h with
  | refl => exact hc
  | tail _ hd ih => exact pos_le_of_mem_moves hd ih

def root (a : Nfa) : Config := ⟨a.start, 0⟩

/-! ## The number of moves -/

theorem sum_range_transitions (states : List State) :
    ∑ q ∈ Finset.range states.length, (states[q]?.getD {}).transitions.size =
      states.foldr (fun s n => s.transitions.size + n) 0 := by
  induction states with
  | nil => rfl
  | cons s states ih =>
    rw [List.length_cons, Finset.sum_range_succ', List.foldr_cons, ← ih, Nat.add_comm]
    rfl

theorem sum_transitions (a : Nfa) :
    ∑ q ∈ Finset.range a.states.size, (a.state q).transitions.size = a.transitionCount := by
  have hsum := sum_range_transitions a.states.toList
  simp only [Array.length_toList, Array.getElem?_toList] at hsum
  rw [transitionCount, ← Array.foldr_toList, ← hsum]
  simp only [state, Array.getD_eq_getD_getElem?]

def configs (a : Nfa) (length : Nat) : Finset Config :=
  (Finset.range a.states.size ×ˢ Finset.range (length + 1)).image fun p => ⟨p.1, p.2⟩

theorem mem_configs_iff {length : Nat} {c : Config} :
    c ∈ a.configs length ↔ c.state < a.states.size ∧ c.pos ≤ length := by
  simp only [configs, Finset.mem_image, Finset.mem_product, Finset.mem_range, Nat.lt_succ_iff]
  constructor
  · rintro ⟨p, hp, rfl⟩
    exact hp
  · intro hc
    exact ⟨(c.state, c.pos), hc, rfl⟩

theorem config_injective : Function.Injective fun p : Nat × Nat => Config.mk p.1 p.2 := by
  rintro ⟨q, n⟩ ⟨q', n'⟩ h
  cases h
  rfl

theorem card_configs (a : Nfa) (length : Nat) :
    (a.configs length).card = a.states.size * (length + 1) := by
  rw [configs, Finset.card_image_of_injective _ config_injective, Finset.card_product,
    Finset.card_range, Finset.card_range]

/-- Different configurations have no more moves together than there are transitions at each position
of the input. -/
theorem sum_length_moves_le {cs : List Config} (hnodup : cs.Nodup)
    (hpos : ∀ c ∈ cs, c.pos ≤ input.size) :
    (cs.map fun c => (a.moves input c).length).sum ≤ a.transitionCount * (input.size + 1) := by
  have hcover : ∀ c ∈ cs.toFinset, (a.moves input c).length ≠ 0 → c ∈ a.configs input.size :=
    fun c hc hmoves => mem_configs_iff.2 ⟨state_lt_of_moves hmoves, hpos c (List.mem_toFinset.1 hc)⟩
  calc (cs.map fun c => (a.moves input c).length).sum
      = ∑ c ∈ cs.toFinset, (a.moves input c).length := (List.sum_toFinset _ hnodup).symm
    _ ≤ ∑ c ∈ a.configs input.size, (a.moves input c).length :=
      Finset.sum_le_sum_of_ne_zero hcover
    _ ≤ ∑ c ∈ a.configs input.size, (a.state c.state).transitions.size :=
      Finset.sum_le_sum fun c _ => length_moves_le c
    _ = ∑ p ∈ Finset.range a.states.size ×ˢ Finset.range (input.size + 1),
          (a.state p.1).transitions.size :=
      Finset.sum_image fun _ _ _ _ h => config_injective h
    _ = a.transitionCount * (input.size + 1) := by
      rw [Finset.sum_product, ← sum_transitions, Finset.sum_mul]
      refine Finset.sum_congr rfl fun q _ => ?_
      have hsum := @Finset.sum_const_nat _ (Finset.range (input.size + 1)) _
        (fun _ => (a.state q).transitions.size) fun _ _ => rfl
      rw [Finset.card_range, Nat.mul_comm] at hsum
      exact hsum

end Nfa

/-! ## Turns of the loop -/

namespace Search

/-- What one turn of the loop does with the configuration on top of the stack. There is none when a
search is over. -/
inductive Turn (a : Nfa) (input : Array UInt8) : Search → Search → Prop where
  | skip {c : Config} {rest : List Config} {memo : Memo} : c ∈ memo →
    Turn a input ⟨c :: rest, memo, false⟩ ⟨rest, memo, false⟩
  | accept {c : Config} {rest : List Config} {memo : Memo} : c ∉ memo → a.accepts input c = true →
    Turn a input ⟨c :: rest, memo, false⟩ ⟨rest, memo.enter c, true⟩
  | expand {c : Config} {rest : List Config} {memo : Memo} : c ∉ memo →
    a.accepts input c = false →
    Turn a input ⟨c :: rest, memo, false⟩ ⟨a.moves input c ++ rest, memo.enter c, false⟩

theorem turn_step {s : Search} (h : s.isOver = false) : Turn a input s (step a input s) := by
  obtain ⟨stack, memo, accepted⟩ := s
  obtain ⟨rfl, hstack⟩ := Bool.or_eq_false_iff.1 h
  cases stack with
  | nil => cases hstack
  | cons c rest =>
    rw [step_cons]
    by_cases hc : c ∈ memo
    · rw [if_pos hc]
      exact .skip hc
    · rw [if_neg hc]
      cases haccepts : a.accepts input c with
      | true => exact .accept hc haccepts
      | false => exact .expand hc haccepts

theorem Turn.eq_step {s t : Search} (h : Turn a input s t) : t = step a input s := by
  cases h with
  | skip hc => rw [step_cons, if_pos hc]
  | accept hc h => rw [step_cons, if_neg hc, if_pos h]
  | expand hc h => rw [step_cons, if_neg hc, h, if_neg Bool.false_ne_true]

end Search

/-! ## The invariant -/

namespace Memo

theorem not_mem_empty (c : Config) : c ∉ ({} : Memo) := Array.not_mem_empty c

theorem nodup_enter {m : Memo} {c : Config} (h : m.entered.toList.Nodup) (hc : c ∉ m) :
    (m.enter c).entered.toList.Nodup := by
  rw [Memo.enter, Array.toList_push]
  refine List.nodup_append.2 ⟨h, List.nodup_singleton c, ?_⟩
  rintro d hd e he rfl
  rw [List.mem_singleton] at he
  subst he
  exact hc (Array.mem_toList_iff.1 hd)

end Memo

namespace Search

def movesEntered (a : Nfa) (input : Array UInt8) (m : Memo) : Nat :=
  (m.entered.toList.map fun c => (a.moves input c).length).sum

theorem movesEntered_enter (m : Memo) (c : Config) :
    movesEntered a input (m.enter c) = movesEntered a input m + (a.moves input c).length := by
  simp [movesEntered, Memo.enter]

/-- What holds after `steps` turns of a search. Each turn takes one configuration from the stack,
and only moves of entered ones are put there. -/
structure Invariant (a : Nfa) (input : Array UInt8) (steps : Nat) (s : Search) : Prop where
  nodup : s.memo.entered.toList.Nodup
  reached : ∀ c, c ∈ s.memo ∨ c ∈ s.stack → a.Reaches input a.root c
  root_mem : s.accepted = false → a.root ∈ s.memo ∨ a.root ∈ s.stack
  closed : s.accepted = false → ∀ c ∈ s.memo, ∀ d ∈ a.moves input c, d ∈ s.memo ∨ d ∈ s.stack
  rejects : s.accepted = false → ∀ c ∈ s.memo, a.accepts input c = false
  accepts : s.accepted = true → ∃ c ∈ s.memo, a.accepts input c = true
  spent : steps + s.stack.length ≤ movesEntered a input s.memo + 1

theorem invariant_init (a : Nfa) (input : Array UInt8) : Invariant a input 0 (.init a) where
  nodup := List.nodup_nil
  reached c hc := by
    obtain rfl := List.mem_singleton.1 (hc.resolve_left (Memo.not_mem_empty c))
    exact .refl
  root_mem _ := .inr (List.mem_singleton.2 rfl)
  closed _ c hc := absurd hc (Memo.not_mem_empty c)
  rejects _ c hc := absurd hc (Memo.not_mem_empty c)
  accepts := nofun
  spent := Nat.le_refl 1

variable {steps : Nat} {c : Config} {rest : List Config} {memo : Memo}

/-- A configuration that has been entered before is dropped. -/
theorem Invariant.skip (h : Invariant a input steps ⟨c :: rest, memo, false⟩) (hc : c ∈ memo) :
    Invariant a input (steps + 1) ⟨rest, memo, false⟩ := by
  have hkeep : ∀ d, d ∈ memo ∨ d ∈ c :: rest → d ∈ memo ∨ d ∈ rest := by
    rintro d (hd | hd)
    · exact .inl hd
    · rcases List.mem_cons.1 hd with rfl | hd
      · exact .inl hc
      · exact .inr hd
  have hspent := h.spent
  constructor
  case nodup => exact h.nodup
  case reached => exact fun d hd => h.reached d (hd.imp_right (List.mem_cons_of_mem c))
  case root_mem => exact fun _ => hkeep _ (h.root_mem rfl)
  case closed => exact fun _ d hd e he => hkeep e (h.closed rfl d hd e he)
  case rejects => exact h.rejects
  case accepts => nofun
  case spent =>
    simp only [List.length_cons] at hspent ⊢
    omega

theorem Invariant.reached_enter {stack : List Config}
    (h : Invariant a input steps ⟨c :: rest, memo, false⟩)
    (hstack : ∀ d ∈ stack, d ∈ a.moves input c ∨ d ∈ rest) (d : Config)
    (hd : d ∈ memo.enter c ∨ d ∈ stack) : a.Reaches input a.root d := by
  have hc : a.Reaches input a.root c := h.reached c (.inr List.mem_cons_self)
  rcases hd with hd | hd
  · rcases Memo.mem_enter.1 hd with hd | rfl
    · exact h.reached d (.inl hd)
    · exact hc
  · rcases hstack d hd with hd | hd
    · exact hc.tail hd
    · exact h.reached d (.inr (List.mem_cons_of_mem c hd))

theorem Invariant.accept (h : Invariant a input steps ⟨c :: rest, memo, false⟩) (hc : c ∉ memo)
    (haccepts : a.accepts input c = true) :
    Invariant a input (steps + 1) ⟨rest, memo.enter c, true⟩ := by
  have hspent := h.spent
  constructor
  case nodup => exact Memo.nodup_enter h.nodup hc
  case reached => exact h.reached_enter fun _ hd => .inr hd
  case root_mem => nofun
  case closed => nofun
  case rejects => nofun
  case accepts => exact fun _ => ⟨c, Memo.mem_enter.2 (.inr rfl), haccepts⟩
  case spent =>
    rw [movesEntered_enter]
    simp only [List.length_cons] at hspent ⊢
    omega

theorem Invariant.expand (h : Invariant a input steps ⟨c :: rest, memo, false⟩) (hc : c ∉ memo)
    (hrejects : a.accepts input c = false) :
    Invariant a input (steps + 1) ⟨a.moves input c ++ rest, memo.enter c, false⟩ := by
  have hkeep : ∀ d, d ∈ memo ∨ d ∈ c :: rest → d ∈ memo.enter c ∨ d ∈ a.moves input c ++ rest := by
    rintro d (hd | hd)
    · exact .inl (Memo.mem_enter.2 (.inl hd))
    · rcases List.mem_cons.1 hd with rfl | hd
      · exact .inl (Memo.mem_enter.2 (.inr rfl))
      · exact .inr (List.mem_append_right _ hd)
  have hspent := h.spent
  constructor
  case nodup => exact Memo.nodup_enter h.nodup hc
  case reached => exact h.reached_enter fun _ hd => List.mem_append.1 hd
  case root_mem => exact fun _ => hkeep _ (h.root_mem rfl)
  case closed =>
    intro _ d hd e he
    rcases Memo.mem_enter.1 hd with hd | rfl
    · exact hkeep e (h.closed rfl d hd e he)
    · exact .inr (List.mem_append_left rest he)
  case rejects =>
    intro _ d hd
    rcases Memo.mem_enter.1 hd with hd | rfl
    · exact h.rejects rfl d hd
    · exact hrejects
  case accepts => nofun
  case spent =>
    rw [movesEntered_enter]
    simp only [List.length_cons, List.length_append] at hspent ⊢
    omega

theorem Invariant.turn {s t : Search} (h : Invariant a input steps s) (ht : Turn a input s t) :
    Invariant a input (steps + 1) t := by
  cases ht with
  | skip hc => exact h.skip hc
  | accept hc haccepts => exact h.accept hc haccepts
  | expand hc hrejects => exact h.expand hc hrejects

theorem Invariant.steps_le {s : Search} (h : Invariant a input steps s) :
    steps + s.stack.length ≤ a.visitBound input.size := by
  have hpos : ∀ c ∈ s.memo.entered.toList, c.pos ≤ input.size := fun c hc =>
    (h.reached c (.inl (Array.mem_toList_iff.1 hc))).pos_le (Nat.zero_le _)
  exact Nat.le_trans h.spent (Nat.succ_le_succ (Nfa.sum_length_moves_le h.nodup hpos))

/-! ## Runs -/

inductive After (a : Nfa) (input : Array UInt8) : Nat → Search → Prop where
  | start : After a input 0 (.init a)
  | turn {n : Nat} {s t : Search} : After a input n s → Turn a input s t →
    After a input (n + 1) t

theorem After.invariant {n : Nat} {s : Search} (h : After a input n s) :
    Invariant a input n s := by
  induction h with
  | start => exact invariant_init a input
  | turn _ ht ih => exact ih.turn ht

/-- A run goes through turns of the loop and ends early only when the search is over. -/
theorem After.run {n : Nat} {s : Search} (h : After a input n s) (fuel : Nat) :
    ∃ turns, After a input (n + turns) (run a input fuel s) ∧
      ((run a input fuel s).isOver = true ∨ turns = fuel) := by
  induction fuel generalizing n s with
  | zero => exact ⟨0, h, .inr rfl⟩
  | succ fuel ih =>
    rw [run_succ]
    cases hover : s.isOver with
    | true => exact ⟨0, h, .inl hover⟩
    | false =>
      obtain ⟨turns, hrun, hend⟩ := ih (h.turn (turn_step hover))
      rw [Nat.add_assoc, Nat.add_comm 1] at hrun
      exact ⟨turns + 1, hrun, hend.imp_right (congrArg (· + 1))⟩

end Search

/-! ## Results -/

namespace Nfa

/-- Its fuel suffices, so a search always ends by itself. -/
theorem search_isOver (a : Nfa) (input : List UInt8) :
    (a.search input).isOver = true ∧
      ∃ turns, Search.After a input.toArray turns (a.search input) := by
  have hstart : Search.After a input.toArray 0 (.init a) := .start
  obtain ⟨turns, h, hend⟩ := hstart.run (a.visitBound input.length)
  refine ⟨?_, _, h⟩
  rcases hend with hover | hturns
  · exact hover
  · have hle := h.invariant.steps_le
    rw [hturns, Nat.zero_add, List.size_toArray] at hle
    have hstack : (a.search input).stack = [] := List.length_eq_zero_iff.1 (by
      unfold search
      omega)
    simp [Search.isOver, hstack]

theorem nodup_memo_search (a : Nfa) (input : List UInt8) :
    (a.search input).memo.entered.toList.Nodup := by
  obtain ⟨-, turns, h⟩ := a.search_isOver input
  exact h.invariant.nodup

theorem reaches_of_mem_memo_search {input : List UInt8} {c : Config}
    (hc : c ∈ (a.search input).memo) : a.Reaches input.toArray a.root c := by
  obtain ⟨-, turns, h⟩ := a.search_isOver input
  exact h.invariant.reached c (.inl hc)

/-- If nothing is accepted, exactly the configurations that can be reached are entered. -/
theorem mem_memo_search_iff {input : List UInt8} (h : (a.search input).accepted = false)
    {c : Config} : c ∈ (a.search input).memo ↔ a.Reaches input.toArray a.root c := by
  obtain ⟨hover, turns, hafter⟩ := a.search_isOver input
  have hstack : (a.search input).stack = [] := by simpa [Search.isOver, h] using hover
  refine ⟨reaches_of_mem_memo_search, fun hc => ?_⟩
  induction hc with
  | refl => simpa [hstack] using hafter.invariant.root_mem h
  | tail _ hd ih => simpa [hstack] using hafter.invariant.closed h _ ih _ hd

theorem search_accepted_iff {input : List UInt8} :
    (a.search input).accepted = true ↔
      ∃ c, a.Reaches input.toArray a.root c ∧ a.accepts input.toArray c = true := by
  obtain ⟨-, turns, hafter⟩ := a.search_isOver input
  constructor
  · intro h
    obtain ⟨c, hc, haccepts⟩ := hafter.invariant.accepts h
    exact ⟨c, reaches_of_mem_memo_search hc, haccepts⟩
  · rintro ⟨c, hc, haccepts⟩
    by_contra h
    have hfalse := Bool.eq_false_of_not_eq_true h
    have hrejects := hafter.invariant.rejects hfalse c ((mem_memo_search_iff hfalse).2 hc)
    rw [haccepts] at hrejects
    cases hrejects

end Nfa

end ByteRegex
