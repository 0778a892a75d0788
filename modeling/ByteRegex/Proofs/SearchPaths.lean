import ByteRegex.Log
import ByteRegex.Proofs.SearchExactness

/-!
# Paths found by a search

What a search decides and what it enters, in terms of paths through the automaton alone. The verdict
depends on which transitions there are and not on their order, and so does the number of
configurations entered if nothing is accepted.
-/

namespace ByteRegex

namespace Nfa

inductive Move (a : Nfa) (input : List UInt8) : Config → Config → Prop where
  | silent {p q pos : Nat} : (.epsilon, q) ∈ (a.state p).transitions.toList →
    Move a input ⟨p, pos⟩ ⟨q, pos⟩
  | consume {p q pos : Nat} {b : UInt8} : input[pos]? = some b →
    (.byte b, q) ∈ (a.state p).transitions.toList → Move a input ⟨p, pos⟩ ⟨q, pos + 1⟩

def Path (a : Nfa) (input : List UInt8) : Config → Config → Prop :=
  Relation.ReflTransGen (a.Move input)

/-- The same start, accepting states and transitions, which may come in another order and any number
of times. -/
structure SameTransitions (a b : Nfa) : Prop where
  start_eq : a.start = b.start
  isAccept_eq : ∀ q, (a.state q).isAccept = (b.state q).isAccept
  mem_transitions_iff : ∀ p s q,
    (s, q) ∈ (a.state p).transitions.toList ↔ (s, q) ∈ (b.state p).transitions.toList

variable {a b : Nfa} {input : List UInt8} {c d : Config}

theorem move_iff_mem_moves : a.Move input c d ↔ d ∈ a.moves input.toArray c := by
  rw [mem_moves_iff, List.getElem?_toArray]
  constructor
  · rintro (hq | ⟨hb, hq⟩)
    · exact .inr ⟨Transitions.mem_targets_iff.2 hq, rfl⟩
    · exact .inl ⟨_, hb, Transitions.mem_targets_iff.2 hq, rfl⟩
  · obtain ⟨q, pos⟩ := d
    rintro (⟨b, hb, hq, rfl⟩ | ⟨hq, rfl⟩)
    · exact .consume hb (Transitions.mem_targets_iff.1 hq)
    · exact .silent (Transitions.mem_targets_iff.1 hq)

theorem path_iff_reaches : a.Path input c d ↔ a.Reaches input.toArray c d := by
  have hmoves : a.Move input = fun c d => d ∈ a.moves input.toArray c := by
    funext c d
    exact propext move_iff_mem_moves
  rw [Path, Reaches, hmoves]

theorem pos_le_of_path (h : a.Path input a.root c) : c.pos ≤ input.length :=
  (path_iff_reaches.1 h).pos_le (Nat.zero_le _)

/-! ## Order of transitions -/

namespace SameTransitions

theorem symm (h : a.SameTransitions b) : b.SameTransitions a where
  start_eq := h.start_eq.symm
  isAccept_eq q := (h.isAccept_eq q).symm
  mem_transitions_iff p s q := (h.mem_transitions_iff p s q).symm

theorem root_eq (h : a.SameTransitions b) : a.root = b.root := by
  rw [root, root, h.start_eq]

theorem path (h : a.SameTransitions b) (hpath : a.Path input c d) : b.Path input c d := by
  refine Relation.ReflTransGen.mono ?_ c d hpath
  rintro _ _ (hq | ⟨hb, hq⟩)
  · exact .silent ((h.mem_transitions_iff _ _ _).1 hq)
  · exact .consume hb ((h.mem_transitions_iff _ _ _).1 hq)

theorem path_iff (h : a.SameTransitions b) : a.Path input c d ↔ b.Path input c d :=
  ⟨h.path, h.symm.path⟩

end SameTransitions

/-! ## Verdicts and memos -/

theorem search_accepted_iff_path : (a.search input).accepted = true ↔
    ∃ q, a.Path input a.root ⟨q, input.length⟩ ∧ (a.state q).isAccept = true := by
  rw [search_accepted_iff]
  constructor
  · rintro ⟨⟨q, pos⟩, hc, haccepts⟩
    obtain ⟨hend, haccept⟩ := Bool.and_eq_true_iff.1 haccepts
    have hpath := path_iff_reaches.2 hc
    obtain rfl : pos = input.length :=
      Nat.le_antisymm (pos_le_of_path hpath) (by simpa using hend)
    exact ⟨q, hpath, haccept⟩
  · rintro ⟨q, hpath, haccept⟩
    refine ⟨_, path_iff_reaches.1 hpath, ?_⟩
    simp [accepts, haccept]

theorem SameTransitions.accepted_search (h : a.SameTransitions b) :
    (b.search input).accepted = (a.search input).accepted := by
  rw [Bool.eq_iff_iff, search_accepted_iff_path, search_accepted_iff_path, ← h.root_eq]
  refine exists_congr fun q => ?_
  rw [h.path_iff, h.isAccept_eq]

theorem mem_memo_search_iff_path (h : (a.search input).accepted = false) :
    c ∈ (a.search input).memo ↔ a.Path input a.root c :=
  (mem_memo_search_iff h).trans path_iff_reaches.symm

/-- Both memos hold the same configurations once each, entered in whatever order. -/
theorem SameTransitions.size_memo_search (h : a.SameTransitions b)
    (hfails : (a.search input).accepted = false) :
    (b.search input).memo.size = (a.search input).memo.size := by
  have hfails' : (b.search input).accepted = false := h.accepted_search.trans hfails
  have hperm : (b.search input).memo.entered.toList.Perm (a.search input).memo.entered.toList := by
    refine (List.perm_ext_iff_of_nodup (b.nodup_memo_search input) (a.nodup_memo_search input)).2 ?_
    intro c
    rw [Array.mem_toList_iff, Array.mem_toList_iff]
    change c ∈ (b.search input).memo ↔ c ∈ (a.search input).memo
    rw [mem_memo_search_iff_path hfails, mem_memo_search_iff_path hfails', ← h.root_eq, h.path_iff]
  exact hperm.length_eq

/-- A search accepts exactly if a path leads from the start to an accepting state at the end of the
input, and enters only configurations to which some path leads. If it does not accept, it enters all
of these, and neither the verdict nor what is then logged depends on the order of transitions. -/
theorem search_exact (a : Nfa) (input : List UInt8) :
    ((a.search input).accepted = true ↔
      ∃ q, a.Path input ⟨a.start, 0⟩ ⟨q, input.length⟩ ∧ (a.state q).isAccept = true) ∧
    (∀ c ∈ (a.search input).memo, a.Path input ⟨a.start, 0⟩ c) ∧
    ((a.search input).accepted = false →
      ∀ c, c ∈ (a.search input).memo ↔ a.Path input ⟨a.start, 0⟩ c) ∧
    ∀ b : Nfa, a.SameTransitions b →
      (b.search input).accepted = (a.search input).accepted ∧
      ((a.search input).accepted = false →
        (b.search input).memo.size = (a.search input).memo.size ∧
        ∀ r r' : Regex, r.nfa = a → r'.nfa = b → r'.matchRecord input = r.matchRecord input) := by
  refine ⟨search_accepted_iff_path, ?_, fun hfails c => mem_memo_search_iff_path hfails, ?_⟩
  · exact fun c hc => path_iff_reaches.2 (reaches_of_mem_memo_search hc)
  · intro b h
    refine ⟨h.accepted_search, fun hfails => ⟨h.size_memo_search hfails, ?_⟩⟩
    rintro r r' rfl rfl
    simp only [Regex.matchRecord, h.accepted_search, h.size_memo_search hfails]

end Nfa

end ByteRegex
