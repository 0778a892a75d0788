import ByteRegex.Proofs.AutomatonSize
import ByteRegex.Proofs.FragmentPaths
import ByteRegex.Proofs.MatchLanguage

/-!
# Trim automata

The automaton of a pattern has one start and one accepting state, no transition out of its bounds,
and no state that could be left out: every state is on a path from the start to the accepting
state. So every pattern that compiles matches some input.
-/

namespace ByteRegex

namespace Nfa

def Steps (a : Nfa) (p q : Nat) : Prop := ∃ s, q ∈ a.targets p s

/-- The last two states are the start and the accepting state, and every state is on a path from
one to the other. -/
structure IsTrim (a : Nfa) : Prop where
  size_eq : a.states.size = a.start + 2
  isStart_iff : ∀ q, (a.state q).isStart = true ↔ q = a.start
  isAccept_iff : ∀ q, (a.state q).isAccept = true ↔ q = a.start + 1
  transitions_accept : (a.state (a.start + 1)).transitions = ∅
  target_ne_start : ∀ p q, a.Steps p q → q ≠ a.start
  target_lt_size : ∀ p q, a.Steps p q → q < a.states.size
  reachable : ∀ q < a.states.size, Relation.ReflTransGen a.Steps a.start q
  coreachable : ∀ q < a.states.size, Relation.ReflTransGen a.Steps q (a.start + 1)

variable {a : Nfa} {ts : List Term} {G : Set Edge} {body : Fragment}

/-! ## Framed fragments -/

namespace Frames

theorem mem_edges_cases (h : a.Frames ts G body) {e : Edge} (he : e ∈ Arena.edges a.states) :
    e = Edge.silent body.stop (a.start + 1) ∨ e = Edge.silent a.start body.start ∨ e ∈ G := by
  rw [h.edges_eq] at he
  exact he

theorem source_lt (h : a.Frames ts G body) {e : Edge} (he : e ∈ Arena.edges a.states) :
    e.source < a.start + 1 := by
  have hstop : body.stop < a.start := h.wires.bounds.2.2
  rcases h.mem_edges_cases he with rfl | rfl | he
  · exact Nat.lt_succ_of_lt hstop
  · exact Nat.lt_succ_self _
  · exact Nat.lt_succ_of_lt (h.wires.spells.within e he).1.2

theorem target_cases (h : a.Frames ts G body) {e : Edge} (he : e ∈ Arena.edges a.states) :
    e.target = a.start + 1 ∨ e.target < a.start := by
  rcases h.mem_edges_cases he with rfl | rfl | he
  · exact .inl rfl
  · exact .inr h.wires.bounds.1.2
  · exact .inr (h.wires.spells.within e he).2.2

/-- The path of a state in the fragment goes on to the start in front and the accepting state
behind. -/
theorem spans (h : a.Frames ts G body) :
    Spans (Arena.edges a.states) {q | q < a.start + 2} a.start (a.start + 1) := by
  have hbody : Spans (Arena.edges a.states) {q | 0 ≤ q ∧ q < a.start} body.start body.stop := by
    apply Spans.mono h.wires.spans
    rw [h.edges_eq]
    exact fun e he => .inr (.inr he)
  have hin : Edge.silent a.start body.start ∈ Arena.edges a.states := by
    rw [h.edges_eq]
    exact .inr (.inl rfl)
  have hout : Edge.silent body.stop (a.start + 1) ∈ Arena.edges a.states := by
    rw [h.edges_eq]
    exact .inl rfl
  refine (hbody.branch h.wires.bounds.1 h.wires.bounds.2 (fun e he => he) hin hout).subset ?_
  intro q hq
  simp only [Set.mem_ofPred_eq, Set.mem_union, Set.mem_singleton_iff] at hq ⊢
  omega

theorem isTrim (h : a.Frames ts G body) : a.IsTrim where
  size_eq := h.size_eq
  isStart_iff q := Set.ext_iff.1 h.starting_eq q
  isAccept_iff q := Set.ext_iff.1 h.accepting_eq q
  transitions_accept := by
    apply Transitions.eq_empty_of_targets
    intro s
    refine List.eq_nil_iff_forall_not_mem.2 fun q hq => ?_
    have hsource := h.source_lt (e := ⟨a.start + 1, s, q⟩) hq
    exact absurd hsource (Nat.lt_irrefl _)
  target_ne_start := by
    rintro p q ⟨s, hq⟩
    have htarget := h.target_cases (e := ⟨p, s, q⟩) hq
    simp only at htarget
    omega
  target_lt_size := by
    rintro p q ⟨s, hq⟩
    have htarget := h.target_cases (e := ⟨p, s, q⟩) hq
    rw [h.size_eq]
    simp only at htarget
    omega
  reachable := by
    intro q hq
    rw [h.size_eq] at hq
    exact (h.spans q hq).1
  coreachable := by
    intro q hq
    rw [h.size_eq] at hq
    exact (h.spans q hq).2

end Frames

/-! ## Words on paths -/

theorem exists_accepts_of_steps {p q : Nat} (h : Relation.ReflTransGen a.Steps p q)
    (hq : (a.state q).isAccept = true) : ∃ w, a.Accepts p w := by
  induction h using Relation.ReflTransGen.head_induction_on with
  | refl => exact ⟨[], .accept hq⟩
  | head hstep _ ih =>
    obtain ⟨s, hs⟩ := hstep
    obtain ⟨w, hw⟩ := ih
    exact ⟨s.bytes ++ w, .move hs hw⟩

theorem IsTrim.exists_accepts (h : a.IsTrim) : ∃ w, a.Accepts a.start w := by
  have haccept : a.start + 1 < a.states.size := by
    rw [h.size_eq]
    exact Nat.lt_succ_self _
  exact exists_accepts_of_steps (h.reachable _ haccept) ((h.isAccept_iff _).2 rfl)

theorem size_le_of_ofTerms? {limit : Nat} (hs : Term.Every Term.IsSound ts)
    (h : ofTerms? limit ts = some a) : a.states.size ≤ limit := by
  obtain ⟨nfa, hsize, hnfa⟩ := exists_ofTerms?_eq hs
  rw [hnfa] at h
  split at h
  · next hlimit =>
    cases h
    rwa [hsize]
  · cases h

end Nfa

namespace Regex

/-- The automaton of a pattern is trim, its states have numbers of 32 bits, and some input takes it
from its start to its accepting state. -/
theorem nfa_isTrim_of_compile {limits : Limits} {pattern : List UInt8} {r : Regex}
    (h : compile limits pattern = .ok r) :
    r.nfa.IsTrim ∧ r.stateCount ≤ 4294967295 ∧ ∃ input, r.isMatch input = true := by
  obtain ⟨hp, hn, -⟩ := compile_eq_ok_iff.1 h
  have hsound := (parses_of_parse hp).every_isSound
  obtain ⟨G, body, hframes⟩ := Nfa.exists_frames_of_ofTerms? hsound hn
  refine ⟨hframes.isTrim, ?_, ?_⟩
  · exact Nat.le_trans (Nfa.size_le_of_ofTerms? hsound hn) (Nat.min_le_right _ _)
  · obtain ⟨w, hw⟩ := hframes.isTrim.exists_accepts
    exact ⟨w, Nfa.search_accepted_iff_mem_language.2 hw⟩

/-- The pattern is `(|[ab])+`, which has an empty branch, a class and a loop. -/
theorem nfa_isTrim_of_repeated_class :
    ∃ r, compile {} [40, 124, 91, 97, 98, 93, 41, 43] = .ok r ∧
      r.nfa.IsTrim ∧ r.stateCount ≤ 4294967295 ∧ ∃ input, r.isMatch input = true := by
  obtain ⟨r, hr⟩ : ∃ r, compile {} [40, 124, 91, 97, 98, 93, 41, 43] = .ok r := ⟨_, rfl⟩
  exact ⟨r, hr, nfa_isTrim_of_compile hr⟩

end Regex

end ByteRegex
