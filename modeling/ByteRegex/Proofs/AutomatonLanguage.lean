import ByteRegex.Proofs.FragmentLanguage

/-!
# Languages of automata

A state accepts the words that are spelled on the way from it to an accepting state. The start of
the automaton of a list of terms accepts the language of these terms.
-/

namespace ByteRegex

namespace Arena

variable {a : Arena} {p q : Nat}

theorem edges_empty : edges #[] = ∅ := Set.eq_empty_of_forall_notMem fun _ he => by cases he

theorem starting_empty : starting #[] = ∅ := Set.eq_empty_of_forall_notMem fun _ hq => by cases hq

theorem accepting_empty : accepting #[] = ∅ := Set.eq_empty_of_forall_notMem fun _ hq => by cases hq

theorem edges_modify {f : State → State} (hf : ∀ s, (f s).transitions = s.transitions)
    (hp : p < a.size) : edges (a.modify p f) = a.edges := by
  ext e
  rw [mem_edges_iff, state_modify f hp, mem_edges_iff]
  split
  · rw [hf]
  · rfl

theorem edges_mark (hp : p < a.size) (hq : q < a.size) : edges (mark p q a) = a.edges := by
  have hq' : q < (a.modify p fun s => { s with isStart := true }).size := by
    rwa [Array.size_modify]
  have haccept := edges_modify (f := fun s => { s with isAccept := true }) (fun _ => rfl) hq'
  have hstart := edges_modify (f := fun s => { s with isStart := true }) (fun _ => rfl) hp
  exact haccept.trans hstart

theorem starting_mark (hp : p < a.size) (hq : q < a.size) :
    starting (mark p q a) = insert p a.starting := by
  have hq' : q < (a.modify p fun s => { s with isStart := true }).size := by
    rwa [Array.size_modify]
  have haccept := starting_modify (f := fun s => { s with isAccept := true }) (fun _ => rfl) hq'
  rw [mark, haccept]
  ext r
  simp only [starting, state_modify _ hp, Set.mem_ofPred_eq, Set.mem_insert_iff]
  by_cases hr : r = p <;> simp [hr]

theorem accepting_mark (hp : p < a.size) (hq : q < a.size) :
    accepting (mark p q a) = insert q a.accepting := by
  have hq' : q < (a.modify p fun s => { s with isStart := true }).size := by
    rwa [Array.size_modify]
  have hstart := accepting_modify (f := fun s => { s with isStart := true }) (fun _ => rfl) hp
  rw [← hstart]
  ext r
  simp only [mark, accepting, state_modify _ hq', Set.mem_ofPred_eq, Set.mem_insert_iff]
  by_cases hr : r = q <;> simp [hr]

end Arena

namespace Nfa

inductive Accepts (a : Nfa) : Nat → List UInt8 → Prop where
  | accept {q : Nat} : (a.state q).isAccept = true → Accepts a q []
  | move {q q' : Nat} {s : Symbol} {w : List UInt8} :
    q' ∈ a.targets q s → Accepts a q' w → Accepts a q (s.bytes ++ w)

def language (a : Nfa) (q : Nat) : Language UInt8 := {w | a.Accepts q w}

theorem closed_language (a : Nfa) : Closed (Arena.edges a.states) a.language :=
  fun _ he _ hw => Accepts.move he hw

/-- A closed labelling has at least the words that are accepted. -/
theorem Accepts.mem_of_closed {a : Nfa} {V : Nat → Language UInt8}
    (hV : Closed (Arena.edges a.states) V) (haccept : ∀ q ∈ Arena.accepting a.states, [] ∈ V q)
    {q : Nat} {w : List UInt8} (h : a.Accepts q w) : w ∈ V q := by
  induction h with
  | accept hq => exact haccept _ hq
  | @move q q' s w ht _ ih => exact hV ⟨q, s, q'⟩ ht w ih

/-- The automaton consists of a fragment for a list of terms between a start and an accepting state,
which come after the states of the fragment. -/
structure Frames (a : Nfa) (ts : List Term) (G : Set Edge) (body : Fragment) : Prop where
  wires : Wires (.list ts) G 0 a.start body.start body.stop
  size_eq : a.states.size = a.start + 2
  edges_eq : Arena.edges a.states = insert (Edge.silent body.stop (a.start + 1))
    (insert (Edge.silent a.start body.start) G)
  starting_eq : Arena.starting a.states = {a.start}
  accepting_eq : Arena.accepting a.states = {a.start + 1}

theorem exists_frames_of_ofTerms? {limit : Nat} {ts : List Term} {nfa : Nfa}
    (hs : Term.Every Term.IsSound ts) (h : ofTerms? limit ts = some nfa) :
    ∃ G body, nfa.Frames ts G body := by
  obtain ⟨⟨body, a⟩, hbody, h⟩ := Option.bind_eq_some_iff.1 h
  have h := Arena.of_fresh_bind (Arena.of_fresh_bind h)
  rw [Array.size_push] at h
  obtain ⟨c, hc⟩ : ∃ c, c = Arena.link body.stop (a.size + 1)
    (Arena.link a.size body.start ((a.push {}).push {})) := ⟨_, rfl⟩
  simp only [← hc] at h
  obtain rfl : ⟨Arena.mark a.size (a.size + 1) c, a.size⟩ = nfa := Option.some.inj h
  obtain ⟨G, hG, hwires⟩ := Arena.growsBy_concat ts hs hbody
  have hstop := hwires.bounds.2
  have hsize : c.size = a.size + 2 := by
    rw [hc, Arena.size_link, Arena.size_link, Arena.size_push_push]
  have hpush : Arena.Grows #[] ((a.push {}).push {}) G := by
    have hgrows := hG.trans ((Arena.grows_push a).trans (Arena.grows_push (a.push {})))
    rwa [Set.union_empty, Set.union_empty] at hgrows
  have hpushed := Arena.size_push_push a
  have hgrows := (hpush.link (p := a.size) (q := body.start) (by omega)).link (p := body.stop)
    (q := a.size + 1) (by rw [Arena.size_link]; omega)
  rw [← hc] at hgrows
  have hstart : a.size < c.size := by omega
  have haccept : a.size + 1 < c.size := by omega
  refine ⟨G, body, hwires, ?_, ?_, ?_, ?_⟩
  · rw [Arena.size_mark, hsize]
  · rw [Arena.edges_mark hstart haccept, hgrows.edges, Arena.edges_empty, Set.empty_union]
  · rw [Arena.starting_mark hstart haccept, hgrows.starting, Arena.starting_empty]
    exact insert_empty_eq _
  · rw [Arena.accepting_mark hstart haccept, hgrows.accepting, Arena.accepting_empty]
    exact insert_empty_eq _

/-- The start accepts exactly the language of the terms. -/
theorem language_start {limit : Nat} {ts : List Term} {nfa : Nfa}
    (hs : Term.Every Term.IsSound ts) (h : ofTerms? limit ts = some nfa) :
    nfa.language nfa.start = Term.languageAll ts := by
  obtain ⟨G, body, hframes⟩ := exists_frames_of_ofTerms? hs h
  have hspells := hframes.wires.spells
  have hedges := hframes.edges_eq
  have haccepting := hframes.accepting_eq
  have hclosed := nfa.closed_language
  rw [hedges, closed_insert_silent, closed_insert_silent] at hclosed
  obtain ⟨hexit, hentry, hG⟩ := hclosed
  apply le_antisymm
  · obtain ⟨V, hV, hone, hstart⟩ := hspells.sound 1
    have hbody := hspells.start_mem
    have hstop := hspells.stop_mem
    obtain ⟨W, hW, hW', hsame⟩ : ∃ W : Nat → Language UInt8,
        W nfa.start = Term.languageAll ts ∧ W (nfa.start + 1) = 1 ∧ ∀ q < nfa.start, W q = V q := by
      refine ⟨glue nfa.start V (glue (nfa.start + 1) (fun _ => Term.languageAll ts) fun _ => 1),
        ?_, ?_, fun q hq => glue_of_lt hq⟩
      · rw [glue_of_le (Nat.le_refl _), glue_of_lt (Nat.lt_succ_self _)]
      · rw [glue_of_le (Nat.le_succ _), glue_of_le (Nat.le_refl _)]
    have hclosed : Closed (Arena.edges nfa.states) W := by
      rw [hedges, closed_insert_silent, closed_insert_silent, hW, hW', hsame _ hstop.2,
        hsame _ hbody.2]
      rw [mul_one] at hstart
      refine ⟨hone, hstart, hV.congr fun e he => ?_⟩
      obtain ⟨hsource, htarget⟩ := hspells.within e he
      exact ⟨hsame _ hsource.2, hsame _ htarget.2⟩
    have haccept : ∀ q ∈ Arena.accepting nfa.states, [] ∈ W q := by
      rw [haccepting]
      rintro q rfl
      rw [hW']
      rfl
    intro w hw
    rw [← hW]
    exact Accepts.mem_of_closed hclosed haccept hw
  · have haccept : 1 ≤ nfa.language (nfa.start + 1) := by
      rintro w rfl
      apply Accepts.accept
      change nfa.start + 1 ∈ Arena.accepting nfa.states
      rw [haccepting]
      rfl
    calc Term.languageAll ts = Term.languageAll ts * 1 := (mul_one _).symm
      _ ≤ Term.languageAll ts * nfa.language body.stop :=
        mul_le_mul_right (le_trans haccept hexit) _
      _ ≤ nfa.language body.start := hspells.complete _ hG
      _ ≤ nfa.language nfa.start := hentry

end Nfa

end ByteRegex
