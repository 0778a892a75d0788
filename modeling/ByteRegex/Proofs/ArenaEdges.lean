import ByteRegex.Proofs.FragmentGraphs

/-!
# Edges of an arena

An arena as a graph, and how the graph grows with each operation on the arena. The marked states
are tracked along with the edges: construction adds none.
-/

namespace ByteRegex

theorem Transitions.mem_targets_add {t : Transitions} {symbol s : Symbol} {target q : Nat} :
    q ∈ (t.add symbol target).targets s ↔ (s = symbol ∧ q = target) ∨ q ∈ t.targets s := by
  rw [targets_add]
  by_cases h : s = symbol
  · rw [if_pos h, List.mem_append, List.mem_singleton, h]
    simp [or_comm]
  · simp [h]

theorem Transitions.mem_targets_ofClass {c : ByteClass} {s : Symbol} {target q : Nat} :
    q ∈ (ofClass c target).targets s ↔ (∃ b ∈ c, s = .byte b) ∧ q = target := by
  have hlookup : ∀ bs : List UInt8,
      ((bs.map fun b => (Symbol.byte b, [target])).lookup s).getD [] =
        if ∃ b ∈ bs, s = .byte b then [target] else [] := by
    intro bs
    induction bs with
    | nil => simp
    | cons b bs ih =>
      rw [List.map_cons, List.lookup_cons]
      by_cases h : s = .byte b
      · simp [h]
      · rw [beq_false_of_ne h, ih]
        simp [h]
  have hmembers : (∃ b ∈ c.members, s = .byte b) ↔ ∃ b ∈ c, s = .byte b := by
    simp only [ByteClass.mem_members]
  rw [targets, ofClass, hlookup, ← hmembers]
  by_cases h : ∃ b ∈ c.members, s = .byte b
  · rw [if_pos h, List.mem_singleton]
    exact ⟨fun hq => ⟨h, hq⟩, fun hq => hq.2⟩
  · rw [if_neg h]
    exact ⟨fun hq => absurd hq List.not_mem_nil, fun hq => absurd hq.1 h⟩

namespace Arena

def state (a : Arena) (q : Nat) : State := a.getD q {}

def edges (a : Arena) : Set Edge :=
  {e | e.target ∈ (a.state e.source).transitions.targets e.symbol}

def starting (a : Arena) : Set Nat := {q | (a.state q).isStart = true}

def accepting (a : Arena) : Set Nat := {q | (a.state q).isAccept = true}

variable {a b c : Arena} {p q n : Nat} {G H : Set Edge}

theorem mem_edges_iff {e : Edge} :
    e ∈ a.edges ↔ e.target ∈ (a.state e.source).transitions.targets e.symbol := Iff.rfl

theorem size_push_push (a : Arena) : ((a.push {}).push {}).size = a.size + 2 := by
  simp only [Array.size_push]

theorem state_push : state (a.push {}) q = a.state q := by
  unfold state
  rw [Array.getD_eq_getD_getElem?, Array.getD_eq_getD_getElem?, Array.getElem?_push]
  split
  · next h => simp [h]
  · rfl

theorem state_modify (f : State → State) (h : p < a.size) :
    state (a.modify p f) q = if q = p then f (a.state q) else a.state q := by
  unfold state
  rw [Array.getD_eq_getD_getElem?, Array.getD_eq_getD_getElem?, Array.getElem?_modify]
  by_cases hq : q = p
  · subst hq
    simp [h]
  · rw [if_neg (Ne.symm hq), if_neg hq]

theorem source_lt_of_mem_edges {e : Edge} (h : e ∈ a.edges) : e.source < a.size := by
  by_contra hsize
  rw [mem_edges_iff, state, Array.getD_eq_getD_getElem?,
    Array.getElem?_eq_none (Nat.le_of_not_lt hsize)] at h
  cases h

/-! ## Growth -/

/-- `b` has the edges of `G` besides those of `a`, and the same states are marked. -/
structure Grows (a b : Arena) (G : Set Edge) : Prop where
  edges : b.edges = a.edges ∪ G
  starting : b.starting = a.starting
  accepting : b.accepting = a.accepting

theorem Grows.refl (a : Arena) : Grows a a ∅ := ⟨(Set.union_empty _).symm, rfl, rfl⟩

theorem Grows.trans (h : Grows a b G) (h' : Grows b c H) : Grows a c (G ∪ H) := by
  constructor
  · rw [h'.edges, h.edges, Set.union_assoc]
  · rw [h'.starting, h.starting]
  · rw [h'.accepting, h.accepting]

theorem edges_push : edges (a.push {}) = a.edges := by
  ext e
  rw [mem_edges_iff, state_push, mem_edges_iff]

theorem grows_push (a : Arena) : Grows a (a.push {}) ∅ := by
  constructor
  · rw [edges_push, Set.union_empty]
  · ext q
    simp [starting, state_push]
  · ext q
    simp [accepting, state_push]

theorem Grows.of_push (h : Grows (a.push {}) b G) : Grows a b G := by
  have hgrows := (grows_push a).trans h
  rwa [Set.empty_union] at hgrows

theorem starting_modify {f : State → State} (hf : ∀ s, (f s).isStart = s.isStart)
    (hp : p < a.size) : starting (a.modify p f) = a.starting := by
  ext r
  simp only [starting, state_modify f hp, Set.mem_ofPred_eq]
  split
  · rw [hf]
  · rfl

theorem accepting_modify {f : State → State} (hf : ∀ s, (f s).isAccept = s.isAccept)
    (hp : p < a.size) : accepting (a.modify p f) = a.accepting := by
  ext r
  simp only [accepting, state_modify f hp, Set.mem_ofPred_eq]
  split
  · rw [hf]
  · rfl

theorem grows_connect (symbol : Symbol) (hp : p < a.size) :
    Grows a (connect p symbol q a) {⟨p, symbol, q⟩} := by
  refine ⟨?_, starting_modify (fun _ => rfl) hp, accepting_modify (fun _ => rfl) hp⟩
  ext ⟨source, s, target⟩
  simp only [connect, mem_edges_iff, state_modify _ hp, Set.mem_union, Set.mem_singleton_iff,
    Edge.mk.injEq]
  by_cases hs : source = p
  · simp only [hs, if_true, State.addTransition, Transitions.mem_targets_add, true_and, or_comm]
  · simp only [hs, if_false, false_and, or_false]

theorem Grows.link (h : Grows a b G) (hp : p < b.size) :
    Grows a (link p q b) (insert (Edge.silent p q) G) := by
  have hgrows := h.trans (grows_connect (q := q) .epsilon hp)
  rwa [Set.union_singleton] at hgrows

theorem Grows.link_of {P : Prop} [Decidable P] (h : Grows a b G) (hp : p < b.size) :
    Grows a (if P then Arena.link p q b else b) ({e | P ∧ e = Edge.silent p q} ∪ G) := by
  by_cases hP : P
  · simpa [hP] using h.link hp
  · simpa [hP] using h

theorem Grows.attach (h : Grows a b G) (min stop ordinal : Nat) {copy next : Fragment}
    (hcopy : copy.stop < b.size) (hnext : next.start < b.size) :
    Grows a (attach min stop ordinal copy next b)
      ({e | min < ordinal ∧ e = Edge.silent next.start stop} ∪
        insert (Edge.silent copy.stop next.start) G) :=
  (h.link hcopy).link_of (by rwa [size_link])

theorem grows_connectClass (c : ByteClass) (hp : p < a.size)
    (hfresh : ∀ e ∈ a.edges, e.source ≠ p) :
    Grows a (connectClass p c q a)
      {e | e.source = p ∧ e.symbol ∈ {s | ∃ b ∈ c, s = .byte b} ∧ e.target = q} := by
  refine ⟨?_, starting_modify (fun _ => rfl) hp, accepting_modify (fun _ => rfl) hp⟩
  ext e
  rw [Set.mem_union, mem_edges_iff, connectClass, state_modify _ hp]
  by_cases hs : e.source = p
  · have hnone : e ∉ a.edges := fun he => hfresh e he hs
    rw [if_pos hs, Transitions.mem_targets_ofClass, or_iff_right hnone]
    exact (and_iff_right hs).symm
  · rw [if_neg hs]
    exact (or_iff_left fun he => hs he.1).symm

end Arena

end ByteRegex
