import ByteRegex.Proofs.FragmentCopies

/-!
# Self-contained fragments

Construction leaves the states of an arena as they are, and what it adds to them leads from new
states to new states and never to the entry of the fragment. This is why fragments can be entered
and left by edges that are added later. In a repetition with a maximum, each copy of the body can
only be entered from the one before it, so that whoever is at its entry has passed through all the
copies before it and no others.
-/

namespace ByteRegex

/-! ## Transitions of states -/

theorem State.mem_targets_addSilent {s : State} {y : Symbol} {q : Nat} (qs : List Nat) :
    q ∈ (s.addSilent qs).transitions.targets y ↔
      (y = .epsilon ∧ q ∈ qs) ∨ q ∈ s.transitions.targets y := by
  induction qs generalizing s with
  | nil => simp [State.addSilent_nil]
  | cons p qs ih =>
    have hcons : s.addSilent (p :: qs) = (s.addTransition .epsilon p).addSilent qs := rfl
    rw [hcons, ih, State.addTransition, Transitions.mem_targets_add, List.mem_cons]
    tauto

theorem Transitions.targets_shift (n : Nat) (t : Transitions) (y : Symbol) :
    (t.shift n).targets y = (t.targets y).map (· + n) := by
  have hlookup : ∀ es : List (Symbol × List Nat),
      ((es.map (shiftEntry n)).lookup y).getD [] = ((es.lookup y).getD []).map (· + n) := by
    intro es
    induction es with
    | nil => rfl
    | cons e es ih =>
      obtain ⟨z, qs⟩ := e
      rw [List.map_cons, shiftEntry, List.lookup_cons, List.lookup_cons]
      cases y == z
      · exact ih
      · rfl
  exact hlookup t.entries

namespace Arena

/-! ## Confined growth -/

structure Confined (n s : Nat) (a b : Arena) : Prop where
  size_le : a.size ≤ b.size
  edges : ∀ e ∈ b.edges, e ∈ a.edges ∨
    ((n ≤ e.source ∧ e.source < b.size) ∧ n ≤ e.target ∧ e.target < b.size) ∧ e.target ≠ s

section Confined

variable {m n p q r s : Nat} {a b c : Arena}

theorem Confined.trans (h : Confined n s a b) (h' : Confined n s b c) : Confined n s a c := by
  have hle := h.size_le
  have hle' := h'.size_le
  refine ⟨by omega, fun e he => ?_⟩
  rcases h'.edges e he with he | hnew
  · rcases h.edges e he with he | ⟨hrange, hs⟩
    · exact .inl he
    · exact .inr ⟨by omega, hs⟩
  · exact .inr hnew

/-- Growth from `m` on leads to no state before `m`. -/
theorem Confined.behind (h : Confined m r a b) (hn : n ≤ m) (hs : s < m) : Confined n s a b := by
  refine ⟨h.size_le, fun e he => ?_⟩
  rcases h.edges e he with he | ⟨hrange, -⟩
  · exact .inl he
  · exact .inr ⟨by omega, by omega⟩

theorem confined_push (n s : Nat) (a : Arena) : Confined n s a (a.push {}) := by
  refine ⟨by simp, fun e he => ?_⟩
  rw [edges_push] at he
  exact .inl he

theorem Confined.connect (h : Confined n s a b) (symbol : Symbol) (hp : n ≤ p ∧ p < b.size)
    (hq : n ≤ q ∧ q < b.size) (hs : q ≠ s) : Confined n s a (connect p symbol q b) := by
  refine h.trans ⟨by simp, fun e he => ?_⟩
  rw [(grows_connect symbol hp.2).edges] at he
  rw [size_connect]
  rcases he with he | rfl
  · exact .inl he
  · exact .inr ⟨⟨hp, hq⟩, hs⟩

theorem Confined.link (h : Confined n s a b) (hp : n ≤ p ∧ p < b.size) (hq : n ≤ q ∧ q < b.size)
    (hs : q ≠ s) : Confined n s a (link p q b) := h.connect .epsilon hp hq hs

theorem Confined.link_of (h : Confined n s a b) (P : Prop) [Decidable P]
    (hp : n ≤ p ∧ p < b.size) (hq : n ≤ q ∧ q < b.size) (hs : q ≠ s) :
    Confined n s a (if P then Arena.link p q b else b) := by
  split
  · exact h.link hp hq hs
  · exact h

theorem Confined.attach (h : Confined n s a b) (min ordinal : Nat) {stop : Nat}
    {copy next : Fragment} (hcopy : n ≤ copy.stop ∧ copy.stop < b.size)
    (hnext : n ≤ next.start ∧ next.start < b.size) (hstop : n ≤ stop ∧ stop < b.size)
    (hs : next.start ≠ s) (hs' : stop ≠ s) :
    Confined n s a (attach min stop ordinal copy next b) := by
  refine (h.link hcopy hnext hs).link_of _ ?_ ?_ hs'
  · rwa [size_link]
  · rwa [size_link]

theorem Confined.connectClass (h : Confined n s a b) (c : ByteClass) (hp : n ≤ p ∧ p < b.size)
    (hq : n ≤ q ∧ q < b.size) (hs : q ≠ s) : Confined n s a (connectClass p c q b) := by
  refine h.trans ⟨by simp, fun e he => ?_⟩
  rw [mem_edges_iff, Arena.connectClass, state_modify _ hp.2] at he
  rw [size_connectClass]
  by_cases hsource : e.source = p
  · rw [if_pos hsource, Transitions.mem_targets_ofClass] at he
    rw [hsource, he.2]
    exact .inr ⟨⟨hp, hq⟩, hs⟩
  · rw [if_neg hsource] at he
    exact .inl he

/-- The two states in front of an alternation or a repetition. -/
theorem confined_front (n s : Nat) (a : Arena) : Confined n s a ((a.push {}).push {}) :=
  (confined_push n s a).trans (confined_push n s _)

/-- Two fragments between an entry `s` and an exit `q`. -/
theorem Confined.branch (h : Confined n s a b) {left right : Fragment} (hs : n ≤ s)
    (hleft : left.Within (s + 1) b.size) (hright : right.Within (s + 1) b.size)
    (hq : s < q ∧ q < b.size) : Confined n s a (Arena.link right.stop q (Arena.link left.stop q
      (Arena.link s right.start (Arena.link s left.start b)))) := by
  have hlstart := hleft.start_mem
  have hlstop := hleft.stop_mem
  have hrstart := hright.start_mem
  have hrstop := hright.stop_mem
  refine (((h.link ?_ ?_ ?_).link ?_ ?_ ?_).link ?_ ?_ ?_).link ?_ ?_ ?_
  all_goals try simp only [size_link]
  all_goals omega

end Confined

/-! ## Construction -/

variable {limit : Nat}

theorem confined_of_unroll {m n s : Nat} {a b c : Arena} {f g : Fragment}
    {body : Arena → Option (Fragment × Arena)}
    (hbody : ∀ a f b, body a = some (f, b) → f.Within a.size b.size ∧ Confined a.size f.start a b)
    {min stop remaining ordinal : Nat} (h : Confined n s a c) (hs : s < c.size)
    (hf : f.Within m c.size) (hm : n ≤ m) (hstop : n ≤ stop ∧ stop < c.size) (hne : stop ≠ s)
    (hunroll : unroll body min stop remaining ordinal f c = some (g, b)) :
    Confined n s a b ∧ c.size ≤ b.size ∧ g.Within m b.size := by
  induction remaining generalizing ordinal f c with
  | zero =>
    cases hunroll
    exact ⟨h, Nat.le_refl _, hf⟩
  | succ remaining ih =>
    obtain ⟨⟨next, d⟩, hnext, hunroll⟩ := Option.bind_eq_some_iff.1 hunroll
    obtain ⟨hwithin, hconfined⟩ := hbody c next d hnext
    have hcopy := hf.stop_mem
    have hd := hconfined.size_le
    have hstart := hwithin.start_mem
    have hend := hwithin.stop_mem
    have hnew := h.trans (hconfined.behind (by omega) hs)
    have hattach : Confined n s a (attach min stop ordinal f next d) :=
      hnew.attach min ordinal (by omega) (by omega) (by omega) (by omega) hne
    have hsize := size_attach min stop ordinal f next d
    obtain ⟨hb, hle, hg⟩ := ih hattach (by omega) (Fragment.within_mk (by omega) (by omega))
      (by omega) hunroll
    exact ⟨hb, by omega, hg⟩

mutual

theorem confined_of_fragment : ∀ (t : Term) {a b : Arena} {f : Fragment},
    fragment limit t a = some (f, b) → Confined a.size f.start a b
  | .literal b, a, _, _, h => by
    have hsize := size_push_push a
    have h := of_fresh_bind (of_fresh_bind h)
    rw [Array.size_push] at h
    cases h
    exact (confined_front _ _ a).connect _ (by omega) (by omega)
      (Nat.succ_ne_self _)
  | .charSet c, a, _, _, h => by
    have hsize := size_push_push a
    have h := of_fresh_bind (of_fresh_bind h)
    rw [Array.size_push] at h
    cases h
    exact (confined_front _ _ a).connectClass c (by omega) (by omega)
      (Nat.succ_ne_self _)
  | .group ts, _, _, _, h => confined_of_concat ts h
  | .alternation l r, a, _, _, h => by
    have hsize := size_push_push a
    have h := of_fresh_bind (of_fresh_bind h)
    rw [Array.size_push] at h
    obtain ⟨⟨left, c⟩, hleft, h⟩ := Option.bind_eq_some_iff.1 h
    obtain ⟨⟨right, d⟩, hright, h⟩ := Option.bind_eq_some_iff.1 h
    have hl := within_of_concat l hleft
    have hr := within_of_concat r hright
    have hlstart := hl.start_mem
    have hlstop := hl.stop_mem
    have hrstart := hr.start_mem
    have hrstop := hr.stop_mem
    have hbodies := ((confined_front a.size a.size a).trans
      ((confined_of_concat l hleft).behind (by omega) (by omega))).trans
      ((confined_of_concat r hright).behind (by omega) (by omega))
    cases h
    exact hbodies.branch (Nat.le_refl _) ⟨by omega, by omega⟩ ⟨by omega, by omega⟩ (by omega)
  | .repetition t min max, a, _, _, h => by
    have hsize := size_push_push a
    have h := of_fresh_bind (of_fresh_bind h)
    rw [Array.size_push] at h
    obtain ⟨⟨first, c⟩, hfirst, h⟩ := Option.bind_eq_some_iff.1 h
    obtain ⟨⟨last, d⟩, hlast, h⟩ := Option.bind_eq_some_iff.1 h
    have hwithin := within_of_fragment t hfirst
    have hbody := confined_of_fragment t hfirst
    rw [size_link_of] at hwithin hbody
    have hstart := hwithin.start_mem
    have hstop := hwithin.stop_mem
    have hfront := (confined_front a.size a.size a).link_of (min = 0)
      (p := a.size) (q := a.size + 1) (by omega) (by omega) (by omega)
    have hentry := (hfront.trans (hbody.behind (by omega) (by omega))).link (p := a.size)
      (q := first.start) (by omega) (by omega) (by omega)
    have hcsize := size_link a.size first.start c
    obtain ⟨hcopies, hle, hlast⟩ := confined_of_unroll
      (fun a f b h => ⟨within_of_fragment t h, confined_of_fragment t h⟩) hentry (by omega)
      (Fragment.within_mk (n := a.size + 2) (by omega) (by omega)) (by omega) (by omega)
      (by omega) hlast
    have hlstart := hlast.start_mem
    have hlstop := hlast.stop_mem
    have hdsize := size_link last.stop (a.size + 1) d
    cases h
    exact (hcopies.link (by omega) (by omega) (by omega)).link_of _ (by omega) (by omega) (by omega)

theorem confined_of_concat : ∀ (ts : List Term) {a b : Arena} {f : Fragment},
    concat limit ts a = some (f, b) → Confined a.size f.start a b
  | [], a, _, _, h => by
    have h := of_fresh_bind h
    cases h
    exact confined_push _ _ a
  | t :: ts, a, _, _, h => by
    obtain ⟨⟨first, c⟩, hfirst, h⟩ := Option.bind_eq_some_iff.1 h
    have hwithin := within_of_fragment t hfirst
    rw [start_eq_of_chain h]
    exact confined_of_chain ts (confined_of_fragment t hfirst) hwithin h

theorem confined_of_chain : ∀ (ts : List Term) {a b c : Arena} {n : Nat} {f g : Fragment},
    Confined n f.start a c → f.Within n c.size → chain limit ts f c = some (g, b) →
    Confined n f.start a b
  | [], _, _, _, _, _, _, hc, _, h => by
    cases h
    exact hc
  | t :: ts, a, b, c, n, f, g, hc, hf, h => by
    obtain ⟨⟨next, d⟩, hnext, h⟩ := Option.bind_eq_some_iff.1 h
    have hstart := hf.start_mem
    have hstop := hf.stop_mem
    have hwithin := within_of_fragment t hnext
    have hnstart := hwithin.start_mem
    have hnstop := hwithin.stop_mem
    have hd := (hc.trans ((confined_of_fragment t hnext).behind (by omega) hstart.2)).link
      (p := f.stop) (q := next.start) (by omega) (by omega) (by omega)
    have hsize := size_link f.stop next.start d
    exact confined_of_chain ts (f := ⟨f.start, next.stop⟩) hd
      (Fragment.within_mk (by omega) (by omega)) h

end

/-! ## Fragments of one state -/

theorem le_stop_of_chain {ts : List Term} {n : Nat} {a b : Arena} {f g : Fragment}
    (hf : n ≤ f.stop) (ha : n ≤ a.size) (h : chain limit ts f a = some (g, b)) : n ≤ g.stop := by
  induction ts generalizing f a with
  | nil =>
    cases h
    exact hf
  | cons t ts ih =>
    obtain ⟨⟨next, c⟩, hnext, h⟩ := Option.bind_eq_some_iff.1 h
    have hstop := (within_of_fragment t hnext).stop_mem
    have hsize := size_link f.stop next.start c
    exact ih (f := ⟨f.start, next.stop⟩) (show n ≤ next.stop by omega) (by omega) h

/-- All other terms than groups have an entry and an exit of their own. -/
theorem start_ne_stop_of_fragment {t : Term} {a b : Arena} {f : Fragment}
    (h : fragment limit t a = some (f, b)) (ht : ∀ ts, t ≠ .group ts) : f.start ≠ f.stop := by
  have hne : a.size ≠ (a.push {}).size := by simp
  cases t with
  | literal c =>
    cases of_fresh_bind (of_fresh_bind h)
    exact hne
  | charSet c =>
    cases of_fresh_bind (of_fresh_bind h)
    exact hne
  | group ts => exact absurd rfl (ht ts)
  | alternation l r =>
    obtain ⟨left, -, h⟩ := Option.bind_eq_some_iff.1 (of_fresh_bind (of_fresh_bind h))
    obtain ⟨right, -, h⟩ := Option.bind_eq_some_iff.1 h
    cases h
    exact hne
  | repetition t min max =>
    obtain ⟨first, -, h⟩ := Option.bind_eq_some_iff.1 (of_fresh_bind (of_fresh_bind h))
    obtain ⟨last, -, h⟩ := Option.bind_eq_some_iff.1 h
    cases h
    exact hne

mutual

/-- Only a single state is both the entry and the exit of a fragment. -/
theorem eq_push_of_fragment : ∀ (t : Term) {a b : Arena} {f : Fragment},
    fragment limit t a = some (f, b) → f.start = f.stop → b = a.push {}
  | .group ts, _, _, _, h, heq => eq_push_of_concat ts h heq
  | .literal _, _, _, _, h, heq => absurd heq (start_ne_stop_of_fragment h nofun)
  | .charSet _, _, _, _, h, heq => absurd heq (start_ne_stop_of_fragment h nofun)
  | .alternation _ _, _, _, _, h, heq => absurd heq (start_ne_stop_of_fragment h nofun)
  | .repetition _ _ _, _, _, _, h, heq => absurd heq (start_ne_stop_of_fragment h nofun)

theorem eq_push_of_concat : ∀ (ts : List Term) {a b : Arena} {f : Fragment},
    concat limit ts a = some (f, b) → f.start = f.stop → b = a.push {}
  | [], a, _, _, h, _ => by
    have h := of_fresh_bind h
    cases h
    rfl
  | [t], a, b, f, h, heq => by
    obtain ⟨⟨first, c⟩, hfirst, h⟩ := Option.bind_eq_some_iff.1 h
    cases h
    exact eq_push_of_fragment t hfirst heq
  | t :: u :: ts, a, b, f, h, heq => by
    obtain ⟨⟨first, c⟩, hfirst, h⟩ := Option.bind_eq_some_iff.1 h
    have hstart := start_eq_of_chain h
    obtain ⟨⟨next, d⟩, hnext, h⟩ := Option.bind_eq_some_iff.1 h
    have hfirst := (within_of_fragment t hfirst).start_mem
    have hnext := (within_of_fragment u hnext).stop_mem
    have hsize := size_link first.stop next.start d
    have hstop := le_stop_of_chain (f := ⟨first.start, next.stop⟩) (n := c.size)
      (show c.size ≤ next.stop by omega) (by omega) h
    omega

end

/-! ## What construction adds -/

def added (a b : Arena) : Set Edge := b.edges \ a.edges

/-- With `f`, the arena has grown from `a` to `b`: by states behind those of `a`, which are as they
were, and by edges between the new states, among which are the entry and the exit of `f`. -/
structure SelfContained (a b : Arena) (f : Fragment) : Prop where
  unchanged : a.toList <+: b.toList
  within : Within (added a b) a.size b.size
  entry : Avoids (added a b) f.start
  new : f.Within a.size b.size
  single : f.start = f.stop → b = a.push {}

theorem selfContained_of_fragment {t : Term} {a b : Arena} {f : Fragment}
    (h : fragment limit t a = some (f, b)) : SelfContained a b f := by
  have hconfined := confined_of_fragment t h
  have hnew : ∀ e ∈ added a b,
      ((a.size ≤ e.source ∧ e.source < b.size) ∧ a.size ≤ e.target ∧ e.target < b.size) ∧
        e.target ≠ f.start :=
    fun e he => (hconfined.edges e he.1).resolve_left he.2
  constructor
  case unchanged =>
    obtain ⟨g, x, -, -, -, rfl⟩ := fragment_eq_some_iff.1 h
    exact ⟨_, Array.toList_append.symm⟩
  case within => exact fun e he => (hnew e he).1
  case entry => exact fun e he => (hnew e he).2
  case new => exact within_of_fragment t h
  case single => exact eq_push_of_fragment t h

theorem SelfContained.mem_added_iff {a b : Arena} {f : Fragment} (h : SelfContained a b f)
    {e : Edge} : e ∈ added a b ↔ e ∈ b.edges ∧ a.size ≤ e.source := by
  constructor
  · intro he
    exact ⟨he.1, (h.within e he).1.1⟩
  · rintro ⟨he, hsource⟩
    exact ⟨he, fun ha => absurd (source_lt_of_mem_edges ha) (Nat.not_lt.2 hsource)⟩

end Arena

/-! ## Blocks -/

namespace Unrolling

variable {u : Unrolling} {i j k l n q : Nat}

theorem exists_block (hbase : u.base 0 ≤ q) (hq : q < u.base n) :
    ∃ i < n, ∃ j < u.size, q = u.base i + j := by
  induction n with
  | zero => omega
  | succ n ih =>
    rcases Nat.lt_or_ge q (u.base n) with hlt | hge
    · obtain ⟨i, hi, j, hj, heq⟩ := ih hlt
      exact ⟨i, by omega, j, hj, heq⟩
    · rw [base_succ] at hq
      exact ⟨n, by omega, q - u.base n, by omega, by omega⟩

/-- Copies have no states in common. -/
theorem block_inj (hj : j < u.size) (hl : l < u.size) (h : u.base i + j = u.base k + l) :
    i = k := by
  rcases Nat.lt_trichotomy i k with hlt | heq | hgt
  · have hle := u.base_mono hlt
    rw [base_succ] at hle
    omega
  · exact heq
  · have hle := u.base_mono hgt
    rw [base_succ] at hle
    omega

theorem mem_joints_iff : q ∈ u.joints i j ↔
    (j = u.body.start ∧ 0 < i ∧ u.least ≤ i) ∧ q = u.exit ∨ j = u.body.stop ∧ q = u.next i := by
  rw [joints, skips, List.mem_append, List.mem_ite_nil_right, List.mem_ite_nil_right,
    List.mem_singleton, List.mem_singleton]

/-! ## Ways through a repetition

The edges of a repetition with a maximum are of five kinds. A copy is entered from its `origin`, and
behind `k` copies the `door` is the state from which the exit can be reached early. -/

inductive IsEdge (u : Unrolling) (x : Arena) : Edge → Prop where
  | skipAll : u.least = 0 → IsEdge u x (Edge.silent u.entry u.exit)
  | enter : IsEdge u x (Edge.silent u.entry (u.copy 0).start)
  | inside {i : Nat} {e : Edge} : i < u.count → e ∈ x.edges →
    IsEdge u x ⟨u.base i + e.source, e.symbol, u.base i + e.target⟩
  | skip {i : Nat} : 0 < i → i < u.count → u.least ≤ i →
    IsEdge u x (Edge.silent (u.copy i).start u.exit)
  | onward {i : Nat} : i < u.count → IsEdge u x (Edge.silent (u.copy i).stop (u.next i))

def origin (u : Unrolling) : Nat → Nat
  | 0 => u.entry
  | i + 1 => (u.copy i).stop

def door (u : Unrolling) : Nat → Nat
  | 0 => u.entry
  | k + 1 => (u.copy (k + 1)).start

/-- In `b` there is a way from the entry of a repetition to a state on which `k` copies have been
left for what comes after them. -/
inductive Passes (u : Unrolling) (b : Arena) : Nat → Nat → Prop where
  | entry : Passes u b 0 u.entry
  | move {k : Nat} {e : Edge} : Passes u b k e.source → e ∈ b.edges →
    (∀ i < u.count, e ≠ Edge.silent (u.copy i).stop (u.next i)) → Passes u b k e.target
  | leave {k i : Nat} : Passes u b k (u.copy i).stop → i < u.count →
    Edge.silent (u.copy i).stop (u.next i) ∈ b.edges → Passes u b (k + 1) (u.next i)

/-- Where one can be after `k` copies: at the entry still, in the copy numbered `k`, or at the
exit. -/
def Place (u : Unrolling) (k q : Nat) : Prop :=
  (q = u.entry ∧ k = 0) ∨ (k < u.count ∧ ∃ j < u.size, q = u.base k + j) ∨ q = u.exit

theorem le_base (u : Unrolling) (i : Nat) : u.entry + 2 ≤ u.base i := by
  rw [← u.base_zero]
  exact u.base_mono (Nat.zero_le i)

theorem base_add_ne_exit (u : Unrolling) (i j : Nat) : u.base i + j ≠ u.exit := by
  have hbase := u.le_base i
  rw [exit]
  omega

theorem entry_le_origin (u : Unrolling) (i : Nat) : u.entry ≤ u.origin i := by
  cases i with
  | zero => exact Nat.le_refl _
  | succ i =>
    have hbase := u.le_base i
    have hstop := u.stop_eq i
    simp only [origin]
    omega

theorem Place.eq_of_block (h : u.Place k (u.base i + j)) (hj : j < u.size) : k = i := by
  have hexit : u.exit = u.entry + 1 := rfl
  have hbase := u.le_base i
  rcases h with ⟨h, -⟩ | ⟨-, l, hl, heq⟩ | h
  · omega
  · exact (block_inj hj hl heq).symm
  · omega

theorem Place.entry_le (h : u.Place k q) : u.entry ≤ q := by
  have hexit : u.exit = u.entry + 1 := rfl
  have hbase := u.le_base k
  rcases h with ⟨h, -⟩ | ⟨-, l, hl, heq⟩ | h
  all_goals omega

theorem Place.eq_zero (h : u.Place k u.entry) : k = 0 := by
  have hexit : u.exit = u.entry + 1 := rfl
  have hbase := u.le_base k
  rcases h with ⟨-, h⟩ | ⟨-, l, hl, heq⟩ | h
  all_goals omega

end Unrolling

namespace Arena

namespace LaidOut

variable {u : Unrolling} {a b x : Arena} {n : Nat} {e : Edge}

theorem isEdge_of_mem (h : LaidOut u (some n) a x b) (hentry : u.entry = a.size)
    (he : e ∈ b.edges) (hsource : a.size ≤ e.source) : u.IsEdge x e := by
  obtain ⟨p, y, q⟩ := e
  have hlt := source_lt_of_mem_edges he
  have hbase := u.base_zero
  rw [h.size_eq] at hlt
  rw [mem_edges_iff] at he
  simp only at hsource he hlt
  have hcases : p = u.entry ∨ p = u.exit ∨ u.base 0 ≤ p := by
    have hexit : u.exit = u.entry + 1 := rfl
    omega
  rcases hcases with rfl | rfl | hge
  · rw [h.entry, State.mem_targets_addSilent, List.mem_append, List.mem_ite_nil_right,
      List.mem_singleton, List.mem_singleton] at he
    rcases he with ⟨rfl, ⟨hleast, rfl⟩ | rfl⟩ | hq
    · exact .skipAll hleast
    · exact .enter
    · cases hq
  · rw [h.exit] at he
    cases he
  · obtain ⟨i, hi, j, hj, rfl⟩ := Unrolling.exists_block hge hlt
    rw [h.copies i hi j hj, State.mem_targets_addSilent, Unrolling.mem_joints_iff] at he
    rcases he with ⟨rfl, ⟨⟨rfl, hpos, hleast⟩, rfl⟩ | ⟨rfl, rfl⟩⟩ | hq
    · rw [← u.start_eq]
      exact .skip hpos hi hleast
    · rw [← u.stop_eq]
      exact .onward hi
    · rw [State.shift, Transitions.targets_shift] at hq
      obtain ⟨r, hr, rfl⟩ := List.mem_map.1 hq
      rw [Nat.add_comm r]
      exact .inside (e := ⟨j, y, r⟩) hi hr

variable {max : Option Nat} {i k q : Nat}

theorem enter_mem (h : LaidOut u max a x b) : Edge.silent u.entry (u.copy 0).start ∈ b.edges := by
  rw [mem_edges_iff, Edge.silent, h.entry, State.mem_targets_addSilent]
  simp

theorem onward_mem (h : LaidOut u max a x b) (hi : i < u.count) :
    Edge.silent (u.copy i).stop (u.next i) ∈ b.edges := by
  have hstop := u.body_within.stop_mem.2
  rw [mem_edges_iff, Edge.silent, u.stop_eq, h.copies i hi _ hstop, State.mem_targets_addSilent,
    Unrolling.mem_joints_iff]
  exact .inl ⟨rfl, .inr ⟨rfl, rfl⟩⟩

theorem origin_mem (h : LaidOut u max a x b) (hi : i < u.count) :
    Edge.silent (u.origin i) (u.copy i).start ∈ b.edges := by
  cases i with
  | zero => exact h.enter_mem
  | succ i =>
    have hnext : u.next i = (u.copy (i + 1)).start := if_pos hi
    have hmem := h.onward_mem (Nat.lt_of_succ_lt hi)
    rwa [hnext] at hmem

/-- A copy is entered from the one before it, and the first one from the entry of the repetition. -/
theorem eq_origin_of_target_eq (h : LaidOut u (some n) a x b) (hentry : u.entry = a.size)
    (hx : Within x.edges 0 u.size) (hstart : Avoids x.edges u.body.start) (he : e ∈ b.edges)
    (hsource : a.size ≤ e.source) (htarget : e.target = (u.copy i).start) :
    e = Edge.silent (u.origin i) (u.copy i).start := by
  have hbody := u.body_within.start_mem.2
  have hexit : u.exit ≠ (u.copy i).start := by
    rw [u.start_eq]
    exact (u.base_add_ne_exit i _).symm
  cases h.isEdge_of_mem hentry he hsource with
  | skipAll => exact absurd htarget hexit
  | enter =>
    simp only [Edge.silent, u.start_eq] at htarget
    obtain rfl := Unrolling.block_inj hbody hbody htarget
    rfl
  | @inside k e hk hmem =>
    rw [u.start_eq] at htarget
    have hrange := (hx e hmem).2.2
    obtain rfl := Unrolling.block_inj hrange hbody htarget
    exact absurd (Nat.add_left_cancel htarget) (hstart e hmem)
  | skip => exact absurd htarget hexit
  | @onward k hk =>
    simp only [Edge.silent, Unrolling.next] at htarget
    split at htarget
    · next hlt =>
      rw [u.start_eq, u.start_eq] at htarget
      obtain rfl := Unrolling.block_inj hbody hbody htarget
      rw [Unrolling.origin, Unrolling.next, if_pos hlt]
    · exact absurd htarget hexit

theorem place_of_passes (h : LaidOut u (some n) a x b) (hentry : u.entry = a.size)
    (hcount : 0 < u.count) (hx : Within x.edges 0 u.size) (hp : u.Passes b k q) : u.Place k q := by
  have hstart := u.body_within.start_mem.2
  induction hp with
  | entry => exact .inl ⟨rfl, rfl⟩
  | @move k e _ he hinner ih =>
    have hsource := ih.entry_le
    cases h.isEdge_of_mem hentry he (by omega) with
    | skipAll => exact .inr (.inr rfl)
    | enter =>
      obtain rfl := ih.eq_zero
      exact .inr (.inl ⟨hcount, u.body.start, hstart, u.start_eq 0⟩)
    | @inside i e hi hmem =>
      obtain ⟨⟨-, hlt⟩, -, hrange⟩ := hx e hmem
      obtain rfl := ih.eq_of_block hlt
      exact .inr (.inl ⟨hi, e.target, hrange, rfl⟩)
    | skip => exact .inr (.inr rfl)
    | @onward i hi => exact absurd rfl (hinner i hi)
  | @leave k i _ hi _ ih =>
    rw [u.stop_eq] at ih
    obtain rfl := ih.eq_of_block u.body_within.stop_mem.2
    rw [Unrolling.next]
    split
    · next hlt => exact .inr (.inl ⟨hlt, u.body.start, hstart, u.start_eq _⟩)
    · exact .inr (.inr rfl)

/-- Early, the exit is reached only behind as many copies as come before the door. -/
theorem eq_door_of_target_eq (h : LaidOut u (some n) a x b) (hentry : u.entry = a.size)
    (hp : u.Place k e.source) (he : e ∈ b.edges) (htarget : e.target = u.exit) :
    e = Edge.silent (u.copy (u.count - 1)).stop u.exit ∨
      u.least ≤ k ∧ e = Edge.silent (u.door k) u.exit := by
  have hexit : u.exit = u.entry + 1 := rfl
  have hsource := hp.entry_le
  cases h.isEdge_of_mem hentry he (by omega) with
  | skipAll hleast =>
    obtain rfl := hp.eq_zero
    exact .inr ⟨by omega, rfl⟩
  | enter =>
    rw [Edge.silent, u.start_eq] at htarget
    exact absurd htarget (u.base_add_ne_exit 0 _)
  | @inside i e hi hmem => exact absurd htarget (u.base_add_ne_exit i _)
  | @skip i hpos hi hleast =>
    rw [Edge.silent, u.start_eq] at hp
    obtain rfl := hp.eq_of_block u.body_within.start_mem.2
    obtain ⟨i, rfl⟩ := Nat.exists_eq_add_one.2 hpos
    exact .inr ⟨hleast, rfl⟩
  | @onward i hi =>
    by_cases hlt : i + 1 < u.count
    · have hnext : u.next i = u.base (i + 1) + u.body.start := by
        rw [Unrolling.next, if_pos hlt, u.start_eq]
      rw [Edge.silent, hnext] at htarget
      exact absurd htarget (u.base_add_ne_exit (i + 1) _)
    · have hlast : u.count - 1 = i := by omega
      rw [hlast, Unrolling.next, if_neg hlt]
      exact .inl rfl

end LaidOut

structure InOrder (u : Unrolling) (a b : Arena) : Prop where
  entered : ∀ i < u.count, {e ∈ added a b | e.target = (u.copy i).start} =
    {Edge.silent (u.origin i) (u.copy i).start}
  passed : ∀ k, ∀ i < u.count, u.Passes b k (u.copy i).start → k = i
  left : ∀ k e, u.Passes b k e.source → e ∈ b.edges → e.target = u.exit →
    e = Edge.silent (u.copy (u.count - 1)).stop u.exit ∨
      u.least ≤ k ∧ e = Edge.silent (u.door k) u.exit

variable {t : Term} {a b : Arena} {f : Fragment}

theorem inOrder_of_fragment {min n : Nat}
    (h : fragment limit (.repetition t min (some n)) a = some (f, b)) :
    ∃ g x, fragment limit t #[] = some (g, x) ∧ ∃ hg : g.Within 0 x.size,
      f = ⟨a.size, a.size + 1⟩ ∧ LaidOut (a.unrolling min (some n) g x hg) (some n) a x b ∧
        InOrder (a.unrolling min (some n) g x hg) a b := by
  obtain ⟨g, x, hx, hg, hf, hlaid⟩ := laidOut_of_fragment h
  have hself := selfContained_of_fragment h
  have hbody := selfContained_of_fragment hx
  have hadded : added #[] x = x.edges := by
    ext e
    rw [hbody.mem_added_iff]
    exact and_iff_left (Nat.zero_le _)
  have hwithin := hbody.within
  have hentry := hbody.entry
  rw [hadded] at hwithin hentry
  have hplace : ∀ {k q}, (a.unrolling min (some n) g x hg).Passes b k q →
      (a.unrolling min (some n) g x hg).Place k q :=
    hlaid.place_of_passes rfl (Nat.succ_pos _) hwithin
  refine ⟨g, x, hx, hg, hf, hlaid, ?_⟩
  constructor
  case entered =>
    intro i hi
    ext e
    constructor
    · rintro ⟨he, htarget⟩
      obtain ⟨he, hsource⟩ := hself.mem_added_iff.1 he
      exact hlaid.eq_origin_of_target_eq rfl hwithin hentry he hsource htarget
    · rintro rfl
      have hsource := (a.unrolling min (some n) g x hg).entry_le_origin i
      exact ⟨hself.mem_added_iff.2 ⟨hlaid.origin_mem hi, hsource⟩, rfl⟩
  case passed =>
    intro k i hi hp
    have hstart := hplace hp
    rw [Unrolling.start_eq] at hstart
    exact hstart.eq_of_block hg.start_mem.2
  case left =>
    intro k e hp he htarget
    exact hlaid.eq_door_of_target_eq rfl (hplace hp) he htarget

/-- Of a term as of a list of terms, whatever was there before: construction only adds to it, the
added edges stay among the added states and avoid the entry of the fragment. If a repetition has a
maximum, each copy of its body is entered by one edge only. So one is at the entry of a copy only
after as many copies as come before it, and this is where one may leave early after so many. -/
theorem fragment_selfContained (limit : Nat) (a : Arena) :
    (∀ t f b, fragment limit t a = some (f, b) → SelfContained a b f) ∧
    (∀ ts f b, concat limit ts a = some (f, b) → SelfContained a b f) ∧
    ∀ t min n f b, fragment limit (.repetition t min (some n)) a = some (f, b) →
      ∃ g x, fragment limit t #[] = some (g, x) ∧ ∃ hg : g.Within 0 x.size,
        f = ⟨a.size, a.size + 1⟩ ∧ LaidOut (a.unrolling min (some n) g x hg) (some n) a x b ∧
          InOrder (a.unrolling min (some n) g x hg) a b :=
  ⟨fun _ _ _ => selfContained_of_fragment,
    fun ts _ _ h => selfContained_of_fragment (t := .group ts) h,
    fun _ _ _ _ _ => inOrder_of_fragment⟩

/-- The term is that of `a{1,3}`, behind one other state. -/
theorem fragment_selfContained_of_three_copies : ∃ f b,
    fragment 20 (.repetition (.literal 97) 1 (some 3)) #[{}] = some (f, b) ∧
    SelfContained #[{}] b f ∧
    ∃ g x, fragment 20 (.literal 97) #[] = some (g, x) ∧ ∃ hg : g.Within 0 x.size,
      f = ⟨1, 2⟩ ∧ (unrolling #[{}] 1 (some 3) g x hg).count = 3 ∧
        LaidOut (unrolling #[{}] 1 (some 3) g x hg) (some 3) #[{}] x b ∧
        InOrder (unrolling #[{}] 1 (some 3) g x hg) #[{}] b := by
  obtain ⟨f, b, h⟩ : ∃ f b,
    fragment 20 (.repetition (.literal 97) 1 (some 3)) #[{}] = some (f, b) := ⟨_, _, rfl⟩
  obtain ⟨hself, -, hcopies⟩ := fragment_selfContained 20 #[{}]
  obtain ⟨g, x, hx, hg, hf, hrest⟩ := hcopies _ _ _ f b h
  exact ⟨f, b, h, hself _ f b h, g, x, hx, hg, hf, rfl, hrest⟩

end Arena

end ByteRegex
