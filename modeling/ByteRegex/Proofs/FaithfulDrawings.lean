import ByteRegex.Proofs.DrawingLines
import ByteRegex.Proofs.TrimAutomata

/-!
# Faithful drawings

The lines about a state determine the state: whether it is the start, whether it is accepting, and
its transitions with their groups and orders. A trim automaton has as many states as its start
tells, so two compiled patterns are drawn alike only if their automata are the same.
-/

namespace ByteRegex

/-! ## Transitions -/

namespace Transitions

abbrev flat (es : List (Symbol × List Nat)) : List (Symbol × Nat) :=
  es.flatMap fun e => e.2.map fun target => (e.1, target)

theorem filter_flat_of_notMem {s : Symbol} {es : List (Symbol × List Nat)}
    (h : s ∉ es.map Prod.fst) : (flat es).filter (fun e => e.1 = s) = [] := by
  refine List.filter_eq_nil_iff.2 fun e he => ?_
  obtain ⟨d, hd, he⟩ := List.mem_flatMap.1 he
  obtain ⟨target, -, rfl⟩ := List.mem_map.1 he
  simp only [decide_eq_true_eq]
  rintro rfl
  exact h (List.mem_map_of_mem hd)

theorem filter_flat_cons {s : Symbol} {ts : List Nat} {es : List (Symbol × List Nat)}
    (h : s ∉ es.map Prod.fst) :
    (flat ((s, ts) :: es)).filter (fun e => e.1 = s) = ts.map fun target => (s, target) := by
  rw [flat, List.flatMap_cons, List.filter_append, filter_flat_of_notMem h, List.append_nil]
  refine List.filter_eq_self.2 fun e he => ?_
  obtain ⟨target, -, rfl⟩ := List.mem_map.1 he
  exact decide_eq_true rfl

theorem flat_cons_ne_nil {e : Symbol × List Nat} {es : List (Symbol × List Nat)} (h : e.2 ≠ []) :
    flat (e :: es) ≠ [] := by
  intro hflat
  obtain ⟨hgroup, -⟩ := List.append_eq_nil_iff.1 hflat
  exact h (List.map_eq_nil_iff.1 hgroup)

/-- A list of groups is determined by its transitions: a group ends where the symbol changes. -/
theorem flat_injective {es ds : List (Symbol × List Nat)} (hes : (es.map Prod.fst).Nodup)
    (hds : (ds.map Prod.fst).Nodup) (ies : ∀ e ∈ es, e.2 ≠ []) (ids : ∀ e ∈ ds, e.2 ≠ [])
    (h : flat es = flat ds) : es = ds := by
  induction es generalizing ds with
  | nil =>
    cases ds with
    | nil => rfl
    | cons d ds => exact absurd h.symm (flat_cons_ne_nil (ids d List.mem_cons_self))
  | cons e es ih =>
    cases ds with
    | nil => exact absurd h (flat_cons_ne_nil (ies e List.mem_cons_self))
    | cons d ds =>
      obtain ⟨s, ts⟩ := e
      obtain ⟨s', us⟩ := d
      obtain ⟨hs, hestail⟩ := List.nodup_cons.1 hes
      obtain ⟨hs', hdstail⟩ := List.nodup_cons.1 hds
      -- The first transition names the first group, and its symbol is that of no other group.
      have hsymbol : s = s' := by
        obtain ⟨t, ts, rfl⟩ := List.exists_cons_of_ne_nil (ies _ List.mem_cons_self)
        obtain ⟨u, us, rfl⟩ := List.exists_cons_of_ne_nil (ids _ List.mem_cons_self)
        exact congrArg Prod.fst (List.cons.inj h).1
      subst hsymbol
      have hgroup := congrArg (List.filter fun e => e.1 = s) h
      rw [filter_flat_cons hs, filter_flat_cons hs'] at hgroup
      have htargets := congrArg (List.map Prod.snd) hgroup
      rw [List.map_map, List.map_map] at htargets
      have hts : ts = us := by simpa [Function.comp_def] using htargets
      subst hts
      have hrest : es = ds := ih hestail hdstail (fun e he => ies e (List.mem_cons_of_mem _ he))
        (fun e he => ids e (List.mem_cons_of_mem _ he)) (List.append_cancel_left h)
      rw [hrest]

theorem toList_injective {t u : Transitions} (h : t.toList = u.toList) : t = u := by
  obtain ⟨es, hes, ies⟩ := t
  obtain ⟨ds, hds, ids⟩ := u
  cases flat_injective hes hds ies ids h
  rfl

end Transitions

namespace Nfa

/-! ## States -/

namespace Dot

theorem source_of_mem_items {q : Nat} {s : State} {i : Item} (h : i ∈ items q s) :
    i.source = q := by
  simp only [items, List.mem_append, List.mem_ite_nil_right, List.mem_singleton, List.mem_map]
    at h
  rcases h with (⟨-, rfl⟩ | ⟨-, rfl⟩) | ⟨e, -, rfl⟩
  all_goals rfl

def Item.transition? : Item → Option (Symbol × Nat)
  | move _ symbol target => some (symbol, target)
  | _ => none

theorem filterMap_items (q : Nat) (s : State) :
    (items q s).filterMap Item.transition? = s.transitions.toList := by
  rw [items, List.filterMap_append, List.filterMap_append, List.filterMap_map]
  have hmarks : ∀ (p : Prop) [Decidable p] (i : Item), i.transition? = none →
      (if p then [i] else []).filterMap Item.transition? = [] := by
    intro p _ i hi
    split <;> simp [hi]
  rw [hmarks _ _ rfl, hmarks _ _ rfl, List.nil_append, List.nil_append]
  exact List.filterMap_some

theorem start_mem_items {q : Nat} {s : State} : .start q ∈ items q s ↔ s.isStart = true := by
  simp [items]

theorem accept_mem_items {q : Nat} {s : State} : .accept q ∈ items q s ↔ s.isAccept = true := by
  simp [items]

theorem items_injective {q : Nat} {s t : State} (h : items q s = items q t) : s = t := by
  have hstart : s.isStart = t.isStart := by
    rw [Bool.eq_iff_iff, ← start_mem_items (q := q), ← start_mem_items (q := q), h]
  have haccept : s.isAccept = t.isAccept := by
    rw [Bool.eq_iff_iff, ← accept_mem_items (q := q), ← accept_mem_items (q := q), h]
  have htransitions : s.transitions = t.transitions := by
    apply Transitions.toList_injective
    rw [← filterMap_items q, ← filterMap_items q, h]
  obtain ⟨isStart, isAccept, transitions⟩ := s
  cases hstart
  cases haccept
  cases htransitions
  rfl

theorem filter_items_self (q : Nat) (s : State) :
    (items q s).filter (fun i => i.source = q) = items q s :=
  List.filter_eq_self.2 fun _ hi => decide_eq_true (source_of_mem_items hi)

theorem filter_items_of_ne {p q : Nat} (h : p ≠ q) (s : State) :
    (items p s).filter (fun i => i.source = q) = [] := by
  refine List.filter_eq_nil_iff.2 fun i hi => ?_
  rw [source_of_mem_items hi]
  simpa using h

/-- The lines about one of the states of a list that is numbered from `k`. -/
theorem filter_zipIdx (ss : List State) (k q : Nat) :
    ((ss.zipIdx k).flatMap fun e => items e.2 e.1).filter (fun i => i.source = k + q) =
      items (k + q) (ss.getD q {}) := by
  induction ss generalizing k q with
  | nil => rfl
  | cons s ss ih =>
    rw [List.zipIdx_cons, List.flatMap_cons, List.filter_append]
    cases q with
    | zero =>
      have hrest : ((ss.zipIdx (k + 1)).flatMap fun e => items e.2 e.1).filter
          (fun i => i.source = k + 0) = [] := by
        rw [List.filter_flatMap]
        refine List.flatMap_eq_nil_iff.2 fun e he => filter_items_of_ne ?_ e.1
        have hnumber := List.le_snd_of_mem_zipIdx he
        omega
      rw [hrest, List.append_nil]
      exact filter_items_self k s
    | succ q =>
      have hrest := ih (k + 1) q
      rw [Nat.add_right_comm k 1 q] at hrest
      rw [filter_items_of_ne (by omega), List.nil_append]
      exact hrest

end Dot

/-! ## Automata -/

theorem filter_items (a : Nfa) (q : Nat) :
    a.items.filter (fun i => i.source = q) = Dot.items q (a.state q) := by
  have h := Dot.filter_zipIdx a.states.toList 0 q
  rw [Nat.zero_add] at h
  rw [items, numbered, h, state, Array.getD_eq_getD_getElem?, ← Array.getElem?_toList,
    List.getD_eq_getElem?_getD]

theorem state_eq_of_dot_eq {a b : Nfa} (h : a.dot = b.dot) (q : Nat) : a.state q = b.state q := by
  have hitems := items_eq_of_dot_eq h
  apply Dot.items_injective (q := q)
  rw [← filter_items, ← filter_items, hitems]

theorem IsTrim.eq_of_dot_eq {a b : Nfa} (ha : a.IsTrim) (hb : b.IsTrim) (h : a.dot = b.dot) :
    a = b := by
  have hstate := state_eq_of_dot_eq h
  have hstart : a.start = b.start := by
    rw [← hb.isStart_iff, ← hstate, ha.isStart_iff]
  have hsize : a.states.size = b.states.size := by
    rw [ha.size_eq, hb.size_eq, hstart]
  have hstates : a.states = b.states := by
    apply Array.ext hsize
    intro q hqa hqb
    have hq := hstate q
    rwa [state, state, Array.getD_eq_getD_getElem?, Array.getD_eq_getD_getElem?,
      Array.getElem?_eq_getElem hqa, Array.getElem?_eq_getElem hqb] at hq
  obtain ⟨states, start⟩ := a
  cases hstart
  cases hstates
  rfl

end Nfa

namespace Regex

/-- Two compiled patterns are drawn alike only if their automata are the same. No label has a line
feed, ends the quotation it stands in, or is the label of another symbol. -/
theorem nfa_eq_of_dot_eq {limits₁ limits₂ : Limits} {pattern₁ pattern₂ : List UInt8}
    {r₁ r₂ : Regex} (h₁ : compile limits₁ pattern₁ = .ok r₁)
    (h₂ : compile limits₂ pattern₂ = .ok r₂) (h : r₁.dot = r₂.dot) :
    r₁.nfa = r₂.nfa ∧ Function.Injective Symbol.label ∧
      (∀ s : Symbol, '\n' ∉ s.label.toList) ∧
      ∀ (s : Symbol) (cs : List Char),
        Escaped.quoted (s.label.toList ++ '"' :: cs) = some (s.label.toList, cs) := by
  refine ⟨?_, ?_, Symbol.newline_notMem_label, Symbol.quoted_label_append⟩
  · exact (nfa_isTrim_of_compile h₁).1.eq_of_dot_eq (nfa_isTrim_of_compile h₂).1 h
  · intro s t hlabel
    exact (Symbol.label_append_inj (x := []) (y := []) (by rw [hlabel])).1

/-- The patterns are `[ab]` and `([ab])`, read with different limits. -/
theorem nfa_eq_of_dot_eq_of_group :
    ∃ r₁, compile {} [91, 97, 98, 93] = .ok r₁ ∧
      ∃ r₂, compile { maxStates := 9 } [40, 91, 97, 98, 93, 41] = .ok r₂ ∧ r₁.dot = r₂.dot ∧
        r₁.nfa = r₂.nfa := by
  obtain ⟨r₁, h₁, r₂, h₂, h⟩ : ∃ r₁, compile {} [91, 97, 98, 93] = .ok r₁ ∧
      ∃ r₂, compile { maxStates := 9 } [40, 91, 97, 98, 93, 41] = .ok r₂ ∧ r₁.dot = r₂.dot :=
    ⟨_, rfl, _, rfl, rfl⟩
  exact ⟨r₁, h₁, r₂, h₂, h, (nfa_eq_of_dot_eq h₁ h₂ h).1⟩

end Regex

end ByteRegex
