import ByteRegex.Proofs.FragmentShifts
import ByteRegex.Proofs.FragmentWiring
import ByteRegex.Regex

/-!
# Redundant groups

A group inside a list of terms is built as if its terms stood in the list themselves. The edges of
the group are then made before the one that leads into it and not after, but they leave other
states, so this cannot be told from the arena.
-/

namespace ByteRegex

structure Fragment.Within (n m : Nat) (f : Fragment) : Prop where
  start_mem : n ≤ f.start ∧ f.start < m
  stop_mem : n ≤ f.stop ∧ f.stop < m

theorem Fragment.within_mk {n m start stop : Nat} (hstart : n ≤ start ∧ start < m)
    (hstop : n ≤ stop ∧ stop < m) : Fragment.Within n m ⟨start, stop⟩ := ⟨hstart, hstop⟩

namespace Arena

variable {limit p q s : Nat} {a b c : Arena} {f g : Fragment}

/-! ## Entries and exits -/

theorem size_le_of_unroll {body : Arena → Option (Fragment × Arena)}
    (hbody : ∀ a f b, body a = some (f, b) → f.Within a.size b.size)
    {min stop remaining ordinal : Nat}
    (h : unroll body min stop remaining ordinal f a = some (g, b)) : a.size ≤ b.size := by
  induction remaining generalizing ordinal f a with
  | zero =>
    cases h
    exact Nat.le_refl _
  | succ remaining ih =>
    obtain ⟨⟨next, c⟩, hnext, h⟩ := Option.bind_eq_some_iff.1 h
    have hstart := (hbody a next c hnext).start_mem
    have hrest := ih h
    rw [size_attach] at hrest
    omega

mutual

/-- The states of a fragment are new. -/
theorem within_of_fragment : ∀ (t : Term) {a b : Arena} {f : Fragment},
    fragment limit t a = some (f, b) → f.Within a.size b.size
  | .literal b, a, _, _, h => by
    have hsize := size_push_push a
    have h := of_fresh_bind (of_fresh_bind h)
    rw [Array.size_push] at h
    cases h
    rw [size_connect, hsize]
    exact Fragment.within_mk (by omega) (by omega)
  | .charSet c, a, _, _, h => by
    have hsize := size_push_push a
    have h := of_fresh_bind (of_fresh_bind h)
    rw [Array.size_push] at h
    cases h
    rw [size_connectClass, hsize]
    exact Fragment.within_mk (by omega) (by omega)
  | .group ts, _, _, _, h => within_of_concat ts h
  | .alternation l r, a, _, _, h => by
    have hsize := size_push_push a
    have h := of_fresh_bind (of_fresh_bind h)
    rw [Array.size_push] at h
    obtain ⟨⟨left, c⟩, hleft, h⟩ := Option.bind_eq_some_iff.1 h
    obtain ⟨⟨right, d⟩, hright, h⟩ := Option.bind_eq_some_iff.1 h
    have hl := (within_of_concat l hleft).start_mem
    have hr := (within_of_concat r hright).start_mem
    cases h
    simp only [size_link]
    exact Fragment.within_mk (by omega) (by omega)
  | .repetition t min max, a, _, _, h => by
    have hsize := size_push_push a
    have h := of_fresh_bind (of_fresh_bind h)
    rw [Array.size_push] at h
    obtain ⟨⟨first, c⟩, hfirst, h⟩ := Option.bind_eq_some_iff.1 h
    obtain ⟨⟨last, d⟩, hlast, h⟩ := Option.bind_eq_some_iff.1 h
    have hbody := (within_of_fragment t hfirst).start_mem
    have hcopies := size_le_of_unroll (fun _ _ _ h => within_of_fragment t h) hlast
    rw [size_link_of] at hbody
    rw [size_link] at hcopies
    cases h
    simp only [size_link_of, size_link]
    exact Fragment.within_mk (by omega) (by omega)

theorem within_of_concat : ∀ (ts : List Term) {a b : Arena} {f : Fragment},
    concat limit ts a = some (f, b) → f.Within a.size b.size
  | [], a, _, _, h => by
    have h := of_fresh_bind h
    cases h
    rw [Array.size_push]
    exact Fragment.within_mk (by omega) (by omega)
  | t :: ts, _, _, _, h => by
    obtain ⟨⟨first, c⟩, hfirst, h⟩ := Option.bind_eq_some_iff.1 h
    exact within_of_chain ts (within_of_fragment t hfirst) h

theorem within_of_chain : ∀ (ts : List Term) {n : Nat} {a b : Arena} {f g : Fragment},
    f.Within n a.size → chain limit ts f a = some (g, b) → g.Within n b.size
  | [], _, _, _, _, _, hf, h => by
    cases h
    exact hf
  | t :: ts, n, a, b, f, g, hf, h => by
    obtain ⟨⟨next, c⟩, hnext, h⟩ := Option.bind_eq_some_iff.1 h
    have hstart := hf.start_mem
    have hnext := within_of_fragment t hnext
    have hstop := hnext.stop_mem
    refine within_of_chain ts (Fragment.within_mk ?_ ?_) h
    · rw [size_link]
      omega
    · rw [size_link]
      omega

end

theorem start_eq_of_chain {ts : List Term} (h : chain limit ts f a = some (g, b)) :
    g.start = f.start := by
  induction ts generalizing f a with
  | nil =>
    cases h
    rfl
  | cons t ts ih =>
    obtain ⟨⟨next, c⟩, -, h⟩ := Option.bind_eq_some_iff.1 h
    exact ih (f := ⟨f.start, next.stop⟩) h

/-! ## Edges made beforehand -/

theorem link_comm (hpq : p ≠ q) (r s : Nat) (a : Arena) :
    link p r (link q s a) = link q s (link p r a) := by
  apply Array.ext_getElem?
  intro i
  simp only [link, connect, Array.getElem?_modify]
  by_cases hp : p = i
  · have hq : q ≠ i := fun hq => hpq (hp.trans hq.symm)
    simp only [if_neg hq]
  · simp only [if_neg hp]

mutual

theorem fragment_of_full (h : limit ≤ a.size) : ∀ t : Term, fragment limit t a = none
  | .literal b => by simp [fragment, fresh, Nat.not_lt.2 h]
  | .charSet c => by simp [fragment, fresh, Nat.not_lt.2 h]
  | .group ts => concat_of_full h ts
  | .alternation l r => by simp [fragment, fresh, Nat.not_lt.2 h]
  | .repetition t min max => by simp [fragment, fresh, Nat.not_lt.2 h]

theorem concat_of_full (h : limit ≤ a.size) : ∀ ts : List Term, concat limit ts a = none
  | [] => by simp [concat, fresh, Nat.not_lt.2 h]
  | t :: ts => by simp [concat, fragment_of_full h t]

end

/-- It makes no difference for a fragment whether an edge between old states is there already. -/
theorem fragment_link (hp : p < a.size) (q : Nat) (t : Term) :
    fragment limit t (link p q a) = (fragment limit t a).map (Prod.map id (link p q)) := by
  have hsize := size_link p q a
  by_cases hfull : limit ≤ a.size
  · rw [fragment_of_full hfull, fragment_of_full (hsize.symm ▸ hfull)]
    rfl
  · obtain ⟨k, rfl⟩ := Nat.exists_eq_add_of_le' (Nat.le_of_not_le hfull)
    have hplain : fragment (k + a.size) t a = _ := onto_empty a ▸ shifted_fragment k a t #[]
    have hlinked := shifted_fragment k (link p q a) t #[]
    rw [hsize, onto_empty] at hlinked
    have honto : onto (link p q a) = link p q ∘ onto a :=
      funext fun x => onto_modify hp _ x
    rw [hlinked, hplain, Option.map_map, Prod.map_comp_map, honto]
    rfl

/-- The same for a chain, as long as the edge does not leave its exit. -/
theorem chain_link (s q : Nat) {ts : List Term} (hp : p < a.size) (hf : p ≠ f.stop) :
    chain limit ts ⟨s, f.stop⟩ (link p q a) =
      (chain limit ts f a).map (Prod.map (fun g => ⟨s, g.stop⟩) (link p q)) := by
  induction ts generalizing f a with
  | nil => rfl
  | cons t ts ih =>
    simp only [chain, fragment_link hp, Option.bind_eq_bind, Option.bind_map, Option.map_bind]
    refine Option.bind_congr fun next hnext => ?_
    have hstop := (within_of_fragment t hnext).stop_mem
    have hfresh : p ≠ next.1.stop := by omega
    change chain limit ts ⟨s, next.1.stop⟩ (link f.stop next.1.start (link p q next.2)) = _
    rw [link_comm (Ne.symm hf)]
    exact ih (f := ⟨f.start, next.1.stop⟩) (by rw [size_link]; omega) hfresh

/-! ## Groups in lists -/

theorem chain_append (ts us : List Term) (f : Fragment) (a : Arena) :
    chain limit (ts ++ us) f a = chain limit ts f a >>= fun r => chain limit us r.1 r.2 := by
  induction ts generalizing f a with
  | nil => rfl
  | cons t ts ih => simp only [List.cons_append, chain, ih, Option.bind_eq_bind, Option.bind_assoc]

/-- A group in a chain leads on from the same states as its terms do. -/
theorem chain_group {us : List Term} (hus : us ≠ []) (vs : List Term) (hf : f.stop < a.size) :
    chain limit (.group us :: vs) f a = chain limit (us ++ vs) f a := by
  obtain ⟨u, us, rfl⟩ := List.exists_cons_of_ne_nil hus
  simp only [List.cons_append, chain, fragment, concat, chain_append, Option.bind_eq_bind,
    Option.bind_assoc]
  refine Option.bind_congr fun next hnext => ?_
  have hnext := within_of_fragment u hnext
  have hstart := hnext.start_mem
  have hstop := hnext.stop_mem
  rw [chain_link (f := next.1) f.start next.1.start (by omega) (by omega), Option.bind_map]
  refine Option.bind_congr fun last hlast => ?_
  rw [Function.comp_apply, Prod.map_apply', start_eq_of_chain hlast]

theorem concat_group (limit : Nat) (ts : List Term) {us : List Term} (hus : us ≠ [])
    (vs : List Term) (a : Arena) :
    concat limit (ts ++ .group us :: vs) a = concat limit (ts ++ us ++ vs) a := by
  cases ts with
  | nil =>
    obtain ⟨u, us, rfl⟩ := List.exists_cons_of_ne_nil hus
    simp only [List.nil_append, List.cons_append, concat, fragment, chain_append,
      Option.bind_eq_bind, Option.bind_assoc]
  | cons t ts =>
    simp only [List.cons_append, List.append_assoc, concat, chain_append]
    refine Option.bind_congr fun first hfirst => ?_
    refine Option.bind_congr fun last hlast => ?_
    have hfirst := within_of_fragment t hfirst
    have hlast := within_of_chain ts hfirst hlast
    rw [chain_group hus vs hlast.stop_mem.2, chain_append]

end Arena

namespace Regex

/-- A group of at least one term among others is built as its terms would be, behind any states and
within any limit. So of two patterns that are read as the one list and as the other, either both
have too many states, or they compile to automata that nothing tells apart. -/
theorem compile_of_redundant_group {us : List Term} (hus : us ≠ []) (ts vs : List Term) :
    (∀ limit a, Arena.concat limit (ts ++ [.group us] ++ vs) a =
      Arena.concat limit (ts ++ us ++ vs) a) ∧
    (∀ limit, Nfa.ofTerms? limit (ts ++ [.group us] ++ vs) =
      Nfa.ofTerms? limit (ts ++ us ++ vs)) ∧
    ∀ (limits limits' : Limits) (p p' : List UInt8), limits.maxStates = limits'.maxStates →
      parse limits p = .ok (ts ++ [.group us] ++ vs) → parse limits' p' = .ok (ts ++ us ++ vs) →
      match compile limits p, compile limits' p' with
      | .ok r, .ok r' => r.stateCount = r'.stateCount ∧ r.dot = r'.dot ∧
        ∀ input, r.isMatch input = r'.isMatch input ∧
          (r.nfa.search input).memo.size = (r'.nfa.search input).memo.size
      | .error e, .error e' => e = .tooManyStates limits.stateLimit ∧ e' = e
      | _, _ => False := by
  have hconcat : ∀ limit a, Arena.concat limit (ts ++ [.group us] ++ vs) a =
      Arena.concat limit (ts ++ us ++ vs) a := by
    intro limit a
    rw [List.append_assoc ts [.group us], List.singleton_append, Arena.concat_group limit ts hus]
  have hnfa : ∀ limit, Nfa.ofTerms? limit (ts ++ [.group us] ++ vs) =
      Nfa.ofTerms? limit (ts ++ us ++ vs) := by
    intro limit
    rw [Nfa.ofTerms?, Nfa.ofTerms?, hconcat]
  refine ⟨hconcat, hnfa, ?_⟩
  intro limits limits' p p' hmax hp hp'
  have hlimit : limits'.stateLimit = limits.stateLimit := by
    rw [Limits.stateLimit, Limits.stateLimit, hmax]
  cases hn : Nfa.ofTerms? limits.stateLimit (ts ++ us ++ vs) with
  | none =>
    have hn' : Nfa.ofTerms? limits'.stateLimit (ts ++ us ++ vs) = none := hlimit ▸ hn
    rw [compile_of_ofTerms?_none hp ((hnfa _).trans hn), compile_of_ofTerms?_none hp' hn', hlimit]
    exact ⟨rfl, rfl⟩
  | some nfa =>
    have hn' : Nfa.ofTerms? limits'.stateLimit (ts ++ us ++ vs) = some nfa := hlimit ▸ hn
    rw [compile_of_ofTerms?_some hp ((hnfa _).trans hn), compile_of_ofTerms?_some hp' hn']
    exact ⟨rfl, rfl, fun _ => ⟨rfl, rfl⟩⟩

/-- The patterns are `a(b*)c` and `ab*c`. -/
theorem compile_of_redundant_group_around_star :
    let star : Term := .repetition (.literal 98) 0 none
    [star] ≠ [] ∧
    (∀ limit a, Arena.concat limit [.literal 97, .group [star], .literal 99] a =
      Arena.concat limit [.literal 97, star, .literal 99] a) ∧
    (∀ limit, Nfa.ofTerms? limit [.literal 97, .group [star], .literal 99] =
      Nfa.ofTerms? limit [.literal 97, star, .literal 99]) ∧
    parse {} [97, 40, 98, 42, 41, 99] = .ok [.literal 97, .group [star], .literal 99] ∧
    parse {} [97, 98, 42, 99] = .ok [.literal 97, star, .literal 99] ∧
    match compile {} [97, 40, 98, 42, 41, 99], compile {} [97, 98, 42, 99] with
    | .ok r, .ok r' => r.stateCount = r'.stateCount ∧ r.dot = r'.dot ∧
      ∀ input, r.isMatch input = r'.isMatch input ∧
        (r.nfa.search input).memo.size = (r'.nfa.search input).memo.size
    | .error e, .error e' => e = .tooManyStates (Limits.stateLimit {}) ∧ e' = e
    | _, _ => False := by
  intro star
  obtain ⟨hconcat, hnfa, hcompile⟩ :=
    compile_of_redundant_group (List.cons_ne_nil star []) [.literal 97] [.literal 99]
  have hp : parse {} [97, 40, 98, 42, 41, 99] = .ok [.literal 97, .group [star], .literal 99] := rfl
  have hp' : parse {} [97, 98, 42, 99] = .ok [.literal 97, star, .literal 99] := rfl
  exact ⟨List.cons_ne_nil _ _, hconcat, hnfa, hp, hp', hcompile {} {} _ _ rfl hp hp'⟩

end Regex

end ByteRegex
