import ByteRegex.Nfa.Thompson

/-!
# Shifted fragments

Construction neither reads nor changes the states that were there before it, so a term is built
behind the states of an arena just as it is built on its own, with all numbers shifted by the size
of the arena. The limit shifts with them.
-/

namespace ByteRegex

/-! ## Shifts -/

namespace Transitions

def shiftEntry (n : Nat) (e : Symbol × List Nat) : Symbol × List Nat := (e.1, e.2.map (· + n))

def shift (n : Nat) (t : Transitions) : Transitions where
  entries := t.entries.map (shiftEntry n)
  distinct := by simpa [Function.comp_def, shiftEntry] using t.distinct
  inhabited := by
    intro e he
    obtain ⟨e, hmem, rfl⟩ := List.mem_map.1 he
    simpa [shiftEntry] using t.inhabited e hmem

theorem addEntry_map_shiftEntry (n : Nat) (symbol : Symbol) (target : Nat)
    (es : List (Symbol × List Nat)) :
    addEntry symbol (target + n) (es.map (shiftEntry n)) =
      (addEntry symbol target es).map (shiftEntry n) := by
  induction es with
  | nil => rfl
  | cons e es ih =>
    have hsymbol : (shiftEntry n e).1 = e.1 := rfl
    rw [List.map_cons, addEntry, addEntry, hsymbol]
    split
    · simp [shiftEntry]
    · rw [ih, List.map_cons]

theorem add_shift (n : Nat) (symbol : Symbol) (target : Nat) (t : Transitions) :
    (t.shift n).add symbol (target + n) = (t.add symbol target).shift n := by
  simp only [add, shift, addEntry_map_shiftEntry]

theorem ofClass_shift (n : Nat) (c : ByteClass) (target : Nat) :
    ofClass c (target + n) = (ofClass c target).shift n := by
  simp [ofClass, shift, shiftEntry, Function.comp_def]

end Transitions

def State.shift (n : Nat) (s : State) : State := { s with transitions := s.transitions.shift n }

theorem State.shift_empty (n : Nat) : ({} : State).shift n = {} := rfl

def Fragment.shift (n : Nat) (f : Fragment) : Fragment := ⟨f.start + n, f.stop + n⟩

namespace Arena

def onto (a x : Arena) : Arena := a ++ x.map (State.shift a.size)

variable {a x : Arena}

theorem size_onto (a x : Arena) : (onto a x).size = x.size + a.size := by
  simp [onto, Nat.add_comm]

theorem onto_empty (a : Arena) : onto a #[] = a := by simp [onto]

/-! ## Changes of states -/

/-- Changes of the states behind an arena leave the arena as it is. -/
theorem modify_onto {f g : State → State}
    (h : ∀ s, g (s.shift a.size) = (f s).shift a.size) (p : Nat) :
    (onto a x).modify (p + a.size) g = onto a (x.modify p f) := by
  apply Array.ext_getElem?
  intro q
  simp only [onto, Array.getElem?_modify, Array.getElem?_append, Array.getElem?_map]
  by_cases hq : q < a.size
  · simp only [if_pos hq, if_neg (show p + a.size ≠ q by omega)]
  · by_cases hp : p = q - a.size
    · have hpq : p + a.size = q := by omega
      simp only [if_neg hq, if_pos hp, if_pos hpq, Option.map_map]
      exact congrArg (Option.map · _) (funext h)
    · have hpq : p + a.size ≠ q := by omega
      simp only [if_neg hq, if_neg hp, if_neg hpq]

/-- Changes of an arena leave the states behind it as they are. -/
theorem onto_modify {p : Nat} (hp : p < a.size) (f : State → State) (x : Arena) :
    onto (a.modify p f) x = (onto a x).modify p f := by
  apply Array.ext_getElem?
  intro q
  simp only [onto, Array.getElem?_modify, Array.getElem?_append, Array.size_modify]
  by_cases hq : q < a.size
  · simp only [if_pos hq]
  · simp only [if_neg hq, if_neg (show p ≠ q by omega)]

theorem connect_onto (p : Nat) (symbol : Symbol) (q : Nat) :
    connect (p + a.size) symbol (q + a.size) (onto a x) = onto a (connect p symbol q x) := by
  refine modify_onto (fun s => ?_) p
  simp only [State.addTransition, State.shift, Transitions.add_shift]

theorem link_onto (p q : Nat) :
    link (p + a.size) (q + a.size) (onto a x) = onto a (link p q x) := connect_onto p .epsilon q

theorem connectClass_onto (p : Nat) (c : ByteClass) (q : Nat) :
    connectClass (p + a.size) c (q + a.size) (onto a x) = onto a (connectClass p c q x) := by
  refine modify_onto (fun s => ?_) p
  simp only [State.shift, Transitions.ofClass_shift]

theorem attach_onto (min stop ordinal : Nat) (copy next : Fragment) :
    attach min (stop + a.size) ordinal (copy.shift a.size) (next.shift a.size) (onto a x) =
      onto a (attach min stop ordinal copy next x) := by
  simp only [attach, Fragment.shift, link_onto, ← apply_ite (onto a)]

/-! ## Construction -/

/-- `y'` is the outcome `y` behind the states of `a`. -/
def Shifted {α : Type} (a : Arena) (shift : α → α) (y' y : Option (α × Arena)) : Prop :=
  y' = y.map (Prod.map shift (onto a))

variable {α β : Type} {shift : α → α} {shift' : β → β}

theorem shifted_some {x' : Arena} (v : α) (h : x' = onto a x) :
    Shifted a shift (some (shift v, x')) (some (v, x)) := by
  rw [h]
  rfl

theorem shifted_fresh (limit : Nat) (a x : Arena) :
    Shifted a (· + a.size) (fresh (limit + a.size) (onto a x)) (fresh limit x) := by
  have hpush : (onto a x).push {} = onto a (x.push {}) := by
    rw [onto, onto, Array.map_push, Array.append_push, State.shift_empty]
  unfold Shifted fresh
  rw [size_onto, hpush]
  by_cases h : x.size < limit
  · rw [if_pos h, if_pos (Nat.add_lt_add_right h _)]
    rfl
  · rw [if_neg h, if_neg (by omega)]
    rfl

theorem Shifted.bind {y' y : Option (α × Arena)} {next' next : α × Arena → Option (β × Arena)}
    (h : Shifted a shift y' y)
    (hnext : ∀ v x, Shifted a shift' (next' (shift v, onto a x)) (next (v, x))) :
    Shifted a shift' (y' >>= next') (y >>= next) := by
  obtain rfl := h
  cases y with
  | none => rfl
  | some p => exact hnext p.1 p.2

theorem shifted_unroll {body' body : Arena → Option (Fragment × Arena)}
    (hbody : ∀ x, Shifted a (Fragment.shift a.size) (body' (onto a x)) (body x))
    (min stop remaining ordinal : Nat) (copy : Fragment) (x : Arena) :
    Shifted a (Fragment.shift a.size)
      (unroll body' min (stop + a.size) remaining ordinal (copy.shift a.size) (onto a x))
      (unroll body min stop remaining ordinal copy x) := by
  induction remaining generalizing ordinal copy x with
  | zero => exact shifted_some copy rfl
  | succ remaining ih =>
    refine (hbody x).bind fun next y => ?_
    have hnext := ih (ordinal + 1) next (attach min stop ordinal copy next y)
    rw [← attach_onto] at hnext
    exact hnext

mutual

theorem shifted_fragment (limit : Nat) (a : Arena) : ∀ (t : Term) (x : Arena),
    Shifted a (Fragment.shift a.size) (fragment (limit + a.size) t (onto a x))
      (fragment limit t x)
  | .literal b, x => by
    refine (shifted_fresh limit a x).bind fun start x => ?_
    refine (shifted_fresh limit a x).bind fun stop x => ?_
    exact shifted_some (⟨start, stop⟩ : Fragment) (connect_onto start (.byte b) stop)
  | .charSet c, x => by
    refine (shifted_fresh limit a x).bind fun start x => ?_
    refine (shifted_fresh limit a x).bind fun stop x => ?_
    exact shifted_some (⟨start, stop⟩ : Fragment) (connectClass_onto start c stop)
  | .group ts, x => shifted_concat limit a ts x
  | .alternation l r, x => by
    refine (shifted_fresh limit a x).bind fun start x => ?_
    refine (shifted_fresh limit a x).bind fun stop x => ?_
    refine (shifted_concat limit a l x).bind fun left x => ?_
    refine (shifted_concat limit a r x).bind fun right x => ?_
    refine shifted_some (⟨start, stop⟩ : Fragment) ?_
    simp only [Fragment.shift, link_onto]
  | .repetition t min max, x => by
    refine (shifted_fresh limit a x).bind fun start x => ?_
    refine (shifted_fresh limit a x).bind fun stop x => ?_
    have hbody := shifted_fragment limit a t
    have hfirst := hbody (if min = 0 then link start stop x else x)
    rw [apply_ite (onto a), ← link_onto] at hfirst
    refine hfirst.bind fun first x => ?_
    have hlast := shifted_unroll hbody min stop (copies min max - 1) 2 first
      (link start first.start x)
    rw [← link_onto] at hlast
    refine hlast.bind fun last x => ?_
    refine shifted_some (⟨start, stop⟩ : Fragment) ?_
    simp only [Fragment.shift, link_onto, ← apply_ite (onto a)]

theorem shifted_concat (limit : Nat) (a : Arena) : ∀ (ts : List Term) (x : Arena),
    Shifted a (Fragment.shift a.size) (concat (limit + a.size) ts (onto a x))
      (concat limit ts x)
  | [], x => (shifted_fresh limit a x).bind fun q _ => shifted_some (⟨q, q⟩ : Fragment) rfl
  | t :: ts, x => (shifted_fragment limit a t x).bind fun f x => shifted_chain limit a ts f x

theorem shifted_chain (limit : Nat) (a : Arena) : ∀ (ts : List Term) (f : Fragment) (x : Arena),
    Shifted a (Fragment.shift a.size) (chain (limit + a.size) ts (f.shift a.size) (onto a x))
      (chain limit ts f x)
  | [], f, _ => shifted_some f rfl
  | t :: ts, f, x => by
    refine (shifted_fragment limit a t x).bind fun next x => ?_
    have hrest := shifted_chain limit a ts ⟨f.start, next.stop⟩ (link f.stop next.start x)
    rw [← link_onto] at hrest
    exact hrest

end

end Arena

end ByteRegex
