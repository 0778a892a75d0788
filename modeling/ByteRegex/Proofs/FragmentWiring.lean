import ByteRegex.Proofs.ArenaEdges
import ByteRegex.Proofs.TermNodes

/-!
# Wiring of fragments

The edges between the states of a fragment, with one rule for each way in which construction joins
fragments. Construction follows these rules, so that what they imply holds of every fragment that is
built.
-/

namespace ByteRegex

/-- What a fragment stands for: a term, a list of terms, or the body of a repetition in all the
copies made so far, with `before` of them before the last one. -/
inductive Part where
  | term (t : Term)
  | list (ts : List Term)
  | copies (body : Term) (min before : Nat)

/-- The edges of a fragment from `start` to `stop` whose states are numbered from `n` and below `m`.
The copies of a body have the entry `n` and the exit `n + 1` of their repetition before them, and
`start` and `stop` are those of the last copy, which is not yet linked to what follows. -/
inductive Wires : Part → Set Edge → (n m start stop : Nat) → Prop where
  | literal {b : UInt8} {n : Nat} : Wires (.term (.literal b))
    {e | e.source = n ∧ e.symbol ∈ ({.byte b} : Set Symbol) ∧ e.target = n + 1} n (n + 2) n (n + 1)
  | charSet {c : ByteClass} {n : Nat} : c.members ≠ [] → Wires (.term (.charSet c))
    {e | e.source = n ∧ e.symbol ∈ {s | ∃ b ∈ c, s = .byte b} ∧ e.target = n + 1}
    n (n + 2) n (n + 1)
  | group {ts : List Term} {G : Set Edge} {n m start stop : Nat} :
    Wires (.list ts) G n m start stop → Wires (.term (.group ts)) G n m start stop
  | alternation {l r : List Term} {G H : Set Edge} {n m p start stop first last : Nat} :
    Wires (.list l) G (n + 2) m start stop → Wires (.list r) H m p first last →
    Wires (.term (.alternation l r))
      (insert (Edge.silent last (n + 1)) (insert (Edge.silent stop (n + 1))
        (insert (Edge.silent n first) (insert (Edge.silent n start) (G ∪ H))))) n p n (n + 1)
  | firstCopy {t : Term} {min : Nat} {G : Set Edge} {n m start stop : Nat} :
    Wires (.term t) G (n + 2) m start stop →
    Wires (.copies t min 0)
      (insert (Edge.silent n start) ({e | min = 0 ∧ e = Edge.silent n (n + 1)} ∪ G))
      n m start stop
  | nextCopy {t : Term} {min before : Nat} {G H : Set Edge} {n m p start stop first last : Nat} :
    Wires (.copies t min before) G n m start stop → Wires (.term t) H m p first last →
    Wires (.copies t min (before + 1))
      ({e | min < before + 2 ∧ e = Edge.silent first (n + 1)} ∪
        insert (Edge.silent stop first) (G ∪ H)) n p first last
  | repetition {t : Term} {min before : Nat} {max : Option Nat} {G : Set Edge}
    {n m start stop : Nat} : Bound.IsOrdered ⟨min, max⟩ → Arena.copies min max = before + 1 →
    Wires (.copies t min before) G n m start stop →
    Wires (.term (.repetition t min max))
      ({e | max = none ∧ e = Edge.silent (n + 1) start} ∪ insert (Edge.silent stop (n + 1)) G)
      n m n (n + 1)
  | empty {n : Nat} : Wires (.list []) ∅ n (n + 1) n n
  | single {t : Term} {G : Set Edge} {n m start stop : Nat} :
    Wires (.term t) G n m start stop → Wires (.list [t]) G n m start stop
  | append {ts : List Term} {t : Term} {G H : Set Edge} {n m p start stop first last : Nat} :
    ts ≠ [] → Wires (.list ts) G n m start stop → Wires (.term t) H m p first last →
    Wires (.list (ts ++ [t])) (insert (Edge.silent stop first) (G ∪ H)) n p start last

def Part.frame : Part → Nat
  | term _ => 0
  | list _ => 0
  | copies _ _ _ => 2

theorem Wires.bounds {part : Part} {G : Set Edge} {n m start stop : Nat}
    (h : Wires part G n m start stop) :
    (n + part.frame ≤ start ∧ start < m) ∧ n + part.frame ≤ stop ∧ stop < m := by
  induction h with
  | literal => simp [Part.frame]
  | charSet => simp [Part.frame]
  | group _ ih => exact ih
  | alternation _ _ ihl ihr => simp only [Part.frame] at *; omega
  | firstCopy _ ih => simp only [Part.frame] at *; omega
  | nextCopy _ _ ihc iht => simp only [Part.frame] at *; omega
  | repetition _ _ _ ih => simp only [Part.frame] at *; omega
  | empty => simp [Part.frame]
  | single _ ih => exact ih
  | append _ _ _ ihs iht => simp only [Part.frame] at *; omega

namespace Arena

open Term

/-! ## Construction -/

theorem of_fresh_bind {β : Type} {limit : Nat} {a : Arena} {next : Nat × Arena → Option β} {x : β}
    (h : (fresh limit a >>= next) = some x) : next (a.size, a.push {}) = some x := by
  obtain ⟨p, hp, h⟩ := Option.bind_eq_some_iff.1 h
  unfold fresh at hp
  split at hp
  · cases hp
    exact h
  · cases hp

def GrowsBy (a b : Arena) (f : Fragment) (part : Part) : Prop :=
  ∃ G, Grows a b G ∧ Wires part G a.size b.size f.start f.stop

variable {limit n : Nat} {a b : Arena} {f last : Fragment} {t : Term}

theorem wires_of_unroll {body : Arena → Option (Fragment × Arena)}
    (hbody : ∀ a f b, body a = some (f, b) → GrowsBy a b f (.term t)) {min remaining before : Nat}
    {copy : Fragment} {c : Arena} {G : Set Edge} (hgrows : Grows a c G)
    (hw : Wires (.copies t min before) G n c.size copy.start copy.stop)
    (h : unroll body min (n + 1) remaining (before + 2) copy c = some (last, b)) :
    ∃ H, Grows a b H ∧
      Wires (.copies t min (before + remaining)) H n b.size last.start last.stop := by
  induction remaining generalizing before copy c G with
  | zero =>
    cases h
    exact ⟨G, hgrows, hw⟩
  | succ remaining ih =>
    obtain ⟨⟨next, d⟩, hnext, h⟩ := Option.bind_eq_some_iff.1 h
    obtain ⟨F, hF, hwires⟩ := hbody c next d hnext
    have hstop := hw.bounds.2
    have hstart := hwires.bounds.1
    have hcopy : copy.stop < d.size := by omega
    have hgrows' := (hgrows.trans hF).attach min (n + 1) (before + 2) hcopy hstart.2
    obtain ⟨H, hH, hlast⟩ := ih hgrows' (by rw [size_attach]; exact hw.nextCopy hwires) h
    exact ⟨H, hH, by rwa [Nat.add_assoc, Nat.add_comm 1] at hlast⟩

theorem growsBy_repetition {body : Arena → Option (Fragment × Arena)}
    (hbody : ∀ a f b, body a = some (f, b) → GrowsBy a b f (.term t)) {min : Nat}
    {max : Option Nat} (hbound : Bound.IsOrdered ⟨min, max⟩) {c d : Arena} {first : Fragment}
    (hfirst : body (if min = 0 then link a.size (a.size + 1) ((a.push {}).push {})
      else (a.push {}).push {}) = some (first, c))
    (hlast : unroll body min (a.size + 1) (copies min max - 1) 2 first (link a.size first.start c) =
      some (last, d)) :
    GrowsBy a (if max = none then link (a.size + 1) last.start (link last.stop (a.size + 1) d)
      else link last.stop (a.size + 1) d) ⟨a.size, a.size + 1⟩ (.term (.repetition t min max)) := by
  have hsize := size_push_push a
  obtain ⟨F, hF, hwires⟩ := hbody _ _ _ hfirst
  rw [size_link_of, hsize] at hwires
  have hstart := hwires.bounds.1
  have hskip := ((Grows.refl ((a.push {}).push {})).link_of (P := min = 0)
    (p := a.size) (q := a.size + 1) (by omega)).of_push.of_push
  rw [Set.union_empty] at hskip
  have hentry := (hskip.trans hF).link (p := a.size) (q := first.start) (by omega)
  have hcopy : Wires (.copies t min 0) _ _ _ _ _ := hwires.firstCopy
  rw [← size_link a.size first.start c] at hcopy
  obtain ⟨H, hH, hcopies⟩ := wires_of_unroll hbody hentry hcopy hlast
  have hstop : a.size + 2 ≤ last.stop ∧ last.stop < d.size := hcopies.bounds.2
  have hpos : 1 ≤ copies min max := one_le_copies (fun n hn => (hbound n hn).2) min
  have hnumber : copies min max = 0 + (copies min max - 1) + 1 := by omega
  refine ⟨_, (hH.link (p := last.stop) (q := a.size + 1) hstop.2).link_of (P := max = none)
    (p := a.size + 1) (q := last.start) (by rw [size_link]; omega), ?_⟩
  rw [size_link_of, size_link]
  exact .repetition hbound hnumber hcopies

mutual

theorem growsBy_fragment : ∀ (t : Term) {a b : Arena} {f : Fragment}, Every IsSound [t] →
    fragment limit t a = some (f, b) → GrowsBy a b f (.term t)
  | .literal b, a, _, _, _, h => by
    have hsize := size_push_push a
    have h := of_fresh_bind (of_fresh_bind h)
    rw [Array.size_push] at h
    cases h
    have hlt : a.size < ((a.push {}).push {}).size := by omega
    have hgrows := grows_connect (q := a.size + 1) (.byte b) hlt
    have hedges : ({⟨a.size, .byte b, a.size + 1⟩} : Set Edge) =
        {e | e.source = a.size ∧ e.symbol ∈ ({.byte b} : Set Symbol) ∧ e.target = a.size + 1} := by
      ext ⟨source, symbol, target⟩
      simp
    rw [hedges] at hgrows
    refine ⟨_, hgrows.of_push.of_push, ?_⟩
    rw [size_connect, hsize]
    exact .literal
  | .charSet c, a, _, _, hs, h => by
    have hsize := size_push_push a
    have h := of_fresh_bind (of_fresh_bind h)
    rw [Array.size_push] at h
    cases h
    have hfresh : ∀ e ∈ edges ((a.push {}).push {}), e.source ≠ a.size := by
      intro e he
      rw [edges_push, edges_push] at he
      exact (source_lt_of_mem_edges he).ne
    have hgrows := grows_connectClass (q := a.size + 1) c (by omega) hfresh
    refine ⟨_, hgrows.of_push.of_push, ?_⟩
    rw [size_connectClass, hsize]
    exact .charSet (every_charSet.1 hs)
  | .group ts, _, _, _, hs, h => by
    obtain ⟨G, hG, hwires⟩ := growsBy_concat ts (every_group.1 hs).2 h
    exact ⟨G, hG, .group hwires⟩
  | .alternation l r, a, b, f, hs, h => by
    obtain ⟨-, hl, hr⟩ := every_alternation.1 hs
    have hsize := size_push_push a
    have h := of_fresh_bind (of_fresh_bind h)
    rw [Array.size_push] at h
    obtain ⟨⟨left, c⟩, hleft, h⟩ := Option.bind_eq_some_iff.1 h
    obtain ⟨⟨right, d⟩, hright, h⟩ := Option.bind_eq_some_iff.1 h
    obtain ⟨G, hG, hwires⟩ := growsBy_concat l hl hleft
    obtain ⟨H, hH, hwires'⟩ := growsBy_concat r hr hright
    cases h
    rw [hsize] at hwires
    have hl := hwires.bounds
    have hr := hwires'.bounds
    have hentry := ((hG.trans hH).of_push.of_push.link (p := a.size) (q := left.start)
      (by omega)).link (p := a.size) (q := right.start) (by rw [size_link]; omega)
    have hexit := (hentry.link (p := left.stop) (q := a.size + 1)
      (by simp only [size_link]; omega)).link (p := right.stop) (q := a.size + 1)
      (by simp only [size_link]; omega)
    refine ⟨_, hexit, ?_⟩
    simp only [size_link]
    exact hwires.alternation hwires'
  | .repetition t min max, a, b, f, hs, h => by
    obtain ⟨hbound, ht⟩ := every_repetition.1 hs
    have h := of_fresh_bind (of_fresh_bind h)
    rw [Array.size_push] at h
    obtain ⟨⟨first, c⟩, hfirst, h⟩ := Option.bind_eq_some_iff.1 h
    obtain ⟨⟨last, d⟩, hlast, h⟩ := Option.bind_eq_some_iff.1 h
    cases h
    exact growsBy_repetition (fun a f b h => growsBy_fragment t ht h) hbound hfirst hlast

theorem growsBy_concat : ∀ (ts : List Term) {a b : Arena} {f : Fragment}, Every IsSound ts →
    concat limit ts a = some (f, b) → GrowsBy a b f (.list ts)
  | [], a, b, f, _, h => by
    have h := of_fresh_bind h
    cases h
    refine ⟨∅, grows_push a, ?_⟩
    rw [Array.size_push]
    exact .empty
  | t :: ts, a, b, f, hs, h => by
    obtain ⟨ht, hts⟩ := every_cons.1 hs
    obtain ⟨⟨first, c⟩, hfirst, h⟩ := Option.bind_eq_some_iff.1 h
    obtain ⟨G, hG, hwires⟩ := growsBy_fragment t ht hfirst
    exact growsBy_chain ts hts hG (List.cons_ne_nil t []) hwires.single h

theorem growsBy_chain : ∀ (ts : List Term) {us : List Term} {a b c : Arena} {f g : Fragment}
    {G : Set Edge}, Every IsSound ts → Grows a c G → us ≠ [] →
    Wires (.list us) G a.size c.size f.start f.stop → chain limit ts f c = some (g, b) →
    GrowsBy a b g (.list (us ++ ts))
  | [], us, a, b, c, f, g, G, _, hG, _, hwires, h => by
    cases h
    rw [List.append_nil]
    exact ⟨G, hG, hwires⟩
  | t :: ts, us, a, b, c, f, g, G, hs, hG, hne, hwires, h => by
    obtain ⟨ht, hts⟩ := every_cons.1 hs
    obtain ⟨⟨next, d⟩, hnext, h⟩ := Option.bind_eq_some_iff.1 h
    obtain ⟨H, hH, hwires'⟩ := growsBy_fragment t ht hnext
    have hstop : f.stop < d.size := by
      have hf := hwires.bounds.2
      have hd := hwires'.bounds.1
      omega
    have happend := Wires.append hne hwires hwires'
    rw [← size_link f.stop next.start d] at happend
    rw [List.append_cons]
    exact growsBy_chain ts hts ((hG.trans hH).link hstop) (by simp) happend h

end

end Arena

end ByteRegex
