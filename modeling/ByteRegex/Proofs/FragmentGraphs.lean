import ByteRegex.Nfa.Thompson
import ByteRegex.Proofs.TermLanguage

/-!
# Graphs of fragments

What the edges of a fragment spell between its entry and its exit. Edges that lead back from the
exit into the fragment are allowed, so this is not said in terms of paths: the states are labelled
with languages, and a labelling that no edge contradicts must give the entry what it gives the exit,
prefixed with the words of the fragment, and can be made to give it no more.
-/

open Computability

namespace ByteRegex

def Symbol.bytes : Symbol → List UInt8
  | byte b => [b]
  | epsilon => []

structure Edge where
  source : Nat
  symbol : Symbol
  target : Nat

def Edge.silent (source target : Nat) : Edge := ⟨source, .epsilon, target⟩

/-- Every word from the target of an edge is a word from its source, behind the symbol. -/
def Closed (G : Set Edge) (V : Nat → Language UInt8) : Prop :=
  ∀ e ∈ G, ∀ w ∈ V e.target, e.symbol.bytes ++ w ∈ V e.source

def Avoids (G : Set Edge) (q : Nat) : Prop := ∀ e ∈ G, e.target ≠ q

def Within (G : Set Edge) (n m : Nat) : Prop :=
  ∀ e ∈ G, (n ≤ e.source ∧ e.source < m) ∧ n ≤ e.target ∧ e.target < m

section

variable {G H : Set Edge} {V W : Nat → Language UInt8} {n m p q : Nat}

theorem closed_union : Closed (G ∪ H) V ↔ Closed G V ∧ Closed H V := by
  simp only [Closed, Set.mem_union, or_imp, forall_and]

theorem closed_insert_silent :
    Closed (insert (Edge.silent p q) G) V ↔ V q ≤ V p ∧ Closed G V := Set.forall_mem_insert

theorem closed_silent_of {P : Prop} :
    Closed {e | P ∧ e = Edge.silent p q} V ↔ (P → V q ≤ V p) := by
  constructor
  · intro h hp
    exact h (Edge.silent p q) ⟨hp, rfl⟩
  · rintro h e ⟨hp, rfl⟩
    exact h hp

theorem Closed.congr (h : Closed G V)
    (hsame : ∀ e ∈ G, W e.source = V e.source ∧ W e.target = V e.target) : Closed G W := by
  intro e he w hw
  obtain ⟨hsource, htarget⟩ := hsame e he
  rw [htarget] at hw
  rw [hsource]
  exact h e he w hw

/-- Where no edge leads, a label may grow. -/
theorem Closed.raise {A : Language UInt8} (h : Closed G V) (hq : Avoids G q) (hle : V q ≤ A) :
    Closed G (Function.update V q A) := by
  intro e he w hw
  rw [Function.update_of_ne (hq e he)] at hw
  by_cases hs : e.source = q
  · rw [hs, Function.update_self]
    exact hle (hs ▸ h e he w hw)
  · rw [Function.update_of_ne hs]
    exact h e he w hw

theorem avoids_union : Avoids (G ∪ H) q ↔ Avoids G q ∧ Avoids H q := by
  simp only [Avoids, Set.mem_union, or_imp, forall_and]

theorem avoids_insert_silent {r : Nat} :
    Avoids (insert (Edge.silent p r) G) q ↔ r ≠ q ∧ Avoids G q := Set.forall_mem_insert

theorem avoids_silent_of {P : Prop} {r : Nat} (hr : r ≠ q) :
    Avoids {e | P ∧ e = Edge.silent p r} q := by
  rintro e ⟨-, rfl⟩
  exact hr

theorem Within.avoids (hG : Within G n m) (hq : q < n ∨ m ≤ q) : Avoids G q := by
  intro e he
  have hrange := hG e he
  omega

theorem Within.union (hG : Within G n m) (hH : Within H n m) : Within (G ∪ H) n m := by
  intro e he
  cases he with
  | inl he => exact hG e he
  | inr he => exact hH e he

theorem Within.insert_silent (hp : n ≤ p ∧ p < m) (hq : n ≤ q ∧ q < m) (hG : Within G n m) :
    Within (insert (Edge.silent p q) G) n m := Set.forall_mem_insert.2 ⟨⟨hp, hq⟩, hG⟩

theorem within_silent_of {P : Prop} (hp : n ≤ p ∧ p < m) (hq : n ≤ q ∧ q < m) :
    Within {e | P ∧ e = Edge.silent p q} n m := by
  rintro e ⟨-, rfl⟩
  exact ⟨hp, hq⟩

theorem Within.mono {n' m' : Nat} (hG : Within G n m) (hn : n' ≤ n) (hm : m ≤ m') :
    Within G n' m' := by
  intro e he
  have hrange := hG e he
  omega

/-! ## Gluing labels -/

/-- The labels `V` below `m` and `W` from there on. -/
def glue (m : Nat) (V W : Nat → Language UInt8) (q : Nat) : Language UInt8 :=
  if q < m then V q else W q

theorem glue_of_lt (h : q < m) : glue m V W q = V q := if_pos h

theorem glue_of_le (h : m ≤ q) : glue m V W q = W q := if_neg (Nat.not_lt.2 h)

theorem Closed.glue_left (h : Closed G V) (hG : Within G n m) : Closed G (glue m V W) := by
  apply h.congr
  intro e he
  obtain ⟨hs, ht⟩ := hG e he
  exact ⟨glue_of_lt hs.2, glue_of_lt ht.2⟩

theorem Closed.glue_right (h : Closed G W) (hG : Within G m p) : Closed G (glue m V W) := by
  apply h.congr
  intro e he
  obtain ⟨hs, ht⟩ := hG e he
  exact ⟨glue_of_le hs.1, glue_of_le ht.1⟩

def frame (n : Nat) (A B : Language UInt8) (V : Nat → Language UInt8) : Nat → Language UInt8 :=
  glue (n + 1) (fun _ => A) (glue (n + 2) (fun _ => B) V)

variable {A B : Language UInt8}

theorem frame_entry : frame n A B V n = A := glue_of_lt (Nat.lt_succ_self n)

theorem frame_exit : frame n A B V (n + 1) = B := by
  rw [frame, glue_of_le (Nat.le_refl _), glue_of_lt (Nat.lt_succ_self _)]

theorem frame_inside (h : n + 2 ≤ q) : frame n A B V q = V q := by
  rw [frame, glue_of_le (by omega), glue_of_le h]

theorem Closed.frame (h : Closed G V) (hG : Within G (n + 2) m) : Closed G (frame n A B V) := by
  apply h.congr
  intro e he
  obtain ⟨hs, ht⟩ := hG e he
  exact ⟨frame_inside hs.1, frame_inside ht.1⟩

end

/-! ## Fragments -/

structure Spells (G : Set Edge) (n m start stop : Nat) (L : Language UInt8) : Prop where
  within : Within G n m
  start_mem : n ≤ start ∧ start < m
  stop_mem : n ≤ stop ∧ stop < m
  entry : Avoids G start
  complete : ∀ V, Closed G V → L * V stop ≤ V start
  sound : ∀ K, ∃ V, Closed G V ∧ K ≤ V stop ∧ V start ≤ L * K

variable {G H : Set Edge} {n m p start stop first last : Nat} {L M : Language UInt8}

theorem spells_symbols (S : Set Symbol) (n : Nat) :
    Spells {e | e.source = n ∧ e.symbol ∈ S ∧ e.target = n + 1} n (n + 2) n (n + 1)
      {w | ∃ s ∈ S, w = s.bytes} where
  within := by
    rintro e ⟨hs, -, ht⟩
    omega
  start_mem := by omega
  stop_mem := by omega
  entry := by
    rintro e ⟨-, -, ht⟩
    omega
  complete := by
    intro V hV w hw
    obtain ⟨u, ⟨s, hs, rfl⟩, v, hv, rfl⟩ := Language.mem_mul.1 hw
    exact hV ⟨n, s, n + 1⟩ ⟨rfl, hs, rfl⟩ v hv
  sound := by
    intro K
    let L : Language UInt8 := {w | ∃ s ∈ S, w = s.bytes}
    refine ⟨glue (n + 1) (fun _ => L * K) fun _ => K, ?_, ?_, ?_⟩
    · rintro e ⟨hsource, hsymbol, htarget⟩ w hw
      rw [htarget, glue_of_le (Nat.le_refl _)] at hw
      rw [hsource, glue_of_lt (Nat.lt_succ_self n)]
      exact Language.append_mem_mul ⟨e.symbol, hsymbol, rfl⟩ hw
    · rw [glue_of_le (Nat.le_refl _)]
    · rw [glue_of_lt (Nat.lt_succ_self n)]

theorem spells_one (n : Nat) : Spells ∅ n (n + 1) n n 1 where
  within := nofun
  start_mem := by omega
  stop_mem := by omega
  entry := nofun
  complete V _ := (one_mul (V n)).le
  sound K := ⟨fun _ => K, nofun, le_refl K, (one_mul K).ge⟩

theorem Spells.append (hf : Spells G n m start stop L) (hg : Spells H m p first last M) :
    Spells (insert (Edge.silent stop first) (G ∪ H)) n p start last (L * M) := by
  have hstart := hf.start_mem
  have hstop := hf.stop_mem
  have hfirst := hg.start_mem
  have hlast := hg.stop_mem
  constructor
  case within =>
    refine .insert_silent ?_ ?_ ((hf.within.mono ?_ ?_).union (hg.within.mono ?_ ?_))
    all_goals omega
  case start_mem => omega
  case stop_mem => omega
  case entry =>
    have hH : Avoids H start := hg.within.avoids (.inl hstart.2)
    have hne : first ≠ start := by omega
    exact avoids_insert_silent.2 ⟨hne, avoids_union.2 ⟨hf.entry, hH⟩⟩
  case complete =>
    intro V hV
    obtain ⟨hlink, hV⟩ := closed_insert_silent.1 hV
    obtain ⟨hG, hH⟩ := closed_union.1 hV
    calc L * M * V last = L * (M * V last) := mul_assoc _ _ _
      _ ≤ L * V first := mul_le_mul_right (hg.complete V hH) L
      _ ≤ L * V stop := mul_le_mul_right hlink L
      _ ≤ V start := hf.complete V hG
  case sound =>
    intro K
    obtain ⟨W, hH, hK, hW⟩ := hg.sound K
    obtain ⟨V, hG, hM, hV⟩ := hf.sound (M * K)
    refine ⟨glue m V W, ?_, ?_, ?_⟩
    · refine closed_insert_silent.2 ⟨?_, closed_union.2 ⟨?_, hH.glue_right hg.within⟩⟩
      · rw [glue_of_lt hstop.2, glue_of_le hfirst.1]
        exact le_trans hW hM
      · exact hG.glue_left hf.within
    · rw [glue_of_le hlast.1]
      exact hK
    · rw [glue_of_lt hstart.2, mul_assoc]
      exact hV

/-- Two fragments side by side, behind an entry and an exit of their own. -/
theorem Spells.alternate (hf : Spells G (n + 2) m start stop L)
    (hg : Spells H m p first last M) :
    Spells (insert (Edge.silent last (n + 1)) (insert (Edge.silent stop (n + 1))
      (insert (Edge.silent n first) (insert (Edge.silent n start) (G ∪ H)))))
      n p n (n + 1) (L + M) := by
  have hstart := hf.start_mem
  have hstop := hf.stop_mem
  have hfirst := hg.start_mem
  have hlast := hg.stop_mem
  have hwithin : Within (G ∪ H) (n + 2) p :=
    (hf.within.mono (Nat.le_refl _) (by omega)).union (hg.within.mono (by omega) (Nat.le_refl _))
  constructor
  case within =>
    refine .insert_silent ?_ ?_ (.insert_silent ?_ ?_ (.insert_silent ?_ ?_
      (.insert_silent ?_ ?_ (hwithin.mono ?_ ?_))))
    all_goals omega
  case start_mem => omega
  case stop_mem => omega
  case entry =>
    simp only [avoids_insert_silent]
    refine ⟨?_, ?_, ?_, ?_, hwithin.avoids (.inl ?_)⟩
    all_goals omega
  case complete =>
    intro V hV
    simp only [closed_insert_silent, closed_union] at hV
    obtain ⟨hlast, hstop, hfirst, hstart, hG, hH⟩ := hV
    rw [add_mul, add_le_iff]
    constructor
    · calc L * V (n + 1) ≤ L * V stop := mul_le_mul_right hstop L
        _ ≤ V start := hf.complete V hG
        _ ≤ V n := hstart
    · calc M * V (n + 1) ≤ M * V last := mul_le_mul_right hlast M
        _ ≤ V first := hg.complete V hH
        _ ≤ V n := hfirst
  case sound =>
    intro K
    obtain ⟨V, hG, hKV, hV⟩ := hf.sound K
    obtain ⟨W, hH, hKW, hW⟩ := hg.sound K
    have hclosed : Closed (G ∪ H) (glue m V W) :=
      closed_union.2 ⟨hG.glue_left hf.within, hH.glue_right hg.within⟩
    refine ⟨frame n ((L + M) * K) K (glue m V W), ?_, ?_, ?_⟩
    · simp only [closed_insert_silent, frame_entry, frame_exit]
      rw [frame_inside hstart.1, frame_inside hstop.1, frame_inside (by omega),
        frame_inside (by omega), glue_of_lt hstart.2, glue_of_lt hstop.2, glue_of_le hfirst.1,
        glue_of_le hlast.1, add_mul]
      exact ⟨hKW, hKV, le_trans hW le_sup_right, le_trans hV le_sup_left, hclosed.frame hwithin⟩
    · rw [frame_exit]
    · rw [frame_entry]

/-! ## Repetitions -/

/-- The graph of a repetition under construction, between the entry `n` and the exit `n + 1`. There
are `before` copies of the body before the one from `start` to `stop`, which is not yet linked to
what follows, and those after the minimum may be skipped. -/
structure Unrolls (G : Set Edge) (n m start stop : Nat) (L : Language UInt8) (min before : Nat) :
    Prop where
  within : Within G n m
  start_mem : n + 2 ≤ start ∧ start < m
  stop_mem : n + 2 ≤ stop ∧ stop < m
  entry : Avoids G n
  copy_le : ∀ V, Closed G V → L * V stop ≤ V start
  pass_le : ∀ V, Closed G V → L ^ (before + 1) * V stop ≤ V n
  skip_le : ∀ V, Closed G V → powers L min (some before) * V (n + 1) ≤ V n
  sound : ∀ K M, ∃ V, Closed G V ∧ K ≤ V stop ∧ V (n + 1) = M ∧ V start ≤ L * K + M ∧
    V n ≤ L ^ (before + 1) * K + powers L min (some before) * M

variable {min before : Nat}

/-- The first copy of the body. -/
theorem Spells.unrolls (hf : Spells G (n + 2) m start stop L) (min : Nat) :
    Unrolls (insert (Edge.silent n start) ({e | min = 0 ∧ e = Edge.silent n (n + 1)} ∪ G))
      n m start stop L min 0 := by
  have hstart := hf.start_mem
  have hstop := hf.stop_mem
  constructor
  case within =>
    refine .insert_silent ?_ ?_ ((within_silent_of ?_ ?_).union (hf.within.mono ?_ ?_))
    all_goals omega
  case start_mem => exact hstart
  case stop_mem => exact hstop
  case entry =>
    have hG : Avoids G n := hf.within.avoids (.inl (by omega))
    have hne : start ≠ n := by omega
    exact avoids_insert_silent.2
      ⟨hne, avoids_union.2 ⟨avoids_silent_of (Nat.succ_ne_self n), hG⟩⟩
  case copy_le =>
    intro V hV
    exact hf.complete V (closed_union.1 (closed_insert_silent.1 hV).2).2
  case pass_le =>
    intro V hV
    obtain ⟨hentry, hV⟩ := closed_insert_silent.1 hV
    rw [zero_add, pow_one]
    exact le_trans (hf.complete V (closed_union.1 hV).2) hentry
  case skip_le =>
    intro V hV
    obtain ⟨-, hV⟩ := closed_insert_silent.1 hV
    have hskip := closed_silent_of.1 (closed_union.1 hV).1
    rw [powers_mul_le_iff]
    intro k hmin hbefore
    have hk : k = 0 := Nat.le_zero.1 (hbefore 0 rfl)
    rw [hk, pow_zero, one_mul]
    exact hskip (by omega)
  case sound =>
    intro K M
    obtain ⟨V, hG, hK, hV⟩ := hf.sound K
    refine ⟨frame n (L ^ (0 + 1) * K + powers L min (some 0) * M) M V, ?_, ?_, frame_exit, ?_, ?_⟩
    · refine closed_insert_silent.2 ⟨?_, closed_union.2 ⟨?_, hG.frame hf.within⟩⟩
      · rw [frame_entry, frame_inside hstart.1, zero_add, pow_one]
        exact le_trans hV le_sup_left
      · rw [closed_silent_of, frame_entry, frame_exit]
        intro hmin
        have hone : L ^ 0 * M ≤ powers L min (some 0) * M :=
          mul_le_mul_left (pow_le_powers hmin.le (by simp)) M
        rw [pow_zero, one_mul] at hone
        exact le_trans hone le_sup_right
    · rw [frame_inside hstop.1]
      exact hK
    · rw [frame_inside hstart.1]
      exact le_trans hV le_sup_left
    · rw [frame_entry]

/-- Whether the next copy may be skipped decides what it has to pass on from the exit. -/
theorem exists_skip_label (L M : Language UInt8) (min before : Nat) :
    ∃ E, (min < before + 2 → M ≤ E) ∧ E ≤ M ∧
      L ^ (before + 1) * E ≤ powers L min (some (before + 1)) * M := by
  by_cases hskip : min < before + 2
  · refine ⟨M, fun _ => le_refl M, le_refl M, ?_⟩
    exact mul_le_mul_left (pow_le_powers (by omega) (by simp)) M
  · refine ⟨0, fun h => absurd h hskip, bot_le, ?_⟩
    rw [mul_zero]
    exact bot_le

theorem powers_le_succ (L : Language UInt8) (min before : Nat) :
    powers L min (some before) ≤ powers L min (some (before + 1)) :=
  powers_mono (by simp; omega)

/-- One more copy of the body. What follows it is labelled first, then the copies before it. -/
theorem Unrolls.extend (hu : Unrolls G n m start stop L min before)
    (hf : Spells H m p first last L) :
    Unrolls ({e | min < before + 2 ∧ e = Edge.silent first (n + 1)} ∪
      insert (Edge.silent stop first) (G ∪ H)) n p first last L min (before + 1) := by
  have hstart := hu.start_mem
  have hstop := hu.stop_mem
  have hfirst := hf.start_mem
  have hlast := hf.stop_mem
  constructor
  case within =>
    refine (within_silent_of ?_ ?_).union
      (.insert_silent ?_ ?_ ((hu.within.mono ?_ ?_).union (hf.within.mono ?_ ?_)))
    all_goals omega
  case start_mem => omega
  case stop_mem => omega
  case entry =>
    have hH : Avoids H n := hf.within.avoids (.inl (by omega))
    have hne : first ≠ n := by omega
    exact avoids_union.2 ⟨avoids_silent_of (Nat.succ_ne_self n),
      avoids_insert_silent.2 ⟨hne, avoids_union.2 ⟨hu.entry, hH⟩⟩⟩
  case copy_le =>
    intro V hV
    obtain ⟨-, hV⟩ := closed_union.1 hV
    exact hf.complete V (closed_union.1 (closed_insert_silent.1 hV).2).2
  case pass_le =>
    intro V hV
    obtain ⟨hlink, hV⟩ := closed_insert_silent.1 (closed_union.1 hV).2
    obtain ⟨hG, hH⟩ := closed_union.1 hV
    calc L ^ (before + 1 + 1) * V last = L ^ (before + 1) * (L * V last) := by
          rw [pow_succ, mul_assoc]
      _ ≤ L ^ (before + 1) * V first := mul_le_mul_right (hf.complete V hH) _
      _ ≤ L ^ (before + 1) * V stop := mul_le_mul_right hlink _
      _ ≤ V n := hu.pass_le V hG
  case skip_le =>
    intro V hV
    obtain ⟨hskip, hV⟩ := closed_union.1 hV
    obtain ⟨hlink, hV⟩ := closed_insert_silent.1 hV
    obtain ⟨hG, -⟩ := closed_union.1 hV
    rw [powers_mul_le_iff]
    intro k hmin hk
    have hle : k ≤ before + 1 := hk (before + 1) rfl
    by_cases hbefore : k ≤ before
    · exact powers_mul_le_iff.1 (hu.skip_le V hG) k hmin (by simpa using hbefore)
    · obtain rfl : k = before + 1 := by omega
      calc L ^ (before + 1) * V (n + 1) ≤ L ^ (before + 1) * V first :=
            mul_le_mul_right (closed_silent_of.1 hskip (by omega)) _
        _ ≤ L ^ (before + 1) * V stop := mul_le_mul_right hlink _
        _ ≤ V n := hu.pass_le V hG
  case sound =>
    intro K M
    obtain ⟨E, hME, hEM, hE⟩ := exists_skip_label L M min before
    obtain ⟨W, hH, hK, hW⟩ := hf.sound K
    obtain ⟨V, hG, hA, hM, -, hV⟩ := hu.sound (L * K + E) M
    -- No edge of the new copy leads to its entry, so the label there can make room for the exit.
    have hraise : W first ≤ L * K + E := le_trans hW le_sup_left
    refine ⟨glue m V (Function.update W first (L * K + E)), ?_, ?_, ?_, ?_, ?_⟩
    · refine closed_union.2 ⟨closed_silent_of.2 ?_, closed_insert_silent.2 ⟨?_, closed_union.2
        ⟨hG.glue_left hu.within, (hH.raise hf.entry hraise).glue_right hf.within⟩⟩⟩
      · intro hskip
        rw [glue_of_lt (by omega), glue_of_le hfirst.1, Function.update_self, hM]
        exact le_trans (hME hskip) le_sup_right
      · rw [glue_of_le hfirst.1, glue_of_lt hstop.2, Function.update_self]
        exact hA
    · rw [glue_of_le hlast.1]
      exact le_trans hK (le_update_self_iff.2 hraise last)
    · rw [glue_of_lt (by omega), hM]
    · rw [glue_of_le hfirst.1, Function.update_self]
      exact add_le_add_right hEM _
    · rw [glue_of_lt (by omega)]
      have hpow : L ^ (before + 1) * (L * K) = L ^ (before + 1 + 1) * K := by
        rw [pow_succ _ (before + 1), mul_assoc]
      refine le_trans hV (add_le_iff.2 ⟨?_, ?_⟩)
      · rw [mul_add, hpow]
        exact add_le_add_right hE _
      · exact le_trans (mul_le_mul_left (powers_le_succ L min before) M) le_sup_right

variable {max : Option Nat}

/-- What the exit of a repetition has to be labelled with so that it can also lead back. -/
theorem exists_exit_label (K : Language UInt8) (hmax : ∀ k ∈ max, k = before + 1) :
    ∃ X, K ≤ X ∧ (max = none → L * X + X ≤ X) ∧
      powers L min (some (before + 1)) * X ≤ powers L min max * K := by
  cases max with
  | none =>
    refine ⟨L∗ * K, ?_, fun _ => add_le_iff.2 ⟨?_, le_refl _⟩, ?_⟩
    · calc K = 1 * K := (one_mul K).symm
        _ ≤ L∗ * K := mul_le_mul_left one_le_kstar K
    · rw [← mul_assoc]
      exact mul_le_mul_left mul_kstar_le_kstar K
    · rw [← mul_assoc]
      exact mul_le_mul_left powers_mul_kstar_le K
  | some b =>
    obtain rfl := hmax b rfl
    exact ⟨K, le_refl K, nofun, le_refl _⟩

/-- Going back any number of times leads from the exit to itself. -/
theorem Unrolls.repeat_le {V : Nat → Language UInt8} (hu : Unrolls G n m start stop L min before)
    (hG : Closed G V) (hlink : V (n + 1) ≤ V stop) (hback : V start ≤ V (n + 1)) (j : Nat) :
    L ^ j * V (n + 1) ≤ V (n + 1) := by
  have hloop : L * V (n + 1) ≤ V (n + 1) :=
    calc L * V (n + 1) ≤ L * V stop := mul_le_mul_right hlink L
      _ ≤ V start := hu.copy_le V hG
      _ ≤ V (n + 1) := hback
  exact le_trans (mul_le_mul_left pow_le_kstar _) (kstar_mul_le_self hloop)

/-- The last copy leads to the exit, and without a maximum the exit leads back to it. -/
theorem Unrolls.close (hu : Unrolls G n m start stop L min before) (hmin : min ≤ before + 1)
    (hmax : ∀ k ∈ max, k = before + 1) :
    Spells ({e | max = none ∧ e = Edge.silent (n + 1) start} ∪
      insert (Edge.silent stop (n + 1)) G) n m n (n + 1) (powers L min max) := by
  have hstart := hu.start_mem
  have hstop := hu.stop_mem
  constructor
  case within =>
    refine (within_silent_of ?_ ?_).union (.insert_silent ?_ ?_ hu.within)
    all_goals omega
  case start_mem => omega
  case stop_mem => omega
  case entry =>
    have hne : start ≠ n := by omega
    exact avoids_union.2 ⟨avoids_silent_of hne,
      avoids_insert_silent.2 ⟨Nat.succ_ne_self n, hu.entry⟩⟩
  case complete =>
    intro V hV
    obtain ⟨hback, hV⟩ := closed_union.1 hV
    obtain ⟨hlink, hG⟩ := closed_insert_silent.1 hV
    rw [powers_mul_le_iff]
    intro k hk hle
    by_cases hbefore : k ≤ before
    · exact powers_mul_le_iff.1 (hu.skip_le V hG) k hk (by simpa using hbefore)
    · obtain ⟨j, rfl⟩ := Nat.exists_eq_add_of_le (Nat.lt_of_not_le hbefore)
      have hrepeat : L ^ j * V (n + 1) ≤ V (n + 1) := by
        cases max with
        | none => exact hu.repeat_le hG hlink (closed_silent_of.1 hback rfl) j
        | some b =>
          have hb := hmax b rfl
          have hj := hle b rfl
          obtain rfl : j = 0 := by omega
          rw [pow_zero, one_mul]
      calc L ^ (before + 1 + j) * V (n + 1) = L ^ (before + 1) * (L ^ j * V (n + 1)) := by
            rw [pow_add, mul_assoc]
        _ ≤ L ^ (before + 1) * V (n + 1) := mul_le_mul_right hrepeat _
        _ ≤ L ^ (before + 1) * V stop := mul_le_mul_right hlink _
        _ ≤ V n := hu.pass_le V hG
  case sound =>
    intro K
    obtain ⟨X, hKX, hloop, hX⟩ := exists_exit_label K hmax
    obtain ⟨V, hG, hstopX, hexit, hcopy, hV⟩ := hu.sound X X
    refine ⟨V, closed_union.2 ⟨closed_silent_of.2 ?_, closed_insert_silent.2 ⟨?_, hG⟩⟩, ?_, ?_⟩
    · intro hnone
      rw [hexit]
      exact le_trans hcopy (hloop hnone)
    · rw [hexit]
      exact hstopX
    · rw [hexit]
      exact hKX
    · have hpow : L ^ (before + 1) ≤ powers L min (some (before + 1)) :=
        pow_le_powers hmin (by simp)
      calc V n ≤ L ^ (before + 1) * X + powers L min (some before) * X := hV
        _ ≤ powers L min (some (before + 1)) * X := add_le_iff.2
          ⟨mul_le_mul_left hpow X, mul_le_mul_left (powers_le_succ L min before) X⟩
        _ ≤ powers L min max * K := hX

end ByteRegex
