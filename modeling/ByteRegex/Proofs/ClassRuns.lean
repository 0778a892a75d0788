import ByteRegex.ByteClass
import Mathlib.Data.List.Chain

/-!
# The runs of a class

The runs of a class are the only ascending intervals with a gap between neighbours that cover
exactly its members. The loop that finds them keeps this of the bytes it has read, and two rows
of such intervals that cover the same bytes agree from their first interval on.
-/

namespace ByteRegex

namespace ByteClass

/-! ## Separated runs -/

def Covers (rs : List Run) (b : UInt8) : Prop := ∃ r ∈ rs, b ∈ r

def Run.Before (r s : Run) : Prop := r.last.toNat + 2 ≤ s.first.toNat

structure Separated (rs : List Run) : Prop where
  ordered : ∀ r ∈ rs, r.first ≤ r.last
  apart : rs.IsChain Run.Before

structure IsDecomposition (rs : List Run) (c : ByteClass) : Prop extends Separated rs where
  covers : ∀ b, b ∈ c ↔ Covers rs b

section Covers

variable {r : Run} {rs : List Run} {a b : UInt8}

theorem Run.mem_iff_toNat : b ∈ r ↔ r.first.toNat ≤ b.toNat ∧ b.toNat ≤ r.last.toNat := by
  rw [Run.mem_def, UInt8.le_iff_toNat_le, UInt8.le_iff_toNat_le]

theorem Run.mem_single : a ∈ (⟨b, b⟩ : Run) ↔ a = b := by
  rw [Run.mem_iff_toNat, ← UInt8.toNat_inj]
  exact Nat.le_antisymm_iff.symm.trans eq_comm

theorem Run.mem_lengthened (hr : r.first ≤ r.last) (hb : r.last.toNat + 1 = b.toNat) :
    a ∈ (⟨r.first, b⟩ : Run) ↔ a = b ∨ a ∈ r := by
  have := UInt8.le_iff_toNat_le.1 hr
  rw [Run.mem_iff_toNat, Run.mem_iff_toNat, ← UInt8.toNat_inj]
  dsimp only
  omega

theorem not_covers_nil : ¬Covers [] b := by simp [Covers]

theorem covers_cons : Covers (r :: rs) b ↔ b ∈ r ∨ Covers rs b := by simp [Covers]

theorem covers_reverse : Covers rs.reverse b ↔ Covers rs b := by simp [Covers]

end Covers

/-! ## The loop -/

section Loop

variable {rs ss : List Run} {bs : List UInt8} {b : UInt8}

/-- What the loop holds after these bytes: separated runs, newest first, that cover just them. -/
structure Holds (rs : List Run) (bs : List UInt8) : Prop where
  ordered : ∀ r ∈ rs, r.first ≤ r.last
  apart : rs.IsChain fun newer older => older.Before newer
  covers : ∀ b, b ∈ bs ↔ Covers rs b

theorem holds_nil : Holds [] [] := ⟨nofun, .nil, fun _ => iff_of_false nofun not_covers_nil⟩

theorem Holds.covers_append (h : Holds rs bs) (hss : ∀ a, Covers ss a ↔ a = b ∨ Covers rs a) :
    ∀ a, a ∈ bs ++ [b] ↔ Covers ss a := by
  intro a
  rw [hss, ← h.covers, List.mem_append, List.mem_singleton, or_comm]

/-- A byte above all that was read is above the newest run. -/
theorem Holds.last_lt {r : Run} (h : Holds (r :: rs) bs) (hb : ∀ a ∈ bs, a < b) :
    r.last.toNat < b.toNat := by
  have hlast : r.last ∈ r := ⟨h.ordered r List.mem_cons_self, UInt8.le_refl _⟩
  exact UInt8.lt_iff_toNat_lt.1 (hb _ ((h.covers _).2 (covers_cons.2 (.inl hlast))))

theorem Holds.extend (h : Holds rs bs) (hb : ∀ a ∈ bs, a < b) :
    Holds (Run.extend rs b) (bs ++ [b]) := by
  match rs, h with
  | [], h =>
    refine ⟨by simp [Run.extend], .singleton _, h.covers_append fun a => ?_⟩
    rw [Run.extend, covers_cons, Run.mem_single]
  | r :: older, h =>
    have hlast := h.last_lt hb
    obtain ⟨hr, holder⟩ := List.forall_mem_cons.1 h.ordered
    simp only [Run.extend]
    split
    case isTrue hfollows =>
      -- the run grows at its end, so the gap below it stays as it is
      refine ⟨List.forall_mem_cons.2 ⟨?_, holder⟩, ?_, h.covers_append fun a => ?_⟩
      · exact UInt8.le_trans hr (UInt8.le_iff_toNat_le.2 (Nat.le_of_lt hlast))
      · refine h.apart.imp_head fun hbelow => ?_
        exact hbelow
      · rw [covers_cons, covers_cons, Run.mem_lengthened hr hfollows, or_assoc]
    case isFalse hgap =>
      refine ⟨List.forall_mem_cons.2 ⟨UInt8.le_refl _, h.ordered⟩, ?_, h.covers_append fun a => ?_⟩
      · have hbefore : r.last.toNat + 2 ≤ b.toNat := by omega
        exact List.isChain_cons_cons.2 ⟨hbefore, h.apart⟩
      · rw [covers_cons, Run.mem_single]

theorem holds_foldl_extend (h : bs.Pairwise (· < ·)) : Holds (bs.foldl Run.extend []) bs := by
  induction bs using List.reverseRecOn with
  | nil => exact holds_nil
  | append_singleton bs b ih =>
    obtain ⟨hbs, -, hb⟩ := List.pairwise_append.1 h
    rw [List.foldl_append]
    exact (ih hbs).extend fun a ha => hb a ha b List.mem_cons_self

end Loop

theorem isDecomposition_runs (c : ByteClass) : IsDecomposition c.runs c := by
  have h := holds_foldl_extend c.ascending
  have hordered : ∀ r ∈ c.runs, r.first ≤ r.last :=
    fun r hr => h.ordered r (List.mem_reverse.1 hr)
  have hcovers : ∀ b, b ∈ c ↔ Covers c.runs b :=
    fun b => mem_members.symm.trans ((h.covers b).trans covers_reverse.symm)
  exact ⟨⟨hordered, List.isChain_reverse.2 h.apart⟩, hcovers⟩

/-! ## Uniqueness -/

section Unique

variable {r s : Run} {rs ss : List Run} {c : ByteClass} {b : UInt8}

theorem Separated.tail (h : Separated (r :: rs)) : Separated rs :=
  ⟨(List.forall_mem_cons.1 h.ordered).2, h.apart.tail⟩

theorem Separated.head_ordered (h : Separated (r :: rs)) : r.first.toNat ≤ r.last.toNat :=
  UInt8.le_iff_toNat_le.1 (h.ordered r List.mem_cons_self)

theorem Separated.covers_first (h : Separated (r :: rs)) : Covers (r :: rs) r.first :=
  covers_cons.2 (.inl ⟨UInt8.le_refl _, h.ordered r List.mem_cons_self⟩)

/-- What the later runs cover lies behind the gap after the first one. -/
theorem Separated.gap (h : Separated (r :: rs)) (hb : Covers rs b) :
    r.last.toNat + 2 ≤ b.toNat := by
  induction rs generalizing r with
  | nil => exact absurd hb not_covers_nil
  | cons s rs ih =>
    have hgap : r.last.toNat + 2 ≤ s.first.toNat := (List.isChain_cons_cons.1 h.apart).1
    rcases covers_cons.1 hb with hb | hb
    · have := Run.mem_iff_toNat.1 hb
      omega
    · have := ih h.tail hb
      have := h.tail.head_ordered
      omega

theorem Separated.first_le (h : Separated (r :: rs)) (hb : Covers (r :: rs) b) : r.first ≤ b := by
  rcases covers_cons.1 hb with hb | hb
  · exact hb.1
  · have := h.gap hb
    have := h.head_ordered
    exact UInt8.le_iff_toNat_le.2 (by omega)

theorem Separated.covers_tail_iff (h : Separated (r :: rs)) :
    Covers rs b ↔ Covers (r :: rs) b ∧ b ∉ r := by
  rw [covers_cons]
  refine ⟨fun hb => ⟨.inr hb, fun hr => ?_⟩, fun ⟨hb, hr⟩ => hb.resolve_left hr⟩
  have := h.gap hb
  have := (Run.mem_iff_toNat.1 hr).2
  omega

/-- A run that begins no later and whose bytes are all covered ends no later either: the byte
behind the end of `r` is covered by nothing. -/
theorem Separated.last_le (h : Separated (r :: rs)) (hfirst : s.first ≤ r.first)
    (hs : ∀ b ∈ s, Covers (r :: rs) b) : s.last ≤ r.last := by
  have hr := h.head_ordered
  by_contra hlt
  rw [UInt8.le_iff_toNat_le] at hfirst hlt
  have hbehind : (UInt8.ofNat (r.last.toNat + 1)).toNat = r.last.toNat + 1 := by
    have := s.last.toNat_lt
    exact UInt8.toNat_ofNat_of_lt' (by simp only [UInt8.size]; omega)
  have hmem : UInt8.ofNat (r.last.toNat + 1) ∈ s := by
    rw [Run.mem_iff_toNat, hbehind]
    omega
  rcases covers_cons.1 (hs _ hmem) with hb | hb
  · have := (Run.mem_iff_toNat.1 hb).2
    omega
  · have := h.gap hb
    omega

/-- The first runs of two decompositions agree, and then so do the bytes the others cover. -/
theorem Separated.eq_of_covers (h : Separated rs) (h' : Separated ss)
    (heq : ∀ b, Covers rs b ↔ Covers ss b) : rs = ss := by
  induction rs generalizing ss with
  | nil =>
    cases ss with
    | nil => rfl
    | cons s ss => exact absurd ((heq _).2 h'.covers_first) not_covers_nil
  | cons r rs ih =>
    cases ss with
    | nil => exact absurd ((heq _).1 h.covers_first) not_covers_nil
    | cons s ss =>
      have hrs : r.first ≤ s.first := h.first_le ((heq _).2 h'.covers_first)
      have hsr : s.first ≤ r.first := h'.first_le ((heq _).1 h.covers_first)
      have hlast : r.last = s.last := by
        refine UInt8.le_antisymm (h'.last_le hrs fun b hb => ?_) (h.last_le hsr fun b hb => ?_)
        · exact (heq b).1 (covers_cons.2 (.inl hb))
        · exact (heq b).2 (covers_cons.2 (.inl hb))
      obtain rfl : r = s := Run.ext (UInt8.le_antisymm hrs hsr) hlast
      have htail : ∀ b, Covers rs b ↔ Covers ss b := by
        intro b
        rw [h.covers_tail_iff, h'.covers_tail_iff, heq]
      rw [ih h.tail h'.tail htail]

theorem isDecomposition_iff : IsDecomposition rs c ↔ rs = c.runs := by
  constructor
  · intro h
    have hruns := isDecomposition_runs c
    exact h.toSeparated.eq_of_covers hruns.toSeparated fun b =>
      (h.covers b).symm.trans (hruns.covers b)
  · rintro rfl
    exact isDecomposition_runs c

end Unique

/-! ## From runs to classes -/

def insertRuns (rs : List Run) (c : ByteClass) : ByteClass :=
  rs.foldl (fun c r => c.insertRange r.first r.last) c

theorem mem_insertRuns {rs : List Run} {c : ByteClass} {b : UInt8} :
    b ∈ c.insertRuns rs ↔ b ∈ c ∨ Covers rs b := by
  induction rs generalizing c with
  | nil => simp [insertRuns, not_covers_nil]
  | cons r rs ih =>
    have hstep : c.insertRuns (r :: rs) = (c.insertRange r.first r.last).insertRuns rs := rfl
    rw [hstep, ih, mem_insertRange, covers_cons, Run.mem_def, or_assoc]
    exact or_left_comm

theorem insertRuns_runs (c : ByteClass) : (∅ : ByteClass).insertRuns c.runs = c := by
  refine ext_mem fun b => ?_
  rw [mem_insertRuns, (isDecomposition_runs c).covers]
  exact or_iff_right (not_mem_empty b)

end ByteClass

end ByteRegex
