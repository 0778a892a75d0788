import ByteRegex.Proofs.ReadingProgress

/-!
# Heights of a reading

The heights that a recursive reading keeps are those of the terms it has read, as far as words can
hold them. A row that grows by a term takes only this one's height into account, and a quantifier
only that of the newest term, so both have to be right for the row to stay so.
-/

namespace ByteRegex

namespace Descent

variable {limits : Limits} {pattern : List UInt8} {opened : List Nat} {fuel pos : Nat}

/-! ## Numbers in words -/

/-- The word is the number, or the largest word if the number is above it. -/
def Measures (x : UInt32) (n : Nat) : Prop := x.toNat = min n Limits.wordMax

section Measures

variable {x y : UInt32} {m n : Nat}

theorem measures_zero : Measures 0 0 := rfl

theorem Measures.maximum (h : Measures x m) (h' : Measures y n) :
    Measures (max x y) (max m n) := by
  change (if x ≤ y then y else x).toNat = min (max m n) Limits.wordMax
  unfold Measures at h h'
  split
  · next hle =>
    rw [UInt32.le_iff_toNat_le] at hle
    omega
  · next hlt =>
    rw [UInt32.le_iff_toNat_le] at hlt
    omega

theorem Measures.succ (h : Measures x n) : Measures (saturatingSucc x) (n + 1) := by
  unfold Measures Limits.wordMax saturatingSucc at *
  split
  · next hmax =>
    subst hmax
    simp only [UInt32.reduceToNat] at h ⊢
    omega
  · next hne =>
    have hlt : x.toNat ≠ 4294967295 := fun he => hne (UInt32.toNat.inj he)
    have hone : (1 : UInt32).toNat = 1 := rfl
    rw [UInt32.toNat_add, hone]
    omega

theorem Measures.le_iff (h : Measures x n) : x ≤ limits.nestLimit ↔ limits.Allows n := by
  rw [UInt32.le_iff_toNat_le, h, Limits.Allows]

theorem Measures.nest_eq (h : Measures x n) : nest limits pos x =
    if limits.Allows n then .ok x else .error (limits.tooDeep pos) := by
  by_cases hle : x ≤ limits.nestLimit
  · rw [nest, if_pos hle, if_pos (h.le_iff.1 hle)]
  · rw [nest, if_neg hle, if_neg fun ha => hle (h.le_iff.2 ha)]

end Measures

/-! ## Rows -/

structure Row.Measured (row : Row) : Prop where
  last : ∀ t ∈ row.terms.head?, Measures row.last t.height
  height : Measures row.height (Term.heightAll row.terms)

def Content.Measured (c : Content) : Prop := Measures c.height (Term.heightAll c.terms)

variable {row row' : Row} {x : UInt32} {t : Term}

theorem Row.measured_empty : ({} : Row).Measured := ⟨nofun, measures_zero⟩

theorem Row.Measured.push (h : row.Measured) (ht : Measures x t.height) :
    (row.push t x).Measured := by
  constructor
  case last =>
    rintro _ ⟨⟩
    exact ht
  case height =>
    rw [Row.push, Term.heightAll_cons, Nat.max_comm]
    exact h.height.maximum ht

/-- The newest term is one higher than before, and all others are as they were. -/
theorem Row.Measured.quantify {m : Mark} {b : Bound} (h : row.Measured)
    (hq : row.quantify limits m pos b = .ok row') : row'.Measured := by
  unfold Row.quantify at hq
  split at hq
  · cases hq
  · next t ts hterms =>
    obtain ⟨hlast, hheight⟩ := h
    rw [hterms] at hlast hheight
    have hsucc : Measures (saturatingSucc row.last) (t.height + 1) := (hlast t rfl).succ
    rw [hsucc.nest_eq] at hq
    split at hq
    · cases hq
      have hmax : max (Term.heightAll (t :: ts)) (t.height + 1) =
          max (t.height + 1) (Term.heightAll ts) := by
        rw [Term.heightAll_cons]
        omega
      constructor
      case last =>
        rintro _ ⟨⟩
        exact hsucc
      case height =>
        have hrow := hheight.maximum hsucc
        rwa [hmax] at hrow
    · cases hq

theorem Row.Measured.content (h : row.Measured) : row.content.Measured := by
  rw [Content.Measured, Row.content, Term.heightAll_reverse]
  exact h.height

theorem Content.Measured.alternation {left right : Content} (hleft : left.Measured)
    (hright : right.Measured) : Measured ⟨[.alternation left.terms right.terms],
      saturatingSucc (max left.height right.height)⟩ := by
  rw [Content.Measured, Term.heightAll_cons, Term.heightAll_nil, Nat.max_zero]
  exact (hleft.maximum hright).succ

/-! ## Calls -/

variable {s u : Spot} {c : Content}

theorem measured_branches {right : Call Row} {left : Content}
    (hright : ∀ s row u, right s = .ok (row, u) → row.Measured) (hleft : left.Measured)
    (h : branches limits pattern right fuel left s = .ok (c, u)) : c.Measured := by
  induction fuel generalizing left s with
  | zero => cases h
  | succ fuel ih =>
    unfold branches at h
    split at h
    · obtain ⟨next, -, h⟩ := bind_eq_ok_iff.1 h
      obtain ⟨⟨row, v⟩, hrow, h⟩ := bind_eq_ok_iff.1 h
      obtain ⟨height, hheight, h⟩ := bind_eq_ok_iff.1 h
      obtain ⟨rfl, -⟩ := nest_eq_ok_iff.1 (lift_eq_ok_iff.1 hheight)
      exact ih (hleft.alternation (hright _ _ _ hrow).content) h
    · cases h
      exact hleft

theorem measured_scope {call : Call Row}
    (hcall : ∀ s row u, call s = .ok (row, u) → row.Measured)
    (h : scope limits pattern call fuel s = .ok (c, u)) : c.Measured := by
  obtain ⟨⟨row, v⟩, hrow, h⟩ := bind_eq_ok_iff.1 h
  exact measured_branches hcall (hcall _ _ _ hrow).content h

theorem measured_group {inside : List Nat → Call Content}
    (hinside : ∀ opened s c u, inside opened s = .ok (c, u) → c.Measured)
    (h : group limits pattern opened inside s = .ok ((t, x), u)) : Measures x t.height := by
  obtain ⟨depth, children, v, -, hchildren, -, -, -, heq⟩ := group_eq_ok h
  cases heq
  exact (hinside _ _ _ _ hchildren).succ

theorem Continues.measured (h : row.Measured)
    (hnext : Continues limits pattern fuel opened row s row' u)
    (hcall : ∀ opened s row v, sequence limits pattern fuel opened {} s = .ok (row, v) →
      row.Measured) : row'.Measured := by
  cases hnext with
  | literal _ => exact h.push measures_zero
  | group hgroup =>
    refine h.push (measured_group (fun opened s c v hc => ?_) hgroup)
    exact measured_scope (hcall opened) hc
  | charSet _ => exact h.push measures_zero
  | bound _ hquantify => exact h.quantify hquantify
  | quantifier _ hquantify => exact h.quantify hquantify

/-- Whatever sequences are read on from a row with the right heights, the heights stay right. -/
theorem measured_sequence (h : row.Measured)
    (hread : sequence limits pattern fuel opened row s = .ok (row', u)) : row'.Measured := by
  induction fuel generalizing opened row s row' u with
  | zero => cases hread
  | succ fuel ih =>
    obtain heq | ⟨next, v, hnext, hread⟩ := continues_of_sequence hread
    · cases heq
      exact h
    · have hcall : ∀ opened s row v, sequence limits pattern fuel opened {} s = .ok (row, v) →
          row.Measured := fun _ _ _ _ => ih Row.measured_empty
      exact ih (hnext.measured h hcall) hread

end Descent

end ByteRegex
