import ByteRegex.Term
import Mathlib.Computability.Language
import Mathlib.Order.CompletePartialOrder

/-!
# Languages of terms

The byte strings that a list of terms matches as a whole, defined on the terms alone: terms stand
for the products of their words, alternations for unions and repetitions for unions of powers.
-/

open Computability

namespace ByteRegex

def powers (L : Language UInt8) (least : Nat) (most : Option Nat) : Language UInt8 :=
  {w | ∃ k, least ≤ k ∧ (∀ n ∈ most, k ≤ n) ∧ w ∈ L ^ k}

namespace Term

mutual

def language : Term → Language UInt8
  | literal b => {[b]}
  | charSet c => {w | ∃ b ∈ c, w = [b]}
  | group children => languageAll children
  | alternation left right => languageAll left + languageAll right
  | repetition body min max => powers body.language min max

def languageAll : List Term → Language UInt8
  | [] => 1
  | t :: ts => t.language * languageAll ts

end

end Term

/-! ## Powers -/

section

variable {L M N : Language UInt8} {least k : Nat} {most : Option Nat}

theorem pow_le_powers (hleast : least ≤ k) (hmost : ∀ n ∈ most, k ≤ n) :
    L ^ k ≤ powers L least most := fun _ hw => ⟨k, hleast, hmost, hw⟩

theorem powers_mono {most' : Option Nat} (h : ∀ k, (∀ n ∈ most, k ≤ n) → ∀ n ∈ most', k ≤ n) :
    powers L least most ≤ powers L least most' := by
  rintro w ⟨k, hleast, hmost, hw⟩
  exact ⟨k, hleast, h k hmost, hw⟩

theorem powers_mul_le_iff :
    powers L least most * M ≤ N ↔
      ∀ k, least ≤ k → (∀ n ∈ most, k ≤ n) → L ^ k * M ≤ N := by
  constructor
  · intro h k hleast hmost
    exact le_trans (mul_le_mul_left (pow_le_powers hleast hmost) M) h
  · intro h w hw
    obtain ⟨u, ⟨k, hleast, hmost, hu⟩, v, hv, rfl⟩ := Language.mem_mul.1 hw
    exact h k hleast hmost (Language.append_mem_mul hu hv)

/-- Further words of the language can be added where there is no upper bound. -/
theorem powers_mul_kstar_le : powers L least most * L∗ ≤ powers L least none := by
  rw [powers_mul_le_iff]
  intro k hleast _
  rw [Language.kstar_eq_iSup_pow, Language.mul_iSup]
  apply iSup_le
  intro j
  rw [← pow_add]
  exact pow_le_powers (Nat.le_add_right_of_le hleast) nofun

end

end ByteRegex
