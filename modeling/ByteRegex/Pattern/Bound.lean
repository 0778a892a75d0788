import ByteRegex.CompileError
import ByteRegex.Limits
import ByteRegex.Pattern.Mark

/-!
# Bounds

How often a term is repeated, and how this is read from the text between braces: a minimum, a
minimum and a comma, or a minimum and a maximum around a comma.
-/

namespace ByteRegex

structure Bound where
  min : Nat
  max : Option Nat
deriving DecidableEq

namespace Bound

def star : Bound := ⟨0, none⟩

def plus : Bound := ⟨1, none⟩

def question : Bound := ⟨0, some 1⟩

def largest (b : Bound) : Nat := b.max.getD b.min

def IsOrdered (b : Bound) : Prop := ∀ n ∈ b.max, b.min ≤ n ∧ 0 < n

instance (b : Bound) : Decidable b.IsOrdered :=
  match h : b.max with
  | none => .isTrue (by simp [IsOrdered, h])
  | some n => decidable_of_iff (b.min ≤ n ∧ 0 < n) (by simp [IsOrdered, h])

/-! ## Counts -/

def IsDigit (b : UInt8) : Prop := 48 ≤ b ∧ b ≤ 57

instance (b : UInt8) : Decidable (IsDigit b) := inferInstanceAs (Decidable (_ ∧ _))

def value (digits : List UInt8) : Nat := digits.foldl (fun n d => 10 * n + (d.toNat - 48)) 0

/-- Reads a count. A number that does not fit in a 32-bit word is too large under every limit. -/
def count (limits : Limits) (opened : Nat) (text : List UInt8) : Except CompileError Nat :=
  if text.all (IsDigit ·) then
    if value text ≤ Limits.wordMax then .ok (value text)
    else .error (.repeatTooLarge opened limits.maxRepeat.toNat)
  else .error (.malformedBound opened)

/-! ## Bounds -/

def check (limits : Limits) (opened : Nat) (b : Bound) : Except CompileError Bound :=
  if b.IsOrdered then
    if b.largest ≤ limits.maxRepeat.toNat then .ok b
    else .error (.repeatTooLarge opened limits.maxRepeat.toNat)
  else .error (.invalidBound opened)

/-- Reads a minimum and the text after the first comma, which is empty or a maximum. -/
def readRange (limits : Limits) (opened : Nat) (minText maxText : List UInt8) :
    Except CompileError Bound := do
  let min ← count limits opened minText
  if maxText = [] then check limits opened ⟨min, none⟩
  else
    let max ← count limits opened maxText
    check limits opened ⟨min, some max⟩

def read (limits : Limits) (opened : Nat) (text : List UInt8) : Except CompileError Bound :=
  let minText := text.takeWhile (· ≠ Mark.comma)
  if minText = [] then .error (.missingMin opened)
  else
    match text.dropWhile (· ≠ Mark.comma) with
    | [] => do
      let n ← count limits opened minText
      check limits opened ⟨n, some n⟩
    | _ :: maxText =>
      if Mark.comma ∈ maxText then .error (.malformedBound opened)
      else readRange limits opened minText maxText

end Bound

end ByteRegex
