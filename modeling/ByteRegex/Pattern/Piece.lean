import ByteRegex.CompileError
import ByteRegex.Limits
import ByteRegex.Pattern.Bound
import ByteRegex.Term

/-!
# Pieces

Terms as they come out of a pattern, each with its height at hand, and the check that no height
exceeds the nesting limit.
-/

namespace ByteRegex

structure Piece where
  term : Term
  height : Nat
  height_eq : height = term.height

namespace Piece

/-- The terms of a list of pieces that has the newest piece first. -/
def terms (pieces : List Piece) : List Term := (pieces.map term).reverse

def highest (pieces : List Piece) : Nat := pieces.foldr (fun p h => max p.height h) 0

theorem highest_eq (pieces : List Piece) : highest pieces = Term.heightAll (terms pieces) := by
  rw [terms, Term.heightAll_reverse]
  induction pieces with
  | nil => rfl
  | cons p ps ih => simp [highest, p.height_eq, ← ih]

def literal (b : UInt8) : Piece := ⟨.literal b, 0, rfl⟩

def charSet (c : ByteClass) : Piece := ⟨.charSet c, 0, rfl⟩

def group (children : List Piece) : Piece :=
  ⟨.group (terms children), highest children + 1, by simp [highest_eq]⟩

def alternation (left right : List Piece) : Piece :=
  ⟨.alternation (terms left) (terms right), max (highest left) (highest right) + 1,
    by simp [highest_eq]⟩

def repetition (body : Piece) (b : Bound) : Piece :=
  ⟨.repetition body.term b.min b.max, body.height + 1, by simp [body.height_eq]⟩

end Piece

namespace Limits

/-- Whether a height stays within the nesting limit. Heights are counted in 32-bit words and stop
at the largest one, so the largest limit allows every height. -/
def Allows (limits : Limits) (height : Nat) : Prop := min height wordMax ≤ limits.nestLimit.toNat

instance (limits : Limits) (height : Nat) : Decidable (limits.Allows height) :=
  inferInstanceAs (Decidable (_ ≤ _))

def tooDeep (limits : Limits) (offset : Nat) : CompileError :=
  .nestTooDeep offset limits.nestLimit.toNat

def allow (limits : Limits) (offset : Nat) (p : Piece) : Except CompileError Piece :=
  if limits.Allows p.height then .ok p else .error (limits.tooDeep offset)

end Limits

end ByteRegex
