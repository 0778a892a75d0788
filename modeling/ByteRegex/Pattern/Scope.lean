import ByteRegex.Pattern.Piece

/-!
# Scopes

A scope is the whole pattern or the inside of a group. A bar turns all that stands before it in
its scope into the left branch of an alternation, whose right branch ends at the next bar or with
the scope, so alternations lean to the left.
-/

namespace ByteRegex

structure LeftBranch where
  pieces : List Piece
  bar : Nat

/-- What has been read of a scope: the pieces since its last bar, newest first. -/
structure Scope where
  pieces : List Piece := []
  left : Option LeftBranch := none

namespace Scope

def push (s : Scope) (p : Piece) : Scope := { s with pieces := p :: s.pieces }

/-- The pieces of the scope if it ends here. The height of an alternation is checked only now that
its right branch is complete. -/
def finish (limits : Limits) (s : Scope) : Except CompileError (List Piece) :=
  match s.left with
  | none => .ok s.pieces
  | some left => (limits.allow left.bar (.alternation left.pieces s.pieces)).map ([·])

def split (limits : Limits) (offset : Nat) (s : Scope) : Except CompileError Scope :=
  (s.finish limits).map fun pieces => ⟨[], some ⟨pieces, offset⟩⟩

def quantify (limits : Limits) (quantifier : Mark) (offset : Nat) (b : Bound) (s : Scope) :
    Except CompileError Scope :=
  match s.pieces with
  | [] => .error (.danglingQuantifier quantifier.char offset)
  | p :: ps => (limits.allow offset (p.repetition b)).map fun q => { s with pieces := q :: ps }

end Scope

end ByteRegex
