import ByteRegex.Pattern.ClassScan
import ByteRegex.Pattern.Scope

/-!
# Reading patterns

A pattern is read byte by byte from left to right. The reader keeps the scope it is in, the groups
that are still open around it, and how far it is into a class or a bound. What it reports is
settled by the bytes read so far, except for what only the end of the pattern shows: constructs
that are still open, and the height of the last alternation.
-/

namespace ByteRegex

structure OpenGroup where
  opened : Nat
  around : Scope

inductive Mode where
  | plain
  | inClass (opened : Nat) (scan : ClassScan)
  /-- `text` is what stands after the brace, newest byte first. -/
  | inBound (opened : Nat) (text : List UInt8)

structure Reader where
  /-- The number of bytes read. -/
  offset : Nat := 0
  scope : Scope := {}
  /-- The open groups, innermost first. -/
  enclosing : List OpenGroup := []
  mode : Mode := .plain

namespace Reader

def push (r : Reader) (p : Piece) : Reader := { r with scope := r.scope.push p }

def openGroup (limits : Limits) (r : Reader) : Except CompileError Reader :=
  if limits.Allows (r.enclosing.length + 1) then
    .ok { r with scope := {}, enclosing := ⟨r.offset, r.scope⟩ :: r.enclosing }
  else .error (limits.tooDeep r.offset)

/-- Leaves the innermost group. Where no group is open a closing parenthesis stands for itself. -/
def closeGroup (limits : Limits) (r : Reader) : Except CompileError Reader :=
  match r.enclosing with
  | [] => .ok (r.push (.literal Mark.groupClose.byte))
  | g :: gs => do
    let children ← r.scope.finish limits
    let p ← limits.allow g.opened (.group children)
    .ok { r with scope := g.around.push p, enclosing := gs }

def quantify (limits : Limits) (quantifier : Mark) (offset : Nat) (b : Bound) (r : Reader) :
    Except CompileError Reader :=
  (r.scope.quantify limits quantifier offset b).map fun s => { r with scope := s }

def readMark (limits : Limits) (r : Reader) : Mark → Except CompileError Reader
  | .groupOpen => r.openGroup limits
  | .groupClose => r.closeGroup limits
  | .bar => (r.scope.split limits r.offset).map fun s => { r with scope := s }
  | .classOpen => .ok { r with mode := .inClass r.offset .start }
  | .boundOpen => .ok { r with mode := .inBound r.offset [] }
  | .star => r.quantify limits .star r.offset .star
  | .plus => r.quantify limits .plus r.offset .plus
  | .question => r.quantify limits .question r.offset .question

def readPlain (limits : Limits) (b : UInt8) (r : Reader) : Except CompileError Reader :=
  match Mark.ofByte? b with
  | none => .ok (r.push (.literal b))
  | some m => r.readMark limits m

def readInClass (opened : Nat) (scan : ClassScan) (b : UInt8) (r : Reader) :
    Except CompileError Reader :=
  (scan.step opened r.offset b).map fun
    | .more scan => { r with mode := .inClass opened scan }
    | .closed members => { r.push (.charSet members) with mode := .plain }

/-- The bound is read when its closing brace is met. Its text is checked before there need be a
term to repeat. -/
def readInBound (limits : Limits) (opened : Nat) (text : List UInt8) (b : UInt8) (r : Reader) :
    Except CompileError Reader :=
  if b = Mark.boundClose then do
    let bound ← Bound.read limits opened text.reverse
    { r with mode := .plain }.quantify limits .boundOpen opened bound
  else .ok { r with mode := .inBound opened (b :: text) }

def readByte (limits : Limits) (b : UInt8) (r : Reader) : Except CompileError Reader :=
  match r.mode with
  | .plain => r.readPlain limits b
  | .inClass opened scan => r.readInClass opened scan b
  | .inBound opened text => r.readInBound limits opened text b

def step (limits : Limits) (r : Reader) (b : UInt8) : Except CompileError Reader :=
  (r.readByte limits b).map fun r' => { r' with offset := r.offset + 1 }

def finish (limits : Limits) (r : Reader) : Except CompileError (List Term) :=
  match r.mode with
  | .inClass opened scan => .error (scan.endError opened)
  | .inBound opened _ => .error (.unterminatedBound opened)
  | .plain => do
    let pieces ← r.scope.finish limits
    match r.enclosing with
    | [] => .ok (Piece.terms pieces)
    | g :: _ => .error (.unterminatedGroup g.opened)

end Reader

def parse (limits : Limits) (pattern : List UInt8) : Except CompileError (List Term) := do
  let r ← pattern.foldlM (Reader.step limits) {}
  r.finish limits

end ByteRegex
