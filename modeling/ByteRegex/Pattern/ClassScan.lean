import ByteRegex.ByteClass
import ByteRegex.CompileError
import ByteRegex.Pattern.Mark

/-!
# Class scans

Reading a class byte by byte. A hyphen is a member if it comes first or last. Elsewhere it joins
the byte before it and the byte after it into a range, and a byte that ends a range starts none.
-/

namespace ByteRegex

inductive ClassScan where
  | start
  /-- `anchor` is the byte just read, if a range may start there. -/
  | member (members : ByteClass) (anchor : Option UInt8)
  /-- A hyphen at `offset` that was not the first byte, read after `anchor`. -/
  | hyphen (offset : Nat) (members : ByteClass) (anchor : Option UInt8)

namespace ClassScan

inductive Progress where
  | more (scan : ClassScan)
  | closed (members : ByteClass)

def single (b : UInt8) (members : ByteClass) : ClassScan := member (members.insert b) (some b)

def closeRange (offset : Nat) (members : ByteClass) (anchor : Option UInt8) (last : UInt8) :
    Except CompileError ClassScan :=
  match anchor with
  | none => .error (.invalidRange offset)
  | some first =>
    if first ≤ last then .ok (member (members.insertRange first last) none)
    else .error (.invalidRange offset)

def step (opened offset : Nat) (b : UInt8) : ClassScan → Except CompileError Progress
  | start =>
    if b = Mark.classClose then .error (.emptyClass opened) else .ok (.more (single b ∅))
  | member members anchor =>
    if b = Mark.classClose then .ok (.closed members)
    else if b = Mark.hyphen then .ok (.more (hyphen offset members anchor))
    else .ok (.more (single b members))
  | hyphen begun members anchor =>
    if b = Mark.classClose then .ok (.closed (members.insert Mark.hyphen))
    else (closeRange begun members anchor b).map .more

/-- The error when the pattern ends inside the class. A range without a first byte is found out
before the missing bracket. -/
def endError (opened : Nat) : ClassScan → CompileError
  | hyphen offset _ none => .invalidRange offset
  | _ => .unterminatedClass opened

end ClassScan

end ByteRegex
