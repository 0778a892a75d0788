/-!
# Marks

The bytes that have a role of their own in a pattern. Outside classes and bounds every other byte
stands for itself.
-/

namespace ByteRegex

inductive Mark where
  | groupOpen
  | groupClose
  | bar
  | classOpen
  | boundOpen
  | star
  | plus
  | question
deriving DecidableEq

namespace Mark

def char : Mark → Char
  | groupOpen => '('
  | groupClose => ')'
  | bar => '|'
  | classOpen => '['
  | boundOpen => '\x7b'
  | star => '*'
  | plus => '+'
  | question => '?'

def byte (m : Mark) : UInt8 := m.char.toUInt8

def all : List Mark :=
  [groupOpen, groupClose, bar, classOpen, boundOpen, star, plus, question]

def ofByte? (b : UInt8) : Option Mark := all.find? fun m => m.byte = b

theorem ofByte?_byte (m : Mark) : ofByte? m.byte = some m := by cases m <;> decide

theorem ofByte?_eq_some_iff {b : UInt8} {m : Mark} : ofByte? b = some m ↔ b = m.byte := by
  refine ⟨fun h => ?_, fun h => h ▸ ofByte?_byte m⟩
  have := List.find?_some h
  simp only [decide_eq_true_eq] at this
  exact this.symm

def classClose : UInt8 := 93

def hyphen : UInt8 := 45

def boundClose : UInt8 := 125

def comma : UInt8 := 44

end Mark

end ByteRegex
