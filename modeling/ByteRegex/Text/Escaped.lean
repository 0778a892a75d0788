/-!
# Escaped bytes

Bytes written in printable ASCII. Tab, carriage return, line feed, both quotes and the backslash
have a two-character form, every other printable byte stands for itself, and the rest are written
as `\xhh` with two lower-case hexadecimal digits.
-/

namespace ByteRegex.Escaped

def hex (b : UInt8) : String :=
  String.ofList ['\\', 'x', Nat.digitChar (b.toNat / 16), Nat.digitChar (b.toNat % 16)]

def IsPrintable (b : UInt8) : Prop := 32 ≤ b ∧ b ≤ 126

instance (b : UInt8) : Decidable (IsPrintable b) := inferInstanceAs (Decidable (_ ∧ _))

def byte (b : UInt8) : String :=
  if b = 9 then "\\t"
  else if b = 10 then "\\n"
  else if b = 13 then "\\r"
  else if b = 34 then "\\\""
  else if b = 39 then "\\'"
  else if b = 92 then "\\\\"
  else if IsPrintable b then String.singleton (Char.ofNat b.toNat)
  else hex b

def bytes (bs : List UInt8) : String := String.join (bs.map byte)

@[simp] theorem bytes_nil : bytes [] = "" := rfl

theorem toList_bytes (bs : List UInt8) :
    (bytes bs).toList = bs.flatMap fun b => (byte b).toList := by
  simp [bytes, List.flatMap_map]

end ByteRegex.Escaped
