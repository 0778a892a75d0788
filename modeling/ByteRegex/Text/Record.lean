/-!
# Texts of structured values

One-line texts of lists, of maps from keys to values, and of records with named fields.
-/

namespace ByteRegex.Text

def list (items : List String) : String := "[" ++ ", ".intercalate items ++ "]"

def pair (key value : String) : String := key ++ ": " ++ value

def map (entries : List (String × String)) : String :=
  "\x7b" ++ ", ".intercalate (entries.map fun e => pair e.1 e.2) ++ "\x7d"

def record (name : String) (fields : List (String × String)) : String :=
  name ++ " \x7b " ++ ", ".intercalate (fields.map fun f => pair f.1 f.2) ++ " \x7d"

def wrapped (name argument : String) : String := name ++ "(" ++ argument ++ ")"

end ByteRegex.Text
