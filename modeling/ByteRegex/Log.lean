import ByteRegex.Regex

/-!
# Log records

What is logged about a compiled pattern and about each match. A rejected pattern leaves no record.
-/

namespace ByteRegex

namespace Log

inductive Level where
  | debug
  | trace
deriving DecidableEq

def Level.describe : Level → String
  | debug => "DEBUG"
  | trace => "TRACE"

structure Record where
  level : Level
  message : String
deriving DecidableEq

end Log

namespace Regex

def compileRecord (r : Regex) : Log.Record where
  level := .debug
  message := s!"compiled `{Escaped.bytes r.pattern}` into {r.terms.length} tokens and " ++
    s!"{r.stateCount} states"

def matchRecord (r : Regex) (input : List UInt8) : Log.Record where
  level := .trace
  message :=
    let search := r.nfa.search input
    s!"match over {input.length} bytes explored {search.memo.size} state/position pairs: " ++
      toString search.accepted

def session (r : Regex) (inputs : List (List UInt8)) : List Log.Record :=
  r.compileRecord :: inputs.map r.matchRecord

end Regex

end ByteRegex
