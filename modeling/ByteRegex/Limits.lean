import ByteRegex.Text.Record

/-!
# Limits

What compilation may spend: the largest count of a repetition, the number of states, and the
height of terms. States are numbered by 32-bit words, and counts and heights are kept in them.
-/

namespace ByteRegex

structure Limits where
  maxRepeat : UInt32 := 1000
  maxStates : UInt64 := 1000000
  nestLimit : UInt32 := 250
deriving DecidableEq

namespace Limits

def wordMax : Nat := 4294967295

/-- States are numbered by 32-bit words, whatever `maxStates` allows. -/
def stateLimit (l : Limits) : Nat := min l.maxStates.toNat wordMax

def describe (l : Limits) : String :=
  Text.record "RegexBuilder" [("max_repeat", toString l.maxRepeat.toNat),
    ("max_states", toString l.maxStates.toNat), ("nest_limit", toString l.nestLimit.toNat)]

end Limits

end ByteRegex
