/-!
# Compile errors

Why a pattern is rejected. Offsets are byte offsets into the pattern.
-/

namespace ByteRegex

inductive CompileError where
  /-- The group opened at `offset` is not closed. -/
  | unterminatedGroup (offset : Nat)
  /-- The class opened at `offset` is not closed. -/
  | unterminatedClass (offset : Nat)
  /-- The bound opened at `offset` is not closed. -/
  | unterminatedBound (offset : Nat)
  /-- The hyphen at `offset` follows no byte that can start a range, or starts an inverted one. -/
  | invalidRange (offset : Nat)
  | emptyClass (offset : Nat)
  /-- The quantifier at `offset` has no term before it. -/
  | danglingQuantifier (quantifier : Char) (offset : Nat)
  | missingMin (offset : Nat)
  /-- The bound at `offset` has a maximum that is zero or below its minimum. -/
  | invalidBound (offset : Nat)
  | malformedBound (offset : Nat)
  | repeatTooLarge (offset limit : Nat)
  | tooManyStates (limit : Nat)
  | nestTooDeep (offset limit : Nat)
deriving DecidableEq

namespace CompileError

def message : CompileError → String
  | unterminatedGroup offset => s!"missing `)` for group opened at offset {offset}"
  | unterminatedClass offset => s!"missing `]` for character class opened at offset {offset}"
  | unterminatedBound offset => s!"missing `\x7d` for repetition opened at offset {offset}"
  | invalidRange offset => s!"invalid range in character class at offset {offset}"
  | emptyClass offset => s!"empty character class at offset {offset}"
  | danglingQuantifier quantifier offset =>
    s!"`{quantifier}` at offset {offset} has nothing to repeat"
  | missingMin offset => s!"repetition at offset {offset} has no minimum"
  | invalidBound offset => s!"repetition at offset {offset} must have max >= min and max > 0"
  | malformedBound offset =>
    s!"repetition at offset {offset} must be `\x7bm\x7d`, `\x7bm,\x7d` or `\x7bm,n\x7d`"
  | repeatTooLarge offset limit =>
    s!"repetition count at offset {offset} exceeds the limit of {limit}"
  | tooManyStates limit => s!"automaton exceeds the limit of {limit} states"
  | nestTooDeep offset limit => s!"nesting at offset {offset} exceeds the limit of {limit}"

/-! ## Outcomes -/

variable {α β : Type}

theorem bind_eq_ok_iff {x : Except CompileError α} {f : α → Except CompileError β} {b : β} :
    x >>= f = .ok b ↔ ∃ a, x = .ok a ∧ f a = .ok b := by
  cases x <;> simp [bind, Except.bind]

theorem bind_eq_error_iff {x : Except CompileError α} {f : α → Except CompileError β}
    {e : CompileError} : x >>= f = .error e ↔ x = .error e ∨ ∃ a, x = .ok a ∧ f a = .error e := by
  cases x <;> simp [bind, Except.bind]

theorem map_eq_ok_iff {x : Except CompileError α} {f : α → β} {b : β} :
    x.map f = .ok b ↔ ∃ a, x = .ok a ∧ f a = b := by
  cases x <;> simp [Except.map]

theorem map_eq_error_iff {x : Except CompileError α} {f : α → β} {e : CompileError} :
    x.map f = .error e ↔ x = .error e := by
  cases x <;> simp [Except.map]

end CompileError

end ByteRegex
