import ByteRegex.Nfa.Dot
import ByteRegex.Nfa.Search
import ByteRegex.Nfa.Thompson
import ByteRegex.Pattern.Reader

/-!
# Compiled patterns

A pattern together with the terms it was read into and their automaton. A compiled pattern matches
an input if it matches the input as a whole.
-/

namespace ByteRegex

structure Regex where
  pattern : List UInt8
  terms : List Term
  nfa : Nfa

namespace Regex

def compile (limits : Limits) (pattern : List UInt8) : Except CompileError Regex := do
  let terms ← parse limits pattern
  match Nfa.ofTerms? limits.stateLimit terms with
  | some nfa => .ok ⟨pattern, terms, nfa⟩
  | none => .error (.tooManyStates limits.stateLimit)

theorem compile_of_parse_error {limits : Limits} {pattern : List UInt8} {e : CompileError}
    (hp : parse limits pattern = .error e) : compile limits pattern = .error e := by
  rw [compile, hp]
  rfl

theorem compile_of_ofTerms?_some {limits : Limits} {pattern : List UInt8} {terms : List Term}
    {nfa : Nfa} (hp : parse limits pattern = .ok terms)
    (hn : Nfa.ofTerms? limits.stateLimit terms = some nfa) :
    compile limits pattern = .ok ⟨pattern, terms, nfa⟩ := by
  simp only [compile, hp, bind, Except.bind, hn]

theorem compile_of_ofTerms?_none {limits : Limits} {pattern : List UInt8} {terms : List Term}
    (hp : parse limits pattern = .ok terms)
    (hn : Nfa.ofTerms? limits.stateLimit terms = none) :
    compile limits pattern = .error (.tooManyStates limits.stateLimit) := by
  simp only [compile, hp, bind, Except.bind, hn]

theorem compile_eq_ok_iff {limits : Limits} {pattern : List UInt8} {r : Regex} :
    compile limits pattern = .ok r ↔ parse limits pattern = .ok r.terms ∧
      Nfa.ofTerms? limits.stateLimit r.terms = some r.nfa ∧ r.pattern = pattern := by
  constructor
  · intro h
    obtain ⟨terms, hp, h⟩ := CompileError.bind_eq_ok_iff.1 h
    split at h
    · next nfa hn =>
      cases h
      exact ⟨hp, hn, rfl⟩
    · cases h
  · rintro ⟨hp, hn, rfl⟩
    exact compile_of_ofTerms?_some hp hn

def isMatch (r : Regex) (input : List UInt8) : Bool := (r.nfa.search input).accepted

def stateCount (r : Regex) : Nat := r.nfa.states.size

def dot (r : Regex) : String := r.nfa.dot

def describe (r : Regex) : String :=
  Text.record "Regex" [
    ("states", Text.map (r.nfa.numbered.map fun e => (toString e.2, e.1.describe))),
    ("start", State.describeNumber r.nfa.start)]

end Regex

end ByteRegex
