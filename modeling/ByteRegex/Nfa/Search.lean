import ByteRegex.Nfa.Basic
import Std.Data.HashSet.Lemmas

/-!
# Searching an automaton

A depth-first search for a path that consumes the whole input and ends in an accepting state. It
runs over configurations, pairs of a state and a position in the input, and expands each of them
at most once, so it ends also where epsilon transitions form a cycle.
-/

namespace ByteRegex

structure Config where
  state : Nat
  pos : Nat
deriving DecidableEq, Hashable

/-! ## Memos -/

structure Memo where
  entered : Array Config := #[]
  index : Std.HashSet Config := ∅
  mem_index : ∀ c, c ∈ index ↔ c ∈ entered := by simp

namespace Memo

instance : Membership Config Memo := ⟨fun m c => c ∈ m.entered⟩

instance (c : Config) (m : Memo) : Decidable (c ∈ m) :=
  decidable_of_iff (c ∈ m.index) (m.mem_index c)

def enter (c : Config) (m : Memo) : Memo :=
  ⟨m.entered.push c, m.index.insert c, fun d => by
    rw [Std.HashSet.mem_insert, Array.mem_push, m.mem_index, beq_iff_eq, or_comm, eq_comm]⟩

@[simp] theorem mem_enter {c d : Config} {m : Memo} : d ∈ m.enter c ↔ d ∈ m ∨ d = c :=
  Array.mem_push

def size (m : Memo) : Nat := m.entered.size

end Memo

/-! ## Configurations -/

namespace Nfa

def accepts (a : Nfa) (input : Array UInt8) (c : Config) : Bool :=
  decide (input.size ≤ c.pos) && (a.state c.state).isAccept

/-- The configurations one transition away: first those that consume a byte, then those that
consume nothing. -/
def moves (a : Nfa) (input : Array UInt8) (c : Config) : List Config :=
  let silent := (a.targets c.state .epsilon).map (Config.mk · c.pos)
  match input[c.pos]? with
  | none => silent
  | some b => (a.targets c.state (.byte b)).map (Config.mk · (c.pos + 1)) ++ silent

end Nfa

/-! ## Searches -/

structure Search where
  stack : List Config
  memo : Memo := {}
  accepted : Bool := false

namespace Search

def isOver (s : Search) : Bool := s.accepted || s.stack.isEmpty

def step (a : Nfa) (input : Array UInt8) : Search → Search
  | ⟨[], memo, accepted⟩ => ⟨[], memo, accepted⟩
  | ⟨c :: rest, memo, accepted⟩ =>
    if c ∈ memo then ⟨rest, memo, accepted⟩
    else if a.accepts input c then ⟨rest, memo.enter c, true⟩
    else ⟨a.moves input c ++ rest, memo.enter c, accepted⟩

theorem step_cons (a : Nfa) (input : Array UInt8) (c : Config) (rest : List Config) (memo : Memo)
    (accepted : Bool) : step a input ⟨c :: rest, memo, accepted⟩ =
      if c ∈ memo then ⟨rest, memo, accepted⟩
      else if a.accepts input c then ⟨rest, memo.enter c, true⟩
      else ⟨a.moves input c ++ rest, memo.enter c, accepted⟩ := rfl

def run (a : Nfa) (input : Array UInt8) : (fuel : Nat) → Search → Search
  | 0, s => s
  | fuel + 1, s => if s.isOver then s else run a input fuel (step a input s)

@[simp] theorem run_zero (a : Nfa) (input : Array UInt8) (s : Search) : run a input 0 s = s := rfl

theorem run_succ (a : Nfa) (input : Array UInt8) (fuel : Nat) (s : Search) :
    run a input (fuel + 1) s = if s.isOver then s else run a input fuel (step a input s) := rfl

def init (a : Nfa) : Search := { stack := [⟨a.start, 0⟩] }

end Search

namespace Nfa

/-- How many configurations a search visits at most. Each transition puts one configuration on the
stack for each position at most, and the first one is there from the start. -/
def visitBound (a : Nfa) (length : Nat) : Nat := a.transitionCount * (length + 1) + 1

def search (a : Nfa) (input : List UInt8) : Search :=
  Search.run a input.toArray (a.visitBound input.length) (.init a)

end Nfa

end ByteRegex
