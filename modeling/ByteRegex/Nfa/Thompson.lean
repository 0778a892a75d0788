import ByteRegex.Nfa.Basic
import ByteRegex.Term

/-!
# Automata from terms

Every term becomes a fragment, a part of the automaton with one entry and one exit, and fragments
are joined by epsilon transitions. States are only ever appended to the arena, and construction
fails when it would hold more states than its limit.

A repetition is unrolled into as many copies of its body as it has a maximum, or, without one, a
minimum. The copies after the minimum may be skipped, and without a maximum the last copy may be
taken again.
-/

namespace ByteRegex

abbrev Arena := Array State

structure Fragment where
  start : Nat
  stop : Nat
deriving DecidableEq

namespace Arena

def fresh (limit : Nat) (a : Arena) : Option (Nat × Arena) :=
  if a.size < limit then some (a.size, a.push {}) else none

def connect (source : Nat) (symbol : Symbol) (target : Nat) (a : Arena) : Arena :=
  a.modify source (·.addTransition symbol target)

def link (source target : Nat) (a : Arena) : Arena := connect source .epsilon target a

/-- Gives a state one transition for each member of a class and takes away all others. -/
def connectClass (source : Nat) (c : ByteClass) (target : Nat) (a : Arena) : Arena :=
  a.modify source fun s => { s with transitions := .ofClass c target }

@[simp] theorem size_connect (source : Nat) (symbol : Symbol) (target : Nat) (a : Arena) :
    (connect source symbol target a).size = a.size := Array.size_modify

@[simp] theorem size_link (source target : Nat) (a : Arena) :
    (link source target a).size = a.size := Array.size_modify

@[simp] theorem size_link_of (P : Prop) [Decidable P] (source target : Nat) (a : Arena) :
    (if P then link source target a else a).size = a.size := by
  split <;> simp only [size_link]

@[simp] theorem size_connectClass (source : Nat) (c : ByteClass) (target : Nat) (a : Arena) :
    (connectClass source c target a).size = a.size := Array.size_modify

/-- Leads from a copy of a body to the next one, the `ordinal`th of its repetition. A copy after
the minimum may be skipped, which leads to the exit of the repetition at `stop`. -/
def attach (min stop ordinal : Nat) (copy next : Fragment) (a : Arena) : Arena :=
  let a := link copy.stop next.start a
  if min < ordinal then link next.start stop a else a

@[simp] theorem size_attach (min stop ordinal : Nat) (copy next : Fragment) (a : Arena) :
    (attach min stop ordinal copy next a).size = a.size := by
  simp only [attach, size_link_of, size_link]

/-- Appends `remaining` further copies of a body to the copy before them. The next copy is the
`ordinal`th of its repetition, which has its exit at `stop`. -/
def unroll (body : Arena → Option (Fragment × Arena)) (min stop : Nat) :
    (remaining ordinal : Nat) → Fragment → Arena → Option (Fragment × Arena)
  | 0, _, copy, a => some (copy, a)
  | remaining + 1, ordinal, copy, a => do
    let (next, a) ← body a
    unroll body min stop remaining (ordinal + 1) next (attach min stop ordinal copy next a)

def mark (start accept : Nat) (a : Arena) : Arena :=
  let a := a.modify start fun s => { s with isStart := true }
  a.modify accept fun s => { s with isAccept := true }

@[simp] theorem size_mark (start accept : Nat) (a : Arena) :
    (mark start accept a).size = a.size := by
  simp only [mark, Array.size_modify]

def copies (least : Nat) (most : Option Nat) : Nat := most.getD (max least 1)

theorem one_le_copies {most : Option Nat} (h : ∀ n ∈ most, 0 < n) (least : Nat) :
    1 ≤ copies least most := by
  cases most with
  | none => exact Nat.le_max_right least 1
  | some n => exact h n rfl

theorem le_copies {least : Nat} {most : Option Nat} (h : ∀ n ∈ most, least ≤ n) :
    least ≤ copies least most := by
  cases most with
  | none => exact Nat.le_max_left least 1
  | some n => exact h n rfl

mutual

def fragment (limit : Nat) : Term → Arena → Option (Fragment × Arena)
  | .literal b, a => do
    let (start, a) ← fresh limit a
    let (stop, a) ← fresh limit a
    some (⟨start, stop⟩, connect start (.byte b) stop a)
  | .charSet c, a => do
    let (start, a) ← fresh limit a
    let (stop, a) ← fresh limit a
    some (⟨start, stop⟩, connectClass start c stop a)
  | .group children, a => concat limit children a
  | .alternation left right, a => do
    let (start, a) ← fresh limit a
    let (stop, a) ← fresh limit a
    let (l, a) ← concat limit left a
    let (r, a) ← concat limit right a
    let a := link start r.start (link start l.start a)
    some (⟨start, stop⟩, link r.stop stop (link l.stop stop a))
  | .repetition body min max, a => do
    let (start, a) ← fresh limit a
    let (stop, a) ← fresh limit a
    let a := if min = 0 then link start stop a else a
    let (first, a) ← fragment limit body a
    let a := link start first.start a
    let (last, a) ← unroll (fragment limit body) min stop (copies min max - 1) 2 first a
    let a := link last.stop stop a
    let a := if max = none then link stop last.start a else a
    some (⟨start, stop⟩, a)

def concat (limit : Nat) : List Term → Arena → Option (Fragment × Arena)
  | [], a => do
    let (q, a) ← fresh limit a
    some (⟨q, q⟩, a)
  | t :: ts, a => do
    let (f, a) ← fragment limit t a
    chain limit ts f a

def chain (limit : Nat) : List Term → Fragment → Arena → Option (Fragment × Arena)
  | [], f, a => some (f, a)
  | t :: ts, f, a => do
    let (next, a) ← fragment limit t a
    chain limit ts ⟨f.start, next.stop⟩ (link f.stop next.start a)

end

end Arena

namespace Nfa

def ofTerms? (limit : Nat) (ts : List Term) : Option Nfa := do
  let (body, a) ← Arena.concat limit ts #[]
  let (start, a) ← Arena.fresh limit a
  let (accept, a) ← Arena.fresh limit a
  let a := Arena.link body.stop accept (Arena.link start body.start a)
  some ⟨Arena.mark start accept a, start⟩

end Nfa

end ByteRegex
