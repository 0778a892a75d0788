import ByteRegex.ByteClass
import ByteRegex.Text.Record

/-!
# Automata

Nondeterministic automata over bytes with epsilon moves. States are numbered from zero. The
transitions of a state are kept in the order in which they were added, grouped by symbol, and this
is the order in which they are tried and written.
-/

namespace ByteRegex

inductive Symbol where
  | byte (b : UInt8)
  | epsilon
deriving DecidableEq

namespace Symbol

def label : Symbol → String
  | byte b => Escaped.byte b
  | epsilon => "ε"

def describe : Symbol → String
  | byte b => Text.wrapped "Byte" (toString b.toNat)
  | epsilon => "Epsilon"

end Symbol

/-! ## Transitions -/

structure Transitions where
  entries : List (Symbol × List Nat)
  distinct : (entries.map Prod.fst).Nodup
  inhabited : ∀ e ∈ entries, e.2 ≠ []
deriving DecidableEq

namespace Transitions

def empty : Transitions := ⟨[], .nil, by simp⟩

instance : EmptyCollection Transitions := ⟨empty⟩

/-- Adds a target after those of the same symbol, or a new symbol after all others. -/
def addEntry (symbol : Symbol) (target : Nat) : List (Symbol × List Nat) → List (Symbol × List Nat)
  | [] => [(symbol, [target])]
  | e :: es =>
    if e.1 = symbol then (e.1, e.2 ++ [target]) :: es else e :: addEntry symbol target es

theorem mem_symbols_addEntry {s symbol : Symbol} {target : Nat} {es : List (Symbol × List Nat)} :
    s ∈ (addEntry symbol target es).map Prod.fst ↔ s = symbol ∨ s ∈ es.map Prod.fst := by
  induction es with
  | nil => simp [addEntry]
  | cons e es ih =>
    unfold addEntry
    split
    · next h => simp only [List.map_cons, List.mem_cons, h, or_self_left]
    · simp only [List.map_cons, List.mem_cons, ih]
      constructor <;> (rintro (h | h | h) <;> simp [h])

theorem distinct_addEntry {symbol : Symbol} {target : Nat} {es : List (Symbol × List Nat)}
    (h : (es.map Prod.fst).Nodup) : ((addEntry symbol target es).map Prod.fst).Nodup := by
  induction es with
  | nil => simp [addEntry]
  | cons e es ih =>
    unfold addEntry
    split
    · exact h
    · next hne =>
      obtain ⟨he, hes⟩ := List.nodup_cons.1 h
      refine List.nodup_cons.2 ⟨fun hm => ?_, ih hes⟩
      rcases mem_symbols_addEntry.1 hm with hm | hm
      · exact hne hm
      · exact he hm

theorem inhabited_addEntry {symbol : Symbol} {target : Nat} {es : List (Symbol × List Nat)}
    (h : ∀ e ∈ es, e.2 ≠ []) : ∀ e ∈ addEntry symbol target es, e.2 ≠ [] := by
  induction es with
  | nil => simp [addEntry]
  | cons e es ih =>
    unfold addEntry
    split
    · simp only [List.mem_cons, forall_eq_or_imp]
      exact ⟨by simp, fun d hd => h d (List.mem_cons_of_mem _ hd)⟩
    · simp only [List.mem_cons, forall_eq_or_imp]
      exact ⟨h e List.mem_cons_self, ih fun d hd => h d (List.mem_cons_of_mem _ hd)⟩

def add (symbol : Symbol) (target : Nat) (t : Transitions) : Transitions :=
  ⟨addEntry symbol target t.entries, distinct_addEntry t.distinct, inhabited_addEntry t.inhabited⟩

def ofClass (c : ByteClass) (target : Nat) : Transitions where
  entries :=
    let only := [target]
    c.members.map fun b => (.byte b, only)
  distinct := by
    rw [List.map_map]
    refine List.Pairwise.map _ (fun a b (h : a < b) he => ?_) c.ascending
    exact UInt8.ne_of_lt h (Symbol.byte.inj he)
  inhabited := by simp

def targets (t : Transitions) (symbol : Symbol) : List Nat := (t.entries.lookup symbol).getD []

@[simp] theorem targets_empty (s : Symbol) : (∅ : Transitions).targets s = [] := rfl

theorem lookup_addEntry (symbol : Symbol) (target : Nat) (es : List (Symbol × List Nat))
    (s : Symbol) : ((addEntry symbol target es).lookup s).getD [] =
      if s = symbol then (es.lookup symbol).getD [] ++ [target] else (es.lookup s).getD [] := by
  induction es with
  | nil => by_cases h : s = symbol <;> simp [addEntry, List.lookup_cons, beq_false_of_ne, h]
  | cons e es ih =>
    obtain ⟨x, ts⟩ := e
    by_cases hx : x = symbol
    · subst hx
      by_cases h : s = x <;> simp [addEntry, List.lookup_cons, beq_false_of_ne, h]
    · rw [addEntry, if_neg hx, List.lookup_cons, List.lookup_cons, List.lookup_cons]
      by_cases hs : s = x
      · subst hs
        simp [hx]
      · rw [beq_false_of_ne hs, beq_false_of_ne (Ne.symm hx)]
        exact ih

theorem targets_add (t : Transitions) (symbol : Symbol) (target : Nat) (s : Symbol) :
    (t.add symbol target).targets s =
      if s = symbol then t.targets symbol ++ [target] else t.targets s :=
  lookup_addEntry symbol target t.entries s

theorem eq_empty_of_targets {t : Transitions} (h : ∀ s, t.targets s = []) : t = ∅ := by
  obtain ⟨entries, distinct, inhabited⟩ := t
  cases entries with
  | nil => rfl
  | cons e es =>
    have hlookup : (e :: es).lookup e.1 = some e.2 := List.lookup_cons_self
    have hnil := h e.1
    rw [targets, hlookup] at hnil
    exact absurd hnil (inhabited e List.mem_cons_self)

def toList (t : Transitions) : List (Symbol × Nat) :=
  t.entries.flatMap fun e => e.2.map fun target => (e.1, target)

theorem lookup_eq_some_iff {s : Symbol} {qs : List Nat} {es : List (Symbol × List Nat)}
    (h : (es.map Prod.fst).Nodup) : es.lookup s = some qs ↔ (s, qs) ∈ es := by
  induction es with
  | nil => simp
  | cons e es ih =>
    obtain ⟨x, ts⟩ := e
    obtain ⟨hx, hes⟩ := List.nodup_cons.1 h
    rw [List.lookup_cons, List.mem_cons, Prod.mk.injEq]
    by_cases hs : s = x
    · subst hs
      have hrest : (s, qs) ∉ es := fun hm => hx (List.mem_map.2 ⟨_, hm, rfl⟩)
      simp [hrest, eq_comm]
    · rw [beq_false_of_ne hs, ih hes]
      simp [hs]

theorem mem_targets_iff {t : Transitions} {s : Symbol} {q : Nat} :
    q ∈ t.targets s ↔ (s, q) ∈ t.toList := by
  have hlookup : q ∈ t.targets s ↔ ∃ qs, t.entries.lookup s = some qs ∧ q ∈ qs := by
    rw [targets]
    cases t.entries.lookup s <;> simp
  rw [hlookup, toList, List.mem_flatMap]
  constructor
  · rintro ⟨qs, hqs, hq⟩
    exact ⟨(s, qs), (lookup_eq_some_iff t.distinct).1 hqs, List.mem_map_of_mem hq⟩
  · rintro ⟨⟨x, qs⟩, he, hq⟩
    obtain ⟨target, htarget, heq⟩ := List.mem_map.1 hq
    cases heq
    exact ⟨qs, (lookup_eq_some_iff t.distinct).2 he, htarget⟩

def size (t : Transitions) : Nat := t.entries.foldr (fun e n => e.2.length + n) 0

end Transitions

/-! ## States -/

structure State where
  isStart : Bool := false
  isAccept : Bool := false
  transitions : Transitions := ∅
deriving DecidableEq

namespace State

def addTransition (symbol : Symbol) (target : Nat) (s : State) : State :=
  { s with transitions := s.transitions.add symbol target }

def describeNumber (q : Nat) : String := Text.wrapped "StateIdx" (toString q)

def describe (s : State) : String :=
  Text.record "State" [("start", toString s.isStart), ("accept", toString s.isAccept),
    ("transitions", Text.map (s.transitions.entries.map fun e =>
      (e.1.describe, Text.list (e.2.map describeNumber))))]

end State

/-! ## Automata -/

structure Nfa where
  states : Array State
  start : Nat
deriving DecidableEq

namespace Nfa

/-- The state with a given number; one without transitions if there is none. -/
def state (a : Nfa) (q : Nat) : State := a.states.getD q {}

def targets (a : Nfa) (q : Nat) (symbol : Symbol) : List Nat :=
  (a.state q).transitions.targets symbol

def transitionCount (a : Nfa) : Nat :=
  a.states.foldr (fun s n => s.transitions.size + n) 0

def numbered (a : Nfa) : List (State × Nat) := a.states.toList.zipIdx

end Nfa

end ByteRegex
