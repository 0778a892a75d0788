import ByteRegex.Pattern.Bound
import ByteRegex.Term

/-!
# Nodes of terms

All terms that occur in a list of terms, at any depth, and conditions that hold at every one of
them. Compilation relies on one such condition: bounds are ordered and classes have members.
-/

namespace ByteRegex.Term

mutual

def nodes : Term → List Term
  | literal b => [literal b]
  | charSet c => [charSet c]
  | group children => group children :: nodesAll children
  | alternation left right => alternation left right :: (nodesAll left ++ nodesAll right)
  | repetition body min max => repetition body min max :: body.nodes

def nodesAll : List Term → List Term
  | [] => []
  | t :: ts => t.nodes ++ nodesAll ts

end

theorem nodesAll_append (ts us : List Term) : nodesAll (ts ++ us) = nodesAll ts ++ nodesAll us := by
  induction ts with
  | nil => rfl
  | cons t ts ih => simp [nodesAll, ih]

/-! ## Conditions on all nodes -/

def Every (P : Term → Prop) (ts : List Term) : Prop := ∀ t ∈ nodesAll ts, P t

section

variable {P : Term → Prop}

theorem Every.imp {Q : Term → Prop} {ts : List Term} (h : Every P ts) (hPQ : ∀ t, P t → Q t) :
    Every Q ts := fun t ht => hPQ t (h t ht)

@[simp] theorem every_nil : Every P [] := by simp [Every, nodesAll]

theorem every_append {ts us : List Term} : Every P (ts ++ us) ↔ Every P ts ∧ Every P us := by
  simp only [Every, nodesAll_append, List.mem_append, or_imp, forall_and]

theorem every_cons {t : Term} {ts : List Term} : Every P (t :: ts) ↔ Every P [t] ∧ Every P ts :=
  @every_append P [t] ts

theorem every_literal {b : UInt8} : Every P [literal b] ↔ P (literal b) := by
  simp [Every, nodesAll, nodes]

theorem every_charSet {c : ByteClass} : Every P [charSet c] ↔ P (charSet c) := by
  simp [Every, nodesAll, nodes]

theorem every_group {ts : List Term} : Every P [group ts] ↔ P (group ts) ∧ Every P ts := by
  simp [Every, nodesAll, nodes]

theorem every_alternation {l r : List Term} :
    Every P [alternation l r] ↔ P (alternation l r) ∧ Every P l ∧ Every P r := by
  simp only [Every, nodesAll, nodes, List.append_nil, List.mem_cons, List.mem_append, or_imp,
    forall_and, forall_eq]

theorem every_repetition {t : Term} {min : Nat} {max : Option Nat} :
    Every P [repetition t min max] ↔ P (repetition t min max) ∧ Every P [t] := by
  simp [Every, nodesAll, nodes]

end

def IsSound : Term → Prop
  | charSet c => c.members ≠ []
  | repetition _ min max => ∀ n ∈ max, min ≤ n ∧ 0 < n
  | _ => True

def RepeatsWithin (limit : Nat) : Term → Prop
  | repetition _ min max => max.getD min ≤ limit
  | _ => True

end ByteRegex.Term
