import ByteRegex.ByteClass
import ByteRegex.Text.Record

/-!
# Terms

The tree a pattern is read into. A pattern, a group and each branch of an alternation hold a list
of terms to be matched one after the other. A term has a height, which counts the groups,
alternations and repetitions that enclose one another in it.
-/

namespace ByteRegex

inductive Term where
  | literal (b : UInt8)
  | charSet (c : ByteClass)
  | group (children : List Term)
  | alternation (left right : List Term)
  /-- The body, at least `min` times and at most `max` times; without `max` there is no upper
  bound. -/
  | repetition (body : Term) (min : Nat) (max : Option Nat)

namespace Term

mutual

def height : Term → Nat
  | literal _ => 0
  | charSet _ => 0
  | group children => heightAll children + 1
  | alternation left right => max (heightAll left) (heightAll right) + 1
  | repetition body _ _ => body.height + 1

def heightAll : List Term → Nat
  | [] => 0
  | t :: ts => max t.height (heightAll ts)

end

@[simp] theorem heightAll_nil : heightAll [] = 0 := rfl

@[simp] theorem heightAll_cons (t : Term) (ts : List Term) :
    heightAll (t :: ts) = max t.height (heightAll ts) := rfl

@[simp] theorem height_group (ts : List Term) : (group ts).height = heightAll ts + 1 := rfl

@[simp] theorem height_alternation (l r : List Term) :
    (alternation l r).height = max (heightAll l) (heightAll r) + 1 := rfl

@[simp] theorem height_repetition (t : Term) (min : Nat) (max : Option Nat) :
    (repetition t min max).height = t.height + 1 := rfl

theorem heightAll_append (ts us : List Term) :
    heightAll (ts ++ us) = max (heightAll ts) (heightAll us) := by
  induction ts with
  | nil => simp
  | cons t ts ih => simp [ih, Nat.max_assoc]

theorem heightAll_reverse (ts : List Term) : heightAll ts.reverse = heightAll ts := by
  induction ts with
  | nil => rfl
  | cons t ts ih => simp [heightAll_append, ih, Nat.max_comm]

/-! ## Texts -/

def describeMax : Option Nat → String
  | none => "None"
  | some n => Text.wrapped "Some" (toString n)

mutual

def describe : Term → String
  | literal b => Text.wrapped "Literal" (toString b.toNat)
  | charSet c => Text.wrapped "CharSet" c.describe
  | group children => Text.wrapped "Group" (Text.list (describeEach children))
  | alternation left right =>
    Text.record "Alternation" [("left", Text.list (describeEach left)),
      ("right", Text.list (describeEach right))]
  | repetition body min max =>
    Text.record "Repeat" [("inner", body.describe), ("min", toString min),
      ("max", describeMax max)]

def describeEach : List Term → List String
  | [] => []
  | t :: ts => t.describe :: describeEach ts

end

def describeAll (ts : List Term) : String := Text.list (describeEach ts)

end Term

end ByteRegex
