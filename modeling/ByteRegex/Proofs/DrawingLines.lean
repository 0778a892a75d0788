import ByteRegex.Nfa.Dot
import ByteRegex.Proofs.EscapedTexts

/-!
# Lines of drawings

What the lines of a drawing say can be read back from the drawing: a line says by itself where it
ends, and no line starts like the end of a drawing. So drawings with one text have the same lines,
and a line is the mark of one state or one transition.
-/

namespace ByteRegex.Nfa

namespace Dot

/-! ## Numbers -/

theorem isDigit_of_mem_toString {n : Nat} {c : Char} (h : c ∈ (toString n).toList) :
    c.isDigit = true := by
  rw [Nat.toString_eq_repr, Nat.toList_repr] at h
  exact Nat.isDigit_of_mem_toDigits (by decide) (by decide) h

theorem takeWhile_toString_append (n : Nat) (cs : List Char) :
    ((toString n).toList ++ ' ' :: cs).takeWhile Char.isDigit = (toString n).toList := by
  rw [List.takeWhile_append_of_pos fun _ => isDigit_of_mem_toString,
    List.takeWhile_cons_of_neg (by decide), List.append_nil]

theorem toString_injective {m n : Nat} (h : (toString m).toList = (toString n).toList) :
    m = n := by
  rw [Nat.toString_eq_repr, Nat.toString_eq_repr, Nat.toList_repr, Nat.toList_repr] at h
  rw [← @Nat.ofDigitChars_ten_toDigits m, h, Nat.ofDigitChars_ten_toDigits]

/-- A number ends at the space behind it. -/
theorem toString_append_inj {m n : Nat} {x y : List Char}
    (h : (toString m).toList ++ ' ' :: x = (toString n).toList ++ ' ' :: y) : m = n ∧ x = y := by
  have hdigits := congrArg (List.takeWhile Char.isDigit) h
  rw [takeWhile_toString_append, takeWhile_toString_append] at hdigits
  cases toString_injective hdigits
  exact ⟨rfl, (List.cons.inj (List.append_cancel_left h)).2⟩

/-! ## Lines -/

inductive Item where
  | start (q : Nat)
  | accept (q : Nat)
  | move (q : Nat) (symbol : Symbol) (target : Nat)

namespace Item

def source : Item → Nat
  | start q | accept q | move q _ _ => q

def text : Item → String
  | start q => stateLine q "shape=box"
  | accept q => stateLine q "peripheries=2"
  | move q symbol target => edgeLine q symbol target

/-- The text behind the number of the state. -/
def tail : Item → String
  | start _ => "[shape=box];\n"
  | accept _ => "[peripheries=2];\n"
  | move _ symbol target =>
    "-> " ++ (toString target ++ (" [label=\"" ++ (symbol.label ++ "\"];\n")))

theorem toList_text (i : Item) :
    i.text.toList = '\t' :: ((toString i.source).toList ++ ' ' :: i.tail.toList) := by
  cases i
  all_goals
    simp only [text, stateLine, edgeLine, line, source, tail, String.toList_append,
      String.reduceToList, List.append_assoc, List.cons_append, List.nil_append]

theorem tail_append_inj {i j : Item} {x y : List Char} (hs : i.source = j.source)
    (h : i.tail.toList ++ x = j.tail.toList ++ y) : i = j ∧ x = y := by
  cases i <;> cases j
  case start.start =>
    cases hs
    exact ⟨rfl, List.append_cancel_left h⟩
  case accept.accept =>
    cases hs
    exact ⟨rfl, List.append_cancel_left h⟩
  case move.move =>
    cases hs
    simp only [tail, String.toList_append, List.append_assoc] at h
    obtain ⟨rfl, hlabel⟩ := toString_append_inj (List.append_cancel_left h)
    obtain ⟨rfl, hrest⟩ := Symbol.label_append_inj (List.append_cancel_left hlabel)
    exact ⟨rfl, List.append_cancel_left hrest⟩
  -- Lines of different kinds differ within two characters behind the number.
  all_goals simp [tail] at h

/-- No line is the beginning of another one. -/
theorem text_append_inj {i j : Item} {x y : List Char}
    (h : i.text.toList ++ x = j.text.toList ++ y) : i = j ∧ x = y := by
  rw [toList_text, toList_text, List.cons_append, List.cons_append, List.append_assoc,
    List.append_assoc] at h
  obtain ⟨hs, htail⟩ := toString_append_inj (List.cons.inj h).2
  exact tail_append_inj hs htail

/-- Lines are read off a text one by one up to the closing brace, which starts no line. -/
theorem flatMap_text_inj {is js : List Item}
    (h : is.flatMap (fun i => i.text.toList) ++ "\x7d\n".toList =
      js.flatMap (fun i => i.text.toList) ++ "\x7d\n".toList) : is = js := by
  induction is generalizing js with
  | nil =>
    cases js with
    | nil => rfl
    | cons j js =>
      rw [List.flatMap_cons, toList_text] at h
      cases (List.cons.inj h).1
  | cons i is ih =>
    cases js with
    | nil =>
      rw [List.flatMap_cons, toList_text] at h
      cases (List.cons.inj h).1
    | cons j js =>
      rw [List.flatMap_cons, List.flatMap_cons, List.append_assoc, List.append_assoc] at h
      obtain ⟨rfl, hrest⟩ := text_append_inj h
      rw [ih hrest]

end Item

def items (q : Nat) (s : State) : List Item :=
  (if s.isStart then [Item.start q] else []) ++ (if s.isAccept then [Item.accept q] else []) ++
    s.transitions.toList.map fun e => Item.move q e.1 e.2

theorem map_text_items (q : Nat) (s : State) : (items q s).map Item.text = stateLines q s := by
  cases hstart : s.isStart <;> cases haccept : s.isAccept
  all_goals
    simp only [items, stateLines, hstart, haccept, List.map_append, List.map_map]
    rfl

end Dot

def items (a : Nfa) : List Dot.Item := a.numbered.flatMap fun e => Dot.items e.2 e.1

theorem toList_dot (a : Nfa) : a.dot.toList =
    ("digraph nfa \x7b\n" ++ Dot.line "rankdir=LR").toList ++
      (a.items.flatMap (fun i => i.text.toList) ++ "\x7d\n".toList) := by
  have hlines : (a.numbered.flatMap fun e => Dot.stateLines e.2 e.1) =
      a.items.map Dot.Item.text := by
    rw [items, List.map_flatMap]
    simp only [Dot.map_text_items]
  unfold dot
  rw [hlines, String.toList_append, String.toList_append, String.toList_join,
    List.flatMap_map, List.append_assoc]

theorem items_eq_of_dot_eq {a b : Nfa} (h : a.dot = b.dot) : a.items = b.items := by
  have hlist := congrArg String.toList h
  rw [toList_dot, toList_dot] at hlist
  exact Dot.Item.flatMap_text_inj (List.append_cancel_left hlist)

end ByteRegex.Nfa
