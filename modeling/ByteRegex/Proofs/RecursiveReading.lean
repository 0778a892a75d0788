import ByteRegex.Proofs.BoundReading
import ByteRegex.Proofs.ClassReading

/-!
# Recursive reading

The same reading told by recursion: a cursor is moved through the pattern, the inside of a group is
read by a call, and the groups that are open and the heights of what has been read are kept in
words. Nothing is taken for granted on the way. Each move of the cursor has to stay in the pattern,
each slice has to be in range, and each change of the count has to agree with the groups that the
calls have opened. What does not is a fault, which is something else than an error of the pattern.

Calls return what they have read along with the spot behind it. Those that recurse have fuel.
-/

namespace ByteRegex

namespace Descent

inductive Fault where
  /-- A move or a slice that leaves the text. -/
  | outOfRange
  /-- A count other than the number of open groups, or above the limit. -/
  | miscounted
  /-- One less than zero groups. -/
  | underflow
  /-- The outermost sequence ends before the pattern. -/
  | unfinished
  /-- More calls within one another than are allowed for. -/
  | exhausted
deriving DecidableEq

inductive Halt where
  | rejected (e : CompileError)
  | faulty (f : Fault)
deriving DecidableEq

structure Spot where
  pos : Nat := 0
  depth : UInt32 := 0
deriving DecidableEq

variable {α β : Type}

def fault (f : Fault) : Except Halt α := .error (.faulty f)

def reject (e : CompileError) : Except Halt α := .error (.rejected e)

def lift (x : Except CompileError α) : Except Halt α := x.mapError .rejected

abbrev Call (α : Type) := Spot → Except Halt (α × Spot)

/-! ## Moves and slices -/

def move (pattern : List UInt8) (pos : Nat) : Except Halt Nat :=
  if pos ≤ pattern.length then .ok pos else fault .outOfRange

def sliceFrom (n : Nat) (text : List UInt8) : Except Halt (List UInt8) :=
  if n ≤ text.length then .ok (text.drop n) else fault .outOfRange

def sliceTo (n : Nat) (text : List UInt8) : Except Halt (List UInt8) :=
  if n ≤ text.length then .ok (text.take n) else fault .outOfRange

/-! ## Counts and heights -/

def saturatingSucc (n : UInt32) : UInt32 := if n = 4294967295 then n else n + 1

def nest (limits : Limits) (pos : Nat) (height : UInt32) : Except CompileError UInt32 :=
  if height ≤ limits.nestLimit then .ok height else .error (limits.tooDeep pos)

/-- Under the largest limit the count is stuck at the largest word, and nothing depends on it. -/
def Counted (limits : Limits) (opened : List Nat) (depth : UInt32) : Prop :=
  limits.nestLimit = 4294967295 ∨ depth.toNat = opened.length ∧ depth ≤ limits.nestLimit

instance (limits : Limits) (opened : List Nat) (depth : UInt32) :
    Decidable (Counted limits opened depth) := inferInstanceAs (Decidable (_ ∨ _))

def counted (limits : Limits) (opened : List Nat) (depth : UInt32) : Except Halt UInt32 :=
  if Counted limits opened depth then .ok depth else fault .miscounted

def enter (limits : Limits) (opened : List Nat) (pos : Nat) (depth : UInt32) :
    Except Halt UInt32 := do
  let depth ← lift (nest limits pos (saturatingSucc depth))
  counted limits (pos :: opened) depth

def leave (limits : Limits) (opened : List Nat) (depth : UInt32) : Except Halt UInt32 :=
  if depth = 0 ∧ limits.nestLimit ≠ 4294967295 then fault .underflow
  else counted limits opened (depth - 1)

/-! ## Classes -/

/-- Reads on in the class opened at `opened`. Whether a hyphen joins a range is decided by the byte
behind it, and a range is read in one go. -/
def classLoop (pattern : List UInt8) (opened : Nat) : (fuel pos : Nat) → (members : ByteClass) →
    (anchor : Option UInt8) → (first : Bool) → Except Halt (ByteClass × Nat)
  | 0, _, _, _, _ => fault .exhausted
  | fuel + 1, pos, members, anchor, first =>
    match pattern[pos]? with
    | none => reject (.unterminatedClass opened)
    | some b =>
      if b = Mark.classClose then do
        let pos ← move pattern (pos + 1)
        .ok (members, pos)
      else if b ≠ Mark.hyphen ∨ first = true ∨ pattern[pos + 1]? = some Mark.classClose then do
        let pos ← move pattern (pos + 1)
        classLoop pattern opened fuel pos (members.insert b) (some b) false
      else
        match anchor with
        | none => reject (.invalidRange pos)
        | some start =>
          match pattern[pos + 1]? with
          | none => reject (.unterminatedClass opened)
          | some stop =>
            if start ≤ stop then do
              let pos ← move pattern (pos + 2)
              classLoop pattern opened fuel pos (members.insertRange start stop) none false
            else reject (.invalidRange pos)

def charSet (pattern : List UInt8) (fuel pos : Nat) : Except Halt (ByteClass × Nat) := do
  let next ← move pattern (pos + 1)
  let (c, stop) ← classLoop pattern pos fuel next ∅ none true
  if c.isEmpty then reject (.emptyClass pos) else .ok (c, stop)

/-! ## Bounds -/

def bound (limits : Limits) (pattern : List UInt8) (pos : Nat) : Except Halt (Bound × Nat) := do
  let rest ← sliceFrom (pos + 1) pattern
  match rest.findIdx? (· = Mark.boundClose) with
  | none => reject (.unterminatedBound pos)
  | some length => do
    let stop ← move pattern (pos + length + 2)
    let text ← sliceTo length rest
    let b ← lift (Bound.read limits pos text)
    .ok (b, stop)

/-! ## Sequences

A row is a sequence as far as it has been read, and a content is a scope up to where its last
branch begins or it ends. Both have their heights in words, which are brought up to date with each
term that is added. -/

/-- The terms of a row have the newest first, and `last` is the height of this one. -/
structure Row where
  terms : List Term := []
  last : UInt32 := 0
  height : UInt32 := 0

structure Content where
  terms : List Term
  height : UInt32

namespace Row

def push (t : Term) (height : UInt32) (row : Row) : Row :=
  ⟨t :: row.terms, height, max row.height height⟩

def quantify (limits : Limits) (m : Mark) (pos : Nat) (b : Bound) (row : Row) :
    Except CompileError Row :=
  match row.terms with
  | [] => .error (.danglingQuantifier m.char pos)
  | t :: ts => do
    let last ← nest limits pos (saturatingSucc row.last)
    .ok ⟨.repetition t b.min b.max :: ts, last, max row.height last⟩

def content (row : Row) : Content := ⟨row.terms.reverse, row.height⟩

end Row

inductive Turn where
  | stop
  | literal
  | group
  | charSet
  | bound
  | quantifier (m : Mark) (b : Bound)
deriving DecidableEq

def turn (inGroup : Bool) (b : UInt8) : Turn :=
  match Mark.ofByte? b with
  | none => .literal
  | some .bar => .stop
  | some .groupClose => if inGroup then .stop else .literal
  | some .groupOpen => .group
  | some .classOpen => .charSet
  | some .boundOpen => .bound
  | some .star => .quantifier .star ⟨0, none⟩
  | some .plus => .quantifier .plus ⟨1, none⟩
  | some .question => .quantifier .question ⟨0, some 1⟩

/-- Reads on in a scope of which `left` has been read. Each bar takes what is left of it into an
alternation with the sequence behind it. -/
def branches (limits : Limits) (pattern : List UInt8) (right : Call Row) :
    (fuel : Nat) → (left : Content) → Call Content
  | 0, _, _ => fault .exhausted
  | fuel + 1, left, s =>
    if pattern[s.pos]? = some Mark.bar.byte then do
      let pos ← move pattern (s.pos + 1)
      let (row, t) ← right { s with pos := pos }
      let height ← lift (nest limits s.pos (saturatingSucc (max left.height row.height)))
      branches limits pattern right fuel
        ⟨[.alternation left.terms row.content.terms], height⟩ t
    else .ok (left, s)

def scope (limits : Limits) (pattern : List UInt8) (sequence : Call Row) (fuel : Nat) :
    Call Content := fun s => do
  let (row, t) ← sequence s
  branches limits pattern sequence fuel row.content t

def group (limits : Limits) (pattern : List UInt8) (opened : List Nat)
    (inside : List Nat → Call Content) : Call (Term × UInt32) := fun s => do
  let depth ← enter limits opened s.pos s.depth
  let pos ← move pattern (s.pos + 1)
  let (children, t) ← inside (s.pos :: opened) ⟨pos, depth⟩
  let depth ← leave limits opened t.depth
  if pattern[t.pos]? = some Mark.groupClose.byte then do
    let pos ← move pattern (t.pos + 1)
    let height ← lift (nest limits s.pos (saturatingSucc children.height))
    .ok ((.group children.terms, height), ⟨pos, depth⟩)
  else reject (.unterminatedGroup s.pos)

/-- Reads on in a sequence of which `row` has been read. The groups around it are opened at the
offsets `opened`, innermost first. -/
def sequence (limits : Limits) (pattern : List UInt8) :
    (fuel : Nat) → (opened : List Nat) → (row : Row) → Call Row
  | 0, _, _, _ => fault .exhausted
  | fuel + 1, opened, row, s =>
    match pattern[s.pos]? with
    | none => .ok (row, s)
    | some b =>
      match turn (!opened.isEmpty) b with
      | .stop => .ok (row, s)
      | .literal => do
        let pos ← move pattern (s.pos + 1)
        sequence limits pattern fuel opened (row.push (.literal b) 0) { s with pos := pos }
      | .group => do
        let inside opened := scope limits pattern (sequence limits pattern fuel opened {}) fuel
        let ((t, height), next) ← group limits pattern opened inside s
        sequence limits pattern fuel opened (row.push t height) next
      | .charSet => do
        let (c, pos) ← charSet pattern fuel s.pos
        sequence limits pattern fuel opened (row.push (.charSet c) 0) { s with pos := pos }
      | .bound => do
        let (b, pos) ← bound limits pattern s.pos
        let row ← lift (row.quantify limits .boundOpen s.pos b)
        sequence limits pattern fuel opened row { s with pos := pos }
      | .quantifier m b => do
        let pos ← move pattern (s.pos + 1)
        let row ← lift (row.quantify limits m s.pos b)
        sequence limits pattern fuel opened row { s with pos := pos }

def read (limits : Limits) (pattern : List UInt8) (fuel : Nat) : Except Halt (List Term) := do
  let (content, t) ← scope limits pattern (sequence limits pattern fuel [] {}) fuel {}
  if t.pos = pattern.length then .ok content.terms else fault .unfinished

/-! ## Moves that stay in the pattern -/

variable {limits : Limits} {pattern : List UInt8} {opened : List Nat} {fuel pos : Nat} {b : UInt8}

theorem move_of_le (h : pos ≤ pattern.length) : move pattern pos = .ok pos := if_pos h

theorem lt_length (h : pattern[pos]? = some b) : pos < pattern.length :=
  (List.getElem?_eq_some_iff.1 h).1

theorem drop_of_getElem? (h : pattern[pos]? = some b) :
    pattern.drop pos = b :: pattern.drop (pos + 1) := by
  obtain ⟨hlt, hget⟩ := List.getElem?_eq_some_iff.1 h
  rw [List.drop_eq_getElem_cons hlt, hget]

theorem drop_of_getElem?_none (h : pattern[pos]? = none) : pattern.drop pos = [] :=
  List.drop_eq_nil_of_le (List.getElem?_eq_none_iff.1 h)

/-! ## Exactness of classes -/

section

open ClassScan

variable {start : Nat} {members : ByteClass} {anchor : Option UInt8} {text : List UInt8}

theorem readOn_last_hyphen :
    (member members anchor).readOn start pos (Mark.hyphen :: Mark.classClose :: text) =
      .ok (members.insert Mark.hyphen, pos + 2) := rfl

theorem readOn_range (h : b ≠ Mark.classClose) :
    (member members anchor).readOn start pos (Mark.hyphen :: b :: text) =
      closeRange pos members anchor b >>= fun scan => scan.readOn start (pos + 2) text := by
  have hhyphen : (member members anchor).step start pos Mark.hyphen =
      .ok (.more (hyphen pos members anchor)) := rfl
  have hrange : (hyphen pos members anchor).step start (pos + 1) b =
      (closeRange pos members anchor b).map .more := if_neg h
  rw [readOn, hhyphen]
  change readOn start (pos + 1) (hyphen pos members anchor) (b :: text) = _
  rw [readOn, hrange]
  cases closeRange pos members anchor b <;> rfl

theorem readOn_single (hclose : b ≠ Mark.classClose) (hhyphen : b ≠ Mark.hyphen) :
    (member members anchor).readOn start pos (b :: text) =
      (single b members).readOn start (pos + 1) text := by
  rw [readOn, step, if_neg hclose, if_neg hhyphen]
  rfl

/-- Behind its first byte a class is read as by a scan without a pending hyphen. -/
theorem classLoop_eq (hfuel : pattern.length - pos < fuel) :
    classLoop pattern start fuel pos members anchor false =
      lift ((member members anchor).readOn start pos (pattern.drop pos)) := by
  induction fuel generalizing pos members anchor with
  | zero => omega
  | succ fuel ih =>
    cases hb : pattern[pos]? with
    | none =>
      rw [drop_of_getElem?_none hb]
      simp only [classLoop, hb]
      rfl
    | some b =>
      have hlt := lt_length hb
      rw [drop_of_getElem? hb]
      simp only [classLoop, hb, move_of_le hlt, Bool.false_eq_true, false_or]
      by_cases hclose : b = Mark.classClose
      · subst hclose
        rfl
      rw [if_neg hclose]
      by_cases hhyphen : b = Mark.hyphen
      · subst hhyphen
        cases hnext : pattern[pos + 1]? with
        | none =>
          rw [drop_of_getElem?_none hnext]
          cases anchor <;> rfl
        | some c =>
          have hlt' := lt_length hnext
          rw [drop_of_getElem? hnext]
          by_cases hlast : c = Mark.classClose
          · subst hlast
            have hrest : classLoop pattern start fuel (pos + 1) (members.insert Mark.hyphen)
                (some Mark.hyphen) false = _ := ih (by omega)
            rw [drop_of_getElem? hnext] at hrest
            rw [if_pos (.inr rfl), readOn_last_hyphen]
            exact hrest
          · have hrange : ¬(Mark.hyphen ≠ Mark.hyphen ∨ some c = some Mark.classClose) := by
              simpa using hlast
            rw [if_neg hrange, readOn_range hlast]
            cases anchor with
            | none => rfl
            | some first =>
              simp only [closeRange]
              split
              · rw [move_of_le hlt']
                exact ih (by omega)
              · rfl
      · rw [if_pos (.inl hhyphen), readOn_single hclose hhyphen]
        exact ih (by omega)

theorem isEmpty_of_readClass {c : ByteClass} {stop : Nat}
    (h : readClass pattern pos = .ok (c, stop)) : c.isEmpty = false := by
  obtain ⟨front, back, -, hcloses, -⟩ := closes_of_readOn h
  exact Bool.eq_false_iff.2 fun h => hcloses.members_ne_nil (ByteClass.isEmpty_iff.1 h)

theorem readClass_of_getElem? (hb : pattern[pos + 1]? = some b) (hclose : b ≠ Mark.classClose) :
    readClass pattern pos =
      (single b ∅).readOn pos (pos + 2) (pattern.drop (pos + 2)) := by
  rw [readClass, drop_of_getElem? hb, readOn, step, if_neg hclose]
  rfl

theorem classLoop_first (hb : pattern[pos + 1]? = some b) (hclose : b ≠ Mark.classClose)
    (hfuel : pattern.length - (pos + 2) < fuel) :
    classLoop pattern pos (fuel + 1) (pos + 1) ∅ none true = lift (readClass pattern pos) := by
  have hmove : move pattern (pos + 1 + 1) = .ok (pos + 2) := move_of_le (lt_length hb)
  rw [readClass_of_getElem? hb hclose]
  simp only [classLoop, hb, hmove, if_neg hclose, true_or, or_true, if_true]
  exact classLoop_eq hfuel

/-- A class is read as by a scan, up to the same offset. -/
theorem charSet_eq (hpos : pos < pattern.length) (hfuel : pattern.length - pos ≤ fuel) :
    charSet pattern fuel pos = lift (readClass pattern pos) := by
  obtain ⟨fuel, rfl⟩ := Nat.exists_eq_add_one_of_ne_zero (show fuel ≠ 0 by omega)
  have hmove : move pattern (pos + 1) = .ok (pos + 1) := move_of_le hpos
  have hcharSet : charSet pattern (fuel + 1) pos =
      classLoop pattern pos (fuel + 1) (pos + 1) ∅ none true >>= fun p =>
        if p.1.isEmpty then reject (.emptyClass pos) else .ok p := by
    rw [charSet, hmove]
    rfl
  rw [hcharSet]
  cases hb : pattern[pos + 1]? with
  | none =>
    rw [readClass, drop_of_getElem?_none hb]
    simp only [classLoop, hb]
    rfl
  | some b =>
    have hlt := lt_length hb
    by_cases hclose : b = Mark.classClose
    · subst hclose
      have hmove' : move pattern (pos + 1 + 1) = .ok (pos + 2) := move_of_le hlt
      rw [readClass, drop_of_getElem? hb]
      simp only [classLoop, hb, hmove', if_true, bind, Except.bind, ByteClass.isEmpty_empty]
      rfl
    · rw [classLoop_first hb hclose (by omega)]
      cases hread : readClass pattern pos with
      | error e => rfl
      | ok result =>
        obtain ⟨c, stop⟩ := result
        exact if_neg (Bool.eq_false_iff.1 (isEmpty_of_readClass hread))

end

/-! ## Exactness of bounds -/

theorem findIdx?_of_notMem {text : List UInt8} (h : b ∉ text) :
    text.findIdx? (· = b) = none := by
  rw [List.findIdx?_eq_none_iff]
  intro c hc
  exact decide_eq_false (ne_of_mem_of_not_mem hc h)

theorem findIdx?_before {text : List UInt8} (h : b ∉ text) (rest : List UInt8) :
    (text ++ b :: rest).findIdx? (· = b) = some text.length := by
  rw [List.findIdx?_append, findIdx?_of_notMem h]
  simp [List.findIdx?_cons]

/-- A bound is read up to the first closing brace, wherever it is searched for. -/
theorem bound_eq (hpos : pos < pattern.length) :
    bound limits pattern pos = lift (readBound limits pattern pos) := by
  have hslice : sliceFrom (pos + 1) pattern = .ok (pattern.drop (pos + 1)) := if_pos hpos
  rw [bound, hslice]
  by_cases hmem : Mark.boundClose ∈ pattern.drop (pos + 1)
  · obtain ⟨text, rest, hdrop, hclose⟩ := List.eq_append_cons_of_mem hmem
    have hlength : pattern.length - (pos + 1) = text.length + (rest.length + 1) := by
      have := congrArg List.length hdrop
      simpa using this
    have hfind := findIdx?_before hclose rest
    have hmove : move pattern (pos + text.length + 2) = .ok (pos + text.length + 2) :=
      move_of_le (by omega)
    have hto : sliceTo text.length (text ++ Mark.boundClose :: rest) = .ok text := by
      rw [sliceTo, if_pos (by simp), List.take_left]
    rw [readBound_of_drop limits hdrop hclose, hdrop]
    simp only [bind, Except.bind, hfind, hmove, hto]
    cases Bound.read limits pos text <;> rfl
  · rw [readBound_of_notMem limits hmem]
    have hfind := findIdx?_of_notMem hmem
    simp only [bind, Except.bind, hfind]
    rfl

end Descent

end ByteRegex
