import ByteRegex.Proofs.ClassItems
import ByteRegex.Proofs.ReaderSteps

/-!
# Reading classes

A reader that meets an opening bracket reads a class from there and goes on behind it. What it reads
depends on nothing but the pattern behind the bracket: the class ends at the first closing bracket,
and it is read exactly if what stands before that bracket is a row of items.
-/

namespace ByteRegex

open ClassItem

namespace ClassScan

/-- Reads on in the class opened at `opened`, up to its closing bracket. The result is the class and
the offset behind that bracket. -/
def readOn (opened : Nat) : Nat → ClassScan → List UInt8 → Except CompileError (ByteClass × Nat)
  | _, scan, [] => .error (scan.endError opened)
  | offset, scan, b :: text =>
    scan.step opened offset b >>= fun
      | .closed c => .ok (c, offset + 1)
      | .more next => readOn opened (offset + 1) next text

variable {c : ByteClass} {cursor : Nat}

theorem closes_of_readOn {opened offset : Nat} {scan : ClassScan} {text : List UInt8}
    (h : readOn opened offset scan text = .ok (c, cursor)) :
    ∃ front back, text = front ++ back ∧ Closes scan front c ∧ cursor = offset + front.length := by
  induction text generalizing offset scan with
  | nil => cases h
  | cons b text ih =>
    obtain ⟨progress, hs, h⟩ := CompileError.bind_eq_ok_iff.1 h
    cases progress with
    | closed d =>
      cases h
      exact ⟨[b], text, rfl, .last opened offset hs, rfl⟩
    | more next =>
      obtain ⟨front, back, rfl, hcloses, rfl⟩ := ih h
      refine ⟨b :: front, back, rfl, .more opened offset hs hcloses, ?_⟩
      rw [List.length_cons]
      omega

/-- Where a text closes the scan does not matter, nor does where its pending hyphen stands. -/
theorem Closes.readOn {scan : ClassScan} {front : List UInt8} (h : Closes scan front c)
    (opened offset p : Nat) (back : List UInt8) :
    readOn opened offset (scan.relocate p) (front ++ back) = .ok (c, offset + front.length) := by
  induction h generalizing offset p with
  | last _ _ hs =>
    obtain ⟨rfl, hends⟩ := ends_of_step hs
    rw [List.singleton_append, ClassScan.readOn, (hends.relocate p).step opened offset]
    rfl
  | @more scan next b text c _ _ hs _ ih =>
    obtain ⟨hb, hextends⟩ := extends_of_step hs
    have hstep := (hextends.relocate p offset).step hb opened
    -- If the step begins a hyphen then it stands at this offset.
    have hrest := ih (offset + 1) offset
    have hlength : offset + 1 + text.length = offset + (b :: text).length := by
      rw [List.length_cons]
      omega
    rw [hlength] at hrest
    rw [List.cons_append, ClassScan.readOn, hstep]
    exact hrest

end ClassScan

def readClass (pattern : List UInt8) (a : Nat) : Except CompileError (ByteClass × Nat) :=
  ClassScan.start.readOn a (a + 1) (pattern.drop (a + 1))

example : readClass [120, 91, 97, 45, 99, 93] 1 =
    .ok (((∅ : ByteClass).insert 97).insertRange 97 99, 6) := rfl

namespace Reader

def behindClass (c : ByteClass) (cursor : Nat) (r : Reader) : Reader :=
  { r.push (.charSet c) with offset := cursor, mode := .plain }

variable {limits : Limits} {r : Reader} {opened : Nat} {scan : ClassScan}

theorem step_inClass (hm : r.mode = .inClass opened scan) (b : UInt8) :
    r.step limits b = (scan.step opened r.offset b).map fun
      | .more next => { r with offset := r.offset + 1, mode := .inClass opened next }
      | .closed c => r.behindClass c (r.offset + 1) := by
  rw [step, readByte, hm]
  simp only [readInClass]
  cases scan.step opened r.offset b with
  | error e => rfl
  | ok progress => cases progress <;> rfl

theorem complete_inClass (limits : Limits) (pattern : List UInt8)
    (hm : r.mode = .inClass opened scan) :
    r.complete limits (pattern.drop r.offset) =
      scan.readOn opened r.offset (pattern.drop r.offset) >>= fun p =>
        (r.behindClass p.1 p.2).complete limits (pattern.drop p.2) := by
  generalize htext : pattern.drop r.offset = text
  induction text generalizing r scan with
  | nil =>
    rw [complete_nil, finish, hm]
    rfl
  | cons b text ih =>
    have hdrop : pattern.drop (r.offset + 1) = text := by
      rw [List.drop_add_one_eq_tail_drop, htext, List.tail_cons]
    rw [complete_cons, step_inClass hm, ClassScan.readOn]
    cases scan.step opened r.offset b with
    | error e => rfl
    | ok progress =>
      cases progress with
      | closed c =>
        subst hdrop
        rfl
      | more next =>
        exact ih (r := { r with offset := r.offset + 1, mode := .inClass opened next }) rfl hdrop

/-- At an opening bracket the reader reads the class and goes on behind it. -/
theorem complete_classOpen (limits : Limits) {pattern : List UInt8} (hp : r.mode = .plain)
    (h : pattern[r.offset]? = some Mark.classOpen.byte) :
    r.complete limits (pattern.drop r.offset) = readClass pattern r.offset >>= fun p =>
      (r.behindClass p.1 p.2).complete limits (pattern.drop p.2) := by
  rw [(Advances.beginClass hp).complete h]
  exact complete_inClass limits pattern
    (r := { r with offset := r.offset + 1, mode := .inClass r.offset .start }) rfl

end Reader

/-! ## Rows of items between brackets -/

variable {pattern body rest : List UInt8} {a cursor : Nat} {items : List ClassItem} {c : ByteClass}

theorem readClass_of_splits (hdrop : pattern.drop (a + 1) = body ++ Mark.classClose :: rest)
    (hclose : Mark.classClose ∉ body) (hsplits : Splits items body) :
    ∃ c, readClass pattern a = .ok (c, a + body.length + 2) ∧
      ∀ b, b ∈ c ↔ ∃ item ∈ items, item.Covers b := by
  obtain ⟨c, hcloses, hmem⟩ := ClassScan.closes_of_splits hsplits hclose
  have hread := hcloses.readOn a (a + 1) 0 rest
  have hlength : a + 1 + (body ++ [Mark.classClose]).length = a + body.length + 2 := by
    rw [List.length_append, List.length_singleton]
    omega
  rw [← List.append_cons, ← hdrop, hlength] at hread
  exact ⟨c, hread, hmem⟩

theorem exists_splits_of_readClass (h : readClass pattern a = .ok (c, cursor)) :
    ∃ body rest items, pattern.drop (a + 1) = body ++ Mark.classClose :: rest ∧
      Mark.classClose ∉ body ∧ Splits items body := by
  obtain ⟨front, back, hdrop, hcloses, -⟩ := ClassScan.closes_of_readOn h
  obtain ⟨body, items, hbody, hclose, hsplits, -⟩ :=
    hcloses.exists_items ClassScan.hasRead_start List.not_mem_nil
  rw [List.nil_append] at hbody
  refine ⟨body, back, items, ?_, hclose, hsplits⟩
  rw [hdrop, hbody, List.append_assoc, List.singleton_append]

/-- At an opening bracket a class is read if and only if there is a closing one and the bytes before
the first of these split into items. The class is then their union, and reading goes on behind that
closing bracket. -/
theorem readClass_exact {pattern : List UInt8} {a : Nat}
    (h : pattern[a]? = some Mark.classOpen.byte) :
    (∀ (limits : Limits) (r : Reader), r.mode = .plain → r.offset = a →
      r.complete limits (pattern.drop a) = readClass pattern a >>= fun p =>
        (r.behindClass p.1 p.2).complete limits (pattern.drop p.2)) ∧
    ((∃ c cursor, readClass pattern a = .ok (c, cursor)) ↔
      ∃ body rest items, pattern.drop (a + 1) = body ++ Mark.classClose :: rest ∧
        Mark.classClose ∉ body ∧ Splits items body) ∧
    ∀ c cursor body rest items, readClass pattern a = .ok (c, cursor) →
      pattern.drop (a + 1) = body ++ Mark.classClose :: rest → Mark.classClose ∉ body →
      Splits items body →
      (∀ b, b ∈ c ↔ ∃ item ∈ items, item.Covers b) ∧ cursor = a + body.length + 2 := by
  refine ⟨?_, ⟨?_, ?_⟩, ?_⟩
  · rintro limits r hp rfl
    exact Reader.complete_classOpen limits hp h
  · rintro ⟨c, cursor, hread⟩
    exact exists_splits_of_readClass hread
  · rintro ⟨body, rest, items, hdrop, hclose, hsplits⟩
    obtain ⟨c, hread, -⟩ := readClass_of_splits hdrop hclose hsplits
    exact ⟨c, _, hread⟩
  · intro c cursor body rest items hread hdrop hclose hsplits
    obtain ⟨d, hread', hmem⟩ := readClass_of_splits hdrop hclose hsplits
    obtain ⟨rfl, rfl⟩ := Prod.mk.inj (Except.ok.inj (hread.symm.trans hread'))
    exact ⟨hmem, rfl⟩

/-- The pattern is `x[--0a-]y`: a hyphen starts a range, another one ends the class. -/
theorem readClass_exact_of_hyphens :
    ([120, 91, 45, 45, 48, 97, 45, 93, 121] : List UInt8)[1]? = some Mark.classOpen.byte ∧
      Splits [.range 45 48, .single 97, .single 45] [45, 45, 48, 97, 45] ∧
      ∃ c, readClass [120, 91, 45, 45, 48, 97, 45, 93, 121] 1 = .ok (c, 8) ∧
        ∀ b, b ∈ c ↔ ∃ item ∈ [ClassItem.range 45 48, .single 97, .single 45], item.Covers b := by
  have hrange : IsPlaced (([] : List ClassItem) = []) False (.range 45 48) :=
    ⟨fun _ => rfl, by decide⟩
  have hsingle : IsPlaced ([ClassItem.range 45 48] = []) False (.single 97) :=
    fun he => absurd he (by decide)
  have hhyphen : IsPlaced ([ClassItem.range 45 48, .single 97] = []) True (.single 45) :=
    fun _ => .inr trivial
  have hfront : ArePlaced False ([.range 45 48] ++ [.single 97]) :=
    arePlaced_append_singleton.2
      ⟨arePlaced_append_singleton.2 ⟨arePlaced_nil False, hrange⟩, hsingle⟩
  have hsplits : Splits [.range 45 48, .single 97, .single 45] [45, 45, 48, 97, 45] :=
    ⟨List.cons_ne_nil _ _, rfl, arePlaced_append_singleton.2 ⟨hfront, hhyphen⟩⟩
  have hopen : ([120, 91, 45, 45, 48, 97, 45, 93, 121] : List UInt8)[1]? =
      some Mark.classOpen.byte := rfl
  obtain ⟨-, hreads, hexact⟩ := readClass_exact hopen
  obtain ⟨c, cursor, hread⟩ := hreads.2 ⟨_, [121], _, rfl, by decide, hsplits⟩
  obtain ⟨hmem, rfl⟩ := hexact c cursor _ [121] _ hread rfl (by decide) hsplits
  exact ⟨hopen, hsplits, c, hread, hmem⟩

end ByteRegex
