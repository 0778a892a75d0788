import ByteRegex.Proofs.ClassReading

/-!
# Open classes

A reader that is in a class has read its opening bracket and a row of items behind that. If the
pattern ends there with a hyphen, the class is not closed; but behind a range the hyphen is itself
an error, since it could be no more than the last byte of the class.
-/

namespace ByteRegex

open ClassItem

namespace ClassScan

def BetweenItems : ClassScan → Prop
  | hyphen _ _ _ => False
  | _ => True

theorem HasRead.exists_items {scan : ClassScan} {text : List UInt8} (h : scan.HasRead text)
    (hscan : scan.BetweenItems) :
    ∃ items, ArePlaced False items ∧ scan = behind items ∧ text = items.flatMap ClassItem.text := by
  obtain ⟨items, hitems, ⟨hbehind, htext⟩ | ⟨begun, members, anchor, rfl, -, -⟩⟩ := h
  · exact ⟨items, hitems, hbehind, htext⟩
  · exact absurd hscan id

end ClassScan

/-- The error for a pattern that ends with the hyphen at `offset`, behind the items of the class
opened at `opened`. -/
def hyphenError (opened offset : Nat) (items : List ClassItem) : CompileError :=
  match items.getLast? with
  | some (.range _ _) => .invalidRange offset
  | _ => .unterminatedClass opened

namespace Reader

variable {limits : Limits} {r r' : Reader} {text : List UInt8}

structure KeepsClass (text : List UInt8) (r : Reader) : Prop where
  offset_eq : r.offset = text.length
  has_read : ∀ opened scan, r.mode = .inClass opened scan →
    ∃ before inside, text = before ++ Mark.classOpen.byte :: inside ∧ before.length = opened ∧
      scan.HasRead inside

theorem keepsClass_start : ({} : Reader).KeepsClass [] where
  offset_eq := rfl
  has_read := nofun

theorem KeepsClass.advances {b : UInt8} (h : r.KeepsClass text) (hr : Advances limits r b r') :
    { r' with offset := r.offset + 1 }.KeepsClass (text ++ [b]) := by
  have hoffset : r.offset + 1 = (text ++ [b]).length := by
    rw [h.offset_eq, List.length_append, List.length_singleton]
  cases hr with
  | literal hp hb => exact ⟨hoffset, by simp [push, hp]⟩
  | openGroup hp ha => exact ⟨hoffset, by simp [hp]⟩
  | closeGroup hp he hc ha => exact ⟨hoffset, by simp [hp]⟩
  | bar hp hf => exact ⟨hoffset, by simp [hp]⟩
  | quantifier hp hm hps ha => exact ⟨hoffset, by simp [hp]⟩
  | beginClass hp =>
    refine ⟨hoffset, ?_⟩
    rintro opened scan ⟨⟩
    exact ⟨text, [], rfl, h.offset_eq.symm, ClassScan.hasRead_start⟩
  | inClass hm hs =>
    refine ⟨hoffset, ?_⟩
    rintro opened scan ⟨⟩
    obtain ⟨before, inside, rfl, hopened, hread⟩ := h.has_read _ _ hm
    obtain ⟨-, hextends⟩ := ClassScan.extends_of_step hs
    refine ⟨before, inside ++ [b], ?_, hopened, hread.extends hextends⟩
    rw [List.append_assoc, List.cons_append]
  | endClass hm hs => exact ⟨hoffset, nofun⟩
  | beginBound hp => exact ⟨hoffset, nofun⟩
  | inBound hm hb => exact ⟨hoffset, nofun⟩
  | endBound hm hb hps ha => exact ⟨hoffset, nofun⟩

theorem keepsClass_of_runs (hr : Runs limits {} text r) : r.KeepsClass text :=
  hr.invariant (fun _ _ _ _ h hs => h.advances hs) keepsClass_start

/-- The hyphen is a member where it comes first, and otherwise waits for the end of a range. -/
theorem complete_hyphen {opened : Nat} {items : List ClassItem}
    (hm : r.mode = .inClass opened (.behind items)) :
    r.complete limits [Mark.hyphen] = .error (hyphenError opened r.offset items) := by
  rw [complete_cons, step_inClass hm, hyphenError]
  rcases List.eq_nil_or_concat items with rfl | ⟨front, item, rfl⟩
  · rfl
  · rw [List.concat_eq_append, ClassScan.behind_append_singleton, List.getLast?_concat]
    cases item with
    | single b => rfl
    | range first last => rfl

end Reader

/-- A pattern that ends with a hyphen in a class whose items are complete before it is rejected: for
want of a closing bracket, unless the last item is a range. Then it is rejected for the hyphen. -/
theorem parse_append_hyphen {limits : Limits} {front : List UInt8} {r : Reader} {opened : Nat}
    {scan : ClassScan} (hr : Reader.Runs limits {} front r) (hm : r.mode = .inClass opened scan)
    (hscan : scan.BetweenItems) :
    front[opened]? = some Mark.classOpen.byte ∧
      (∃ items, ArePlaced False items ∧ front.drop (opened + 1) = items.flatMap text) ∧
      ∀ items, ArePlaced False items → front.drop (opened + 1) = items.flatMap text →
        parse limits (front ++ [Mark.hyphen]) =
          .error (hyphenError opened front.length items) := by
  have hkeeps := Reader.keepsClass_of_runs hr
  obtain ⟨before, inside, hfront, rfl, hread⟩ := hkeeps.has_read opened scan hm
  obtain ⟨items, hitems, rfl, hinside⟩ := hread.exists_items hscan
  have hdrop : front.drop (before.length + 1) = items.flatMap text := by
    rw [hfront, hinside, List.append_cons]
    exact List.drop_left' (by simp)
  refine ⟨by simp [hfront], ⟨items, hitems, hdrop⟩, fun items' hitems' hdrop' => ?_⟩
  obtain rfl := eq_of_flatMap_text hitems hitems' (hdrop.symm.trans hdrop')
  rw [parse_eq_complete, hr.complete, Reader.complete_hyphen hm, hkeeps.offset_eq]

/-- The pattern is `[a-cx-`: a byte behind the range may start another one. -/
theorem parse_append_hyphen_of_single :
    ∃ r scan, Reader.Runs {} {} [91, 97, 45, 99, 120] r ∧ r.mode = .inClass 0 scan ∧
      scan.BetweenItems ∧ ArePlaced False [.range 97 99, .single 120] ∧
      parse {} ([91, 97, 45, 99, 120] ++ [Mark.hyphen]) = .error (.unterminatedClass 0) := by
  have hr : Reader.Runs {} {} [91, 97, 45, 99, 120] _ := rfl
  have hrange : IsPlaced (([] : List ClassItem) = []) False (.range 97 99) :=
    ⟨fun _ => rfl, by decide⟩
  have hsingle : IsPlaced ([ClassItem.range 97 99] = []) False (.single 120) :=
    fun he => absurd he (by decide)
  have hitems : ArePlaced False ([.range 97 99] ++ [.single 120]) :=
    arePlaced_append_singleton.2
      ⟨arePlaced_append_singleton.2 ⟨arePlaced_nil False, hrange⟩, hsingle⟩
  obtain ⟨-, -, hparse⟩ := parse_append_hyphen hr rfl trivial
  exact ⟨_, _, hr, rfl, trivial, hitems, hparse _ hitems rfl⟩

/-- The pattern is `[a-c-`: the class is open, and still the hyphen is what is reported. -/
theorem parse_hyphen_behind_range :
    ∃ r scan, Reader.Runs {} {} [91, 97, 45, 99] r ∧ r.mode = .inClass 0 scan ∧
      scan.BetweenItems ∧
      parse {} ([91, 97, 45, 99] ++ [Mark.hyphen]) = .error (.invalidRange 4) ∧
      parse {} ([91, 97, 45, 99] ++ [Mark.hyphen]) ≠ .error (.unterminatedClass 0) := by
  have hr : Reader.Runs {} {} [91, 97, 45, 99] _ := rfl
  have hparse : parse {} ([91, 97, 45, 99] ++ [Mark.hyphen]) = .error (.invalidRange 4) := rfl
  refine ⟨_, _, hr, rfl, trivial, hparse, ?_⟩
  rw [hparse]
  nofun

end ByteRegex
