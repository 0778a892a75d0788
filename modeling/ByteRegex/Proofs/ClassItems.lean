import ByteRegex.Proofs.ClassTexts
import Mathlib.Data.List.Induction

/-!
# Items of classes

What stands between the brackets of a class is a row of items, single bytes and ranges. A hyphen is
a single byte only where the row begins or ends. The items that have been read determine how far a
scan has come, so a text closes a scan exactly if it is a row of items before a closing bracket, and
the class is the union of the items. Before the bracket is met a text is that of at most one row.
-/

namespace ByteRegex

inductive ClassItem where
  | single (b : UInt8)
  | range (first last : UInt8)

namespace ClassItem

def text : ClassItem → List UInt8
  | single b => [b]
  | range first last => [first, Mark.hyphen, last]

def Covers : ClassItem → UInt8 → Prop
  | single b, a => a = b
  | range first last, a => first ≤ a ∧ a ≤ last

def IsPlaced (isFirst isLast : Prop) : ClassItem → Prop
  | single b => b = Mark.hyphen → isFirst ∨ isLast
  | range first last => (first = Mark.hyphen → isFirst) ∧ first ≤ last

/-- Every item of a row may stand where it does. Only where the class is complete does the row have
a last item. -/
def ArePlaced (complete : Prop) (items : List ClassItem) : Prop :=
  ∀ front item back, items = front ++ item :: back →
    item.IsPlaced (front = []) (complete ∧ back = [])

def Splits (items : List ClassItem) (body : List UInt8) : Prop :=
  items ≠ [] ∧ body = items.flatMap text ∧ ArePlaced True items

variable {item : ClassItem} {items : List ClassItem}

theorem IsPlaced.mono {isFirst isLast isFirst' isLast' : Prop}
    (h : item.IsPlaced isFirst isLast) (hfirst : isFirst → isFirst') (hlast : isLast → isLast') :
    item.IsPlaced isFirst' isLast' := by
  cases item with
  | single b => exact fun hb => (h hb).imp hfirst hlast
  | range first last => exact ⟨fun hb => hfirst (h.1 hb), h.2⟩

theorem arePlaced_nil (complete : Prop) : ArePlaced complete [] := by
  intro front item back h
  simp at h

theorem ArePlaced.mono {complete complete' : Prop} (h : ArePlaced complete items)
    (hcomplete : complete → complete') : ArePlaced complete' items :=
  fun front item back heq => (h front item back heq).mono id (And.imp_left hcomplete)

theorem arePlaced_append_singleton {complete : Prop} :
    ArePlaced complete (items ++ [item]) ↔
      ArePlaced False items ∧ item.IsPlaced (items = []) complete := by
  constructor
  · intro h
    constructor
    · rintro front i back rfl
      have hi := h front i (back ++ [item]) (by simp)
      exact hi.mono id fun hlast => absurd hlast.2 (by simp)
    · exact (h items item [] rfl).mono id And.left
  · rintro ⟨hitems, hitem⟩ front i back heq
    rcases List.eq_nil_or_concat back with rfl | ⟨back, z, rfl⟩
    · obtain ⟨rfl, hlast⟩ := List.append_inj' heq rfl
      cases hlast
      exact hitem.mono id fun hcomplete => ⟨hcomplete, rfl⟩
    · rw [List.concat_eq_append, ← List.cons_append, ← List.append_assoc] at heq
      obtain ⟨rfl, -⟩ := List.append_inj' heq rfl
      exact (hitems front i back rfl).mono id fun hfalse => hfalse.1.elim

theorem exists_covers_append_singleton {a : UInt8} :
    (∃ i ∈ items ++ [item], i.Covers a) ↔ item.Covers a ∨ ∃ i ∈ items, i.Covers a := by
  simp only [List.mem_append, List.mem_singleton, or_and_right, exists_or, exists_eq_left]
  exact or_comm

/-! ## One row for a text -/

theorem flatMap_text_append_single (items : List ClassItem) (b : UInt8) :
    (items ++ [single b]).flatMap text = items.flatMap text ++ [b] := by simp [text]

theorem flatMap_text_append_range (items : List ClassItem) (first last : UInt8) :
    (items ++ [range first last]).flatMap text =
      items.flatMap text ++ [first] ++ [Mark.hyphen] ++ [last] := by simp [text]

theorem eq_nil_of_flatMap_text (h : items.flatMap text = []) : items = [] := by
  cases items with
  | nil => rfl
  | cons item items => cases item <;> cases h

theorem flatMap_text_of_hyphen {first last : UInt8}
    (h : ArePlaced False (items ++ [range first last])) (hfirst : first = Mark.hyphen) :
    items.flatMap text = [] := by
  rw [(arePlaced_append_singleton.1 h).2.1 hfirst, List.flatMap_nil]

/-- Behind the first byte of a range the hyphen is no item of its own, nor does it end another
range. -/
theorem flatMap_text_ne {front : List UInt8} {first : UInt8} (h : ArePlaced False items)
    (hfirst : first = Mark.hyphen → front = []) :
    items.flatMap text ≠ front ++ [first] ++ [Mark.hyphen] := by
  intro heq
  rcases List.eq_nil_or_concat items with rfl | ⟨items, item, rfl⟩
  · simp at heq
  · rw [List.concat_eq_append] at heq h
    cases item with
    | single b =>
      rw [flatMap_text_append_single] at heq
      obtain ⟨hfront, hb⟩ := List.append_inj' heq rfl
      have hitem := (arePlaced_append_singleton.1 h).2 (List.singleton_inj.1 hb)
      simp [hitem.resolve_right id] at hfront
    | range x y =>
      rw [flatMap_text_append_range] at heq
      obtain ⟨heq, -⟩ := List.append_inj' heq rfl
      obtain ⟨hfront, hhyphen⟩ := List.append_inj' heq rfl
      simp [hfirst (List.singleton_inj.1 hhyphen).symm] at hfront

/-- The last bytes of a text tell what the last item is, so no text is that of two rows. -/
theorem eq_of_flatMap_text {items' : List ClassItem} (h : ArePlaced False items)
    (h' : ArePlaced False items') (heq : items.flatMap text = items'.flatMap text) :
    items = items' := by
  induction items using List.reverseRecOn generalizing items' with
  | nil => exact (eq_nil_of_flatMap_text heq.symm).symm
  | append_singleton items item ih =>
    rcases List.eq_nil_or_concat items' with rfl | ⟨items', item', rfl⟩
    · exact eq_nil_of_flatMap_text heq
    · rw [List.concat_eq_append] at h' heq ⊢
      have hitems := (arePlaced_append_singleton.1 h).1
      have hitems' := (arePlaced_append_singleton.1 h').1
      -- Without the last byte of a range its hyphen would end the text of the other row.
      cases item with
      | single b =>
        cases item' with
        | single b' =>
          rw [flatMap_text_append_single, flatMap_text_append_single] at heq
          obtain ⟨hfront, hlast⟩ := List.append_inj' heq rfl
          cases hlast
          rw [ih hitems hitems' hfront]
        | range x y =>
          rw [flatMap_text_append_single, flatMap_text_append_range] at heq
          obtain ⟨hfront, -⟩ := List.append_inj' heq rfl
          exact absurd hfront (flatMap_text_ne hitems (flatMap_text_of_hyphen h'))
      | range x y =>
        cases item' with
        | single b' =>
          rw [flatMap_text_append_single, flatMap_text_append_range] at heq
          obtain ⟨hfront, -⟩ := List.append_inj' heq rfl
          exact absurd hfront.symm (flatMap_text_ne hitems' (flatMap_text_of_hyphen h))
        | range x' y' =>
          rw [flatMap_text_append_range, flatMap_text_append_range] at heq
          obtain ⟨heq, hlast⟩ := List.append_inj' heq rfl
          obtain ⟨heq, -⟩ := List.append_inj' heq rfl
          obtain ⟨hfront, hfirst⟩ := List.append_inj' heq rfl
          cases hlast
          cases hfirst
          rw [ih hitems hitems' hfront]

end ClassItem

namespace ClassScan

open ClassItem

variable {item : ClassItem} {items : List ClassItem} {scan next : ClassScan} {b : UInt8}
  {c : ByteClass}

/-! ## The scan behind a row of items -/

def members : ClassScan → ByteClass
  | start => ∅
  | member members _ => members
  | hyphen _ members _ => members

/-- The scan behind an item. The byte that starts a range has been a member before the range. -/
def after (scan : ClassScan) : ClassItem → ClassScan
  | .single b => single b scan.members
  | .range first last => member ((scan.members.insert first).insertRange first last) none

def behind (items : List ClassItem) : ClassScan := items.foldl after start

theorem behind_append_singleton (items : List ClassItem) (item : ClassItem) :
    behind (items ++ [item]) = (behind items).after item := by
  simp [behind]

theorem behind_of_ne_nil (h : items ≠ []) :
    ∃ members anchor, behind items = member members anchor := by
  rcases List.eq_nil_or_concat items with rfl | ⟨front, item, rfl⟩
  · exact absurd rfl h
  · rw [List.concat_eq_append, behind_append_singleton]
    cases item with
    | single b => exact ⟨_, _, rfl⟩
    | range first last => exact ⟨_, _, rfl⟩

/-- A range can start only at the byte just read. -/
theorem eq_append_single_of_behind {members : ByteClass} {first : UInt8}
    (h : behind items = member members (some first)) :
    ∃ front, items = front ++ [.single first] ∧
      members = (behind front).members.insert first := by
  rcases List.eq_nil_or_concat items with rfl | ⟨front, item, rfl⟩
  · cases h
  · rw [List.concat_eq_append, behind_append_singleton] at h
    cases item with
    | single b =>
      cases h
      exact ⟨front, List.concat_eq_append, rfl⟩
    | range b last => cases h

theorem mem_members_behind (h : ArePlaced False items) (a : UInt8) :
    a ∈ (behind items).members ↔ ∃ item ∈ items, item.Covers a := by
  induction items using List.reverseRecOn with
  | nil => simp [behind, members]
  | append_singleton items item ih =>
    obtain ⟨hitems, hitem⟩ := arePlaced_append_singleton.1 h
    have hcovers : a ∈ ((behind items).after item).members ↔
        item.Covers a ∨ a ∈ (behind items).members := by
      cases item with
      | single b => exact ByteClass.mem_insert
      | range first last =>
        simp only [after, members, ByteClass.mem_insertRange, ByteClass.mem_insert, Covers]
        constructor
        · rintro (hrange | rfl | hm)
          · exact .inl hrange
          · exact .inl ⟨UInt8.le_refl a, hitem.2⟩
          · exact .inr hm
        · exact Or.imp_right .inr
    rw [behind_append_singleton, hcovers, ih hitems, exists_covers_append_singleton]

/-! ## Reading items -/

def HasRead (scan : ClassScan) (text : List UInt8) : Prop :=
  ∃ items, ArePlaced False items ∧
    ((scan = behind items ∧ text = items.flatMap ClassItem.text) ∨
      ∃ begun members anchor, scan = hyphen begun members anchor ∧
        behind items = member members anchor ∧
        text = items.flatMap ClassItem.text ++ [Mark.hyphen])

theorem hasRead_start : start.HasRead [] := ⟨[], arePlaced_nil False, .inl ⟨rfl, rfl⟩⟩

theorem hasRead_append_item (h : ArePlaced False items)
    (hitem : item.IsPlaced (items = []) False) :
    ((behind items).after item).HasRead (items.flatMap ClassItem.text ++ item.text) := by
  refine ⟨items ++ [item], arePlaced_append_singleton.2 ⟨h, hitem⟩, .inl ⟨?_, ?_⟩⟩
  · rw [behind_append_singleton]
  · simp

theorem HasRead.extends {text : List UInt8} {offset : Nat} (h : scan.HasRead text)
    (hb : Extends offset b scan next) : next.HasRead (text ++ [b]) := by
  obtain ⟨items, hitems, ⟨rfl, rfl⟩ | ⟨begun, members, anchor, rfl, hbehind, rfl⟩⟩ := h
  · by_cases hnil : items = []
    · subst hnil
      cases hb with
      | first =>
        have hitem : IsPlaced ([] = ([] : List ClassItem)) False (.single b) :=
          fun _ => .inl rfl
        exact hasRead_append_item hitems hitem
    · obtain ⟨members, anchor, hbehind⟩ := behind_of_ne_nil hnil
      rw [hbehind] at hb
      cases hb with
      | single hne =>
        have hitem : IsPlaced (items = []) False (.single b) := fun he => absurd he hne
        have hread := hasRead_append_item hitems hitem
        rw [hbehind] at hread
        exact hread
      | hyphen he =>
        subst he
        exact ⟨items, hitems, .inr ⟨_, _, _, rfl, hbehind, rfl⟩⟩
  · cases hb with
    | @range _ _ first hle =>
      obtain ⟨front, rfl, rfl⟩ := eq_append_single_of_behind hbehind
      obtain ⟨hfront, hfirst⟩ := arePlaced_append_singleton.1 hitems
      have hitem : IsPlaced (front = []) False (.range first b) :=
        ⟨fun he => (hfirst he).resolve_right id, hle⟩
      have hread := hasRead_append_item hfront hitem
      simpa [ClassItem.text, after] using hread

theorem splits_append_hyphen (h : ArePlaced False items) :
    Splits (items ++ [.single Mark.hyphen]) (items.flatMap ClassItem.text ++ [Mark.hyphen]) := by
  have hlast : IsPlaced (items = []) True (.single Mark.hyphen) := fun _ => .inr trivial
  exact ⟨by simp, by simp [ClassItem.text], arePlaced_append_singleton.2 ⟨h, hlast⟩⟩

theorem mem_insert_hyphen_behind {members : ByteClass} {anchor : Option UInt8}
    (h : ArePlaced False items) (hbehind : behind items = member members anchor) (a : UInt8) :
    a ∈ members.insert Mark.hyphen ↔
      ∃ item ∈ items ++ [.single Mark.hyphen], item.Covers a := by
  have hmembers := mem_members_behind h a
  rw [hbehind] at hmembers
  rw [exists_covers_append_singleton, ← hmembers]
  exact ByteClass.mem_insert

/-- A scan that is closed now has read a complete row of items. -/
theorem HasRead.ends {text : List UInt8} (h : scan.HasRead text) (hc : Ends scan c) :
    ∃ items, Splits items text ∧ ∀ a, a ∈ c ↔ ∃ item ∈ items, item.Covers a := by
  obtain ⟨items, hitems, ⟨rfl, rfl⟩ | ⟨begun, members, anchor, rfl, hbehind, rfl⟩⟩ := h
  · by_cases hnil : items = []
    · subst hnil
      cases hc
    · refine ⟨items, ⟨hnil, rfl, hitems.mono False.elim⟩, fun a => ?_⟩
      obtain ⟨members, anchor, hbehind⟩ := behind_of_ne_nil hnil
      have hmembers := mem_members_behind hitems a
      rw [hbehind] at hc hmembers
      cases hc
      exact hmembers
  · cases hc
    exact ⟨_, splits_append_hyphen hitems, mem_insert_hyphen_behind hitems hbehind⟩

theorem Closes.exists_items {text front : List UInt8} (h : Closes scan text c)
    (hfront : scan.HasRead front) (hclose : Mark.classClose ∉ front) :
    ∃ body items, front ++ text = body ++ [Mark.classClose] ∧ Mark.classClose ∉ body ∧
      Splits items body ∧ ∀ a, a ∈ c ↔ ∃ item ∈ items, item.Covers a := by
  induction h generalizing front with
  | last opened offset hs =>
    obtain ⟨rfl, hends⟩ := ends_of_step hs
    obtain ⟨items, hsplits, hmem⟩ := hfront.ends hends
    exact ⟨front, items, rfl, hclose, hsplits, hmem⟩
  | @more _ _ b text _ opened offset hs _ ih =>
    obtain ⟨hb, hextends⟩ := extends_of_step hs
    have hclose' : Mark.classClose ∉ front ++ [b] := by
      simp only [List.mem_append, List.mem_singleton, not_or]
      exact ⟨hclose, Ne.symm hb⟩
    rw [List.append_cons]
    exact ih (hfront.extends hextends) hclose'

/-! ## Closing behind items -/

/-- An item read from where a row ends. -/
theorem closes_item {rest : List UInt8} (hitem : item.IsPlaced (items = []) False)
    (hclose : Mark.classClose ∉ item.text) (h : Closes ((behind items).after item) rest c) :
    Closes (behind items) (item.text ++ rest) c := by
  have hfirst : ∀ {b : UInt8} {rest : List UInt8}, (b = Mark.hyphen → items = []) →
      b ≠ Mark.classClose → Closes (single b (behind items).members) rest c →
      Closes (behind items) (b :: rest) c := by
    intro b rest hb hne hrest
    by_cases hnil : items = []
    · subst hnil
      exact hrest.cons_first hne
    · obtain ⟨members, anchor, hbehind⟩ := behind_of_ne_nil hnil
      rw [hbehind] at hrest ⊢
      exact hrest.cons_single ⟨fun he => hnil (hb he), hne⟩
  cases item with
  | single b =>
    simp only [ClassItem.text, List.mem_singleton] at hclose
    exact hfirst (fun he => (hitem he).resolve_right id) (Ne.symm hclose) h
  | range first last =>
    simp only [ClassItem.text, List.mem_cons, List.not_mem_nil, or_false, not_or] at hclose
    exact hfirst hitem.1 (Ne.symm hclose.1) (h.cons_range hitem.2 (Ne.symm hclose.2.2))

theorem closes_items {rest : List UInt8} (hitems : ArePlaced False items)
    (hclose : Mark.classClose ∉ items.flatMap ClassItem.text) (h : Closes (behind items) rest c) :
    Closes start (items.flatMap ClassItem.text ++ rest) c := by
  induction items using List.reverseRecOn generalizing rest with
  | nil => exact h
  | append_singleton items item ih =>
    obtain ⟨hitems, hitem⟩ := arePlaced_append_singleton.1 hitems
    simp only [List.flatMap_append, List.flatMap_singleton, List.mem_append, not_or] at hclose
    rw [behind_append_singleton] at h
    rw [List.flatMap_append, List.flatMap_singleton, List.append_assoc]
    exact ih hitems hclose.1 (closes_item hitem hclose.2 h)

/-- The last item may be a hyphen behind other items, which is only found out at the bracket. -/
theorem closes_of_splits {body : List UInt8} (h : Splits items body)
    (hclose : Mark.classClose ∉ body) :
    ∃ c, Closes start (body ++ [Mark.classClose]) c ∧
      ∀ a, a ∈ c ↔ ∃ item ∈ items, item.Covers a := by
  obtain ⟨hne, rfl, hplaced⟩ := h
  obtain ⟨front, item, rfl⟩ := (List.eq_nil_or_concat items).resolve_left hne
  rw [List.concat_eq_append] at hne hplaced hclose ⊢
  obtain ⟨hfront, hitem⟩ := arePlaced_append_singleton.1 hplaced
  by_cases hinside : item.IsPlaced (front = []) False
  · have hall := arePlaced_append_singleton.2 ⟨hfront, hinside⟩
    obtain ⟨members, anchor, hbehind⟩ := behind_of_ne_nil hne
    have hmembers := mem_members_behind hall
    rw [hbehind] at hmembers
    exact ⟨members, closes_items hall hclose (hbehind ▸ closes_end members anchor), hmembers⟩
  · cases item with
    | range first last => exact absurd hitem hinside
    | single b =>
      obtain ⟨rfl, hnot⟩ := Classical.not_imp.1 hinside
      obtain ⟨members, anchor, hbehind⟩ := behind_of_ne_nil fun hnil => hnot (.inl hnil)
      have hlast : Closes (behind front) [Mark.hyphen, Mark.classClose]
          (members.insert Mark.hyphen) := by
        rw [hbehind]
        have hhyphen : Extends 0 Mark.hyphen (member members anchor) _ := .hyphen rfl
        exact .more 0 0 (hhyphen.step (by decide) 0) (.last 0 0 (Ends.hyphen.step 0 0))
      simp only [List.flatMap_append, List.mem_append, not_or] at hclose
      have hcloses := closes_items hfront hclose.1 hlast
      refine ⟨members.insert Mark.hyphen, ?_, mem_insert_hyphen_behind hfront hbehind⟩
      simpa [ClassItem.text] using hcloses

end ClassScan

end ByteRegex
