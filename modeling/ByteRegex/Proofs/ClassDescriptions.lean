import ByteRegex.Pattern.Mark
import ByteRegex.Proofs.ClassRuns
import ByteRegex.Proofs.EscapedTexts

/-!
# Descriptions of classes

The description of a class shows the ends of its runs, with a hyphen inside each run of more than
one byte. Every byte is escaped so that it can be read back, so a description determines this row of
letters, and only a hyphen in it is ambiguous: it joins the ends of a run or is a member by itself.
In a class without the hyphen it always joins. No other class imitates that one, since the letters
around a member are below and above it, so that a run between them would contain it.
-/

namespace ByteRegex

namespace Escaped

theorem toList_bytes_cons (b : UInt8) (bs : List UInt8) :
    (bytes (b :: bs)).toList = (byte b).toList ++ (bytes bs).toList := by
  rw [toList_bytes, List.flatMap_cons, ← toList_bytes]

theorem toList_bytes_cons_ne_nil (b : UInt8) (bs : List UInt8) :
    (bytes (b :: bs)).toList ≠ [] := by
  rw [toList_bytes_cons]
  exact List.append_ne_nil_of_left_ne_nil (toList_byte_ne_nil b) _

/-- Escaped bytes are read back one after the other. -/
theorem toList_bytes_inj {xs ys : List UInt8} (h : (bytes xs).toList = (bytes ys).toList) :
    xs = ys := by
  induction xs generalizing ys with
  | nil =>
    cases ys with
    | nil => rfl
    | cons y ys => exact absurd h.symm (toList_bytes_cons_ne_nil y ys)
  | cons x xs ih =>
    cases ys with
    | nil => exact absurd h (toList_bytes_cons_ne_nil x xs)
    | cons y ys =>
      rw [toList_bytes_cons, toList_bytes_cons] at h
      have hread := read_byte_append x (bytes xs).toList
      rw [h, read_byte_append] at hread
      obtain ⟨rfl, hrest⟩ := Prod.mk.inj (Option.some.inj hread)
      rw [ih hrest.symm]

end Escaped

namespace ByteClass

/-! ## Letters -/

def Run.letters (r : Run) : List UInt8 :=
  if r.first = r.last then [r.first] else [r.first, Mark.hyphen, r.last]

variable {r s : Run} {rs ss : List Run} {c d : ByteClass}

theorem Run.letters_cases (r : Run) :
    (r.last = r.first ∧ r.letters = [r.first]) ∨ r.letters = [r.first, Mark.hyphen, r.last] := by
  unfold letters
  split
  · next h => exact .inl ⟨h.symm, rfl⟩
  · exact .inr rfl

theorem Run.toList_describe (r : Run) : r.describe.toList = (Escaped.bytes r.letters).toList := by
  have hhyphen : (Escaped.byte Mark.hyphen).toList = "-".toList := rfl
  unfold describe letters
  split
  · simp [Escaped.toList_bytes_cons]
  · simp [Escaped.toList_bytes_cons, hhyphen]

theorem toList_describe (c : ByteClass) : c.describe.toList =
    "[".toList ++ (Escaped.bytes (c.runs.flatMap Run.letters)).toList ++ "]".toList := by
  have hruns : (String.join (c.runs.map Run.describe)).toList =
      (Escaped.bytes (c.runs.flatMap Run.letters)).toList := by
    simp only [Escaped.toList_bytes, String.toList_join, List.flatMap_map, List.flatMap_assoc,
      Run.toList_describe]
  rw [describe, String.toList_append, String.toList_append, hruns]

/-- A description determines the letters that it is made of. -/
theorem letters_eq_of_describe_eq (h : c.describe = d.describe) :
    c.runs.flatMap Run.letters = d.runs.flatMap Run.letters := by
  have htext := congrArg String.toList h
  rw [toList_describe, toList_describe] at htext
  exact Escaped.toList_bytes_inj (List.append_cancel_left (List.append_cancel_right htext))

/-! ## Runs from letters -/

theorem flatMap_letters_cons (r : Run) (rs : List Run) :
    (r.last = r.first ∧ (r :: rs).flatMap Run.letters = r.first :: rs.flatMap Run.letters) ∨
      (r :: rs).flatMap Run.letters =
        r.first :: Mark.hyphen :: r.last :: rs.flatMap Run.letters := by
  rw [List.flatMap_cons]
  rcases r.letters_cases with ⟨hlast, h⟩ | h
  · exact .inl ⟨hlast, by rw [h]; rfl⟩
  · exact .inr (by rw [h]; rfl)

theorem flatMap_letters_ne_nil (r : Run) (rs : List Run) : (r :: rs).flatMap Run.letters ≠ [] := by
  rcases flatMap_letters_cons r rs with ⟨-, h⟩ | h
  · exact h ▸ List.cons_ne_nil _ _
  · exact h ▸ List.cons_ne_nil _ _

theorem exists_first_eq {b : UInt8} {letters : List UInt8}
    (h : rs.flatMap Run.letters = b :: letters) : ∃ r rest, rs = r :: rest ∧ r.first = b := by
  cases rs with
  | nil => cases h
  | cons r rest =>
    refine ⟨r, rest, rfl, ?_⟩
    rcases flatMap_letters_cons r rest with ⟨-, hr⟩ | hr
    · exact (List.cons.inj (hr.symm.trans h)).1
    · exact (List.cons.inj (hr.symm.trans h)).1

/-- A hyphen that begins a run stands between letters below and above it. -/
theorem Separated.around_hyphen {b : UInt8} {letters : List UInt8} (h : Separated (s :: ss))
    (hss : ss.flatMap Run.letters = Mark.hyphen :: b :: letters) :
    s.first ≤ Mark.hyphen ∧ Mark.hyphen ≤ b := by
  obtain ⟨t, ts, rfl, ht⟩ := exists_first_eq hss
  have hbelow := h.gap h.tail.covers_first
  have hs := h.head_ordered
  have hfirst : s.first ≤ Mark.hyphen := by
    rw [← ht, UInt8.le_iff_toNat_le]
    omega
  refine ⟨hfirst, ?_⟩
  rcases flatMap_letters_cons t ts with ⟨hlast, hletters⟩ | hletters
  · rw [hletters] at hss
    obtain ⟨u, us, rfl, rfl⟩ := exists_first_eq (List.cons.inj hss).2
    have habove := h.tail.gap h.tail.tail.covers_first
    rw [← ht, ← hlast, UInt8.le_iff_toNat_le]
    omega
  · rw [hletters] at hss
    obtain ⟨-, hrest⟩ := List.cons.inj hss
    rw [(List.cons.inj hrest).1]
    exact UInt8.le_refl _

/-- Runs that do not cover the hyphen are told from all others by their letters. -/
theorem Separated.eq_of_letters_eq (hr : Separated rs) (hs : Separated ss)
    (hhyphen : ¬ Covers rs Mark.hyphen)
    (h : rs.flatMap Run.letters = ss.flatMap Run.letters) : rs = ss := by
  induction rs generalizing ss with
  | nil =>
    cases ss with
    | nil => rfl
    | cons s ss => exact absurd h.symm (flatMap_letters_ne_nil s ss)
  | cons r rs ih =>
    cases ss with
    | nil => exact absurd h (flatMap_letters_ne_nil r rs)
    | cons s ss =>
      have hnot : Mark.hyphen ∉ r ∧ ¬ Covers rs Mark.hyphen := by
        rwa [covers_cons, not_or] at hhyphen
      rcases flatMap_letters_cons r rs with ⟨hrlast, hrs⟩ | hrs <;>
        rcases flatMap_letters_cons s ss with ⟨hslast, hss⟩ | hss <;> rw [hrs, hss] at h
      case inl.inl =>
        obtain ⟨hfirst, hrest⟩ := List.cons.inj h
        have hlast : r.last = s.last := hrlast.trans (hfirst.trans hslast.symm)
        rw [Run.ext hfirst hlast, ih hr.tail hs.tail hnot.2 hrest]
      case inl.inr =>
        -- Behind the only byte of a run a hyphen would begin the next one.
        obtain ⟨t, ts, rfl, ht⟩ := exists_first_eq (List.cons.inj h).2
        exact absurd (ht ▸ hr.tail.covers_first) hnot.2
      case inr.inl =>
        obtain ⟨hfirst, hrest⟩ := List.cons.inj h
        obtain ⟨hbelow, habove⟩ := hs.around_hyphen hrest.symm
        exact absurd ⟨hfirst ▸ hbelow, habove⟩ hnot.1
      case inr.inr =>
        obtain ⟨hfirst, hrest⟩ := List.cons.inj h
        obtain ⟨hlast, hrest⟩ := List.cons.inj (List.cons.inj hrest).2
        rw [Run.ext hfirst hlast, ih hr.tail hs.tail hnot.2 hrest]

/-! ## Classes -/

/-- A class without the hyphen has a description of its own: every class that is described in the
same way has the same members, whether it may contain a hyphen or not. -/
theorem eq_of_describe_eq (hc : Mark.hyphen ∉ c) (h : c.describe = d.describe) : c = d := by
  have hruns : c.runs = d.runs := by
    refine (isDecomposition_runs c).eq_of_letters_eq (isDecomposition_runs d).toSeparated ?_
      (letters_eq_of_describe_eq h)
    rwa [← (isDecomposition_runs c).covers]
  rw [← insertRuns_runs c, hruns, insertRuns_runs]

/-- The class has the backslash, a run of three letters and a byte that is not printable. -/
theorem eq_of_describe_eq_of_escapes :
    let c := ofList [255, 98, 92, 97, 99]
    let d := ((∅ : ByteClass).insert 92).insertRange 97 99 |>.insert 255
    Mark.hyphen ∉ c ∧ c.describe = "[\\\\a-c\\xff]" ∧ d.describe = "[\\\\a-c\\xff]" ∧ c = d := by
  intro c d
  have hhyphen : Mark.hyphen ∉ c := by decide
  have hinterval : interval 97 99 = [97, 98, 99] := by decide
  have hc : c = ofList [92, 97, 98, 99, 255] := by
    refine ext_mem fun b => ?_
    rw [mem_ofList, mem_ofList]
    exact List.Perm.mem_iff (by decide)
  have hd : d = ofList [92, 97, 98, 99, 255] := by
    refine ext_mem fun b => ?_
    simp only [d, insertRange, hinterval, mem_insert, mem_insertMany, mem_ofList, List.mem_cons,
      List.not_mem_nil, not_mem_empty]
    tauto
  have hdescribe : (ofList [92, 97, 98, 99, 255]).describe = "[\\\\a-c\\xff]" := by
    rw [describe, runs, members_ofList (by decide)]
    decide
  have hc' : c.describe = "[\\\\a-c\\xff]" := by rw [hc, hdescribe]
  have hd' : d.describe = "[\\\\a-c\\xff]" := by rw [hd, hdescribe]
  exact ⟨hhyphen, hc', hd', eq_of_describe_eq hhyphen (hc'.trans hd'.symm)⟩

/-- The hyphen as a member may look like one between the ends of a run. -/
example : (ofList [43, 45, 47]).describe = (ofList [43, 44, 45, 46, 47]).describe ∧
    ofList [43, 45, 47] ≠ ofList [43, 44, 45, 46, 47] := by
  constructor
  · rw [describe, describe, runs, runs, members_ofList (by decide), members_ofList (by decide)]
    decide
  · intro h
    have hcomma : (44 : UInt8) ∉ ofList [43, 45, 47] := by decide
    rw [h] at hcomma
    exact hcomma (by decide)

end ByteClass

end ByteRegex
