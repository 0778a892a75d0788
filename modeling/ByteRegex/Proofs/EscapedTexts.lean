import ByteRegex.Nfa.Basic

/-!
# Reading escaped bytes

A byte is written in printable ASCII, and its text says by itself where it ends: whatever follows
it, the byte and what follows are read back. The same holds of the labels of transitions, since
the mark of an empty move is not a character of ASCII.
-/

namespace ByteRegex

namespace Escaped

/-! ## Forms of a byte -/

/-- The bytes with a form of two characters, and the second of the two. -/
def pairs : List (UInt8 × Char) :=
  [(9, 't'), (10, 'n'), (13, 'r'), (34, '"'), (39, '\x27'), (92, '\\')]

theorem byte_cases (b : UInt8) :
    (∃ c, (b, c) ∈ pairs ∧ (byte b).toList = ['\\', c]) ∨
    (IsPrintable b ∧ b ∉ pairs.map Prod.fst ∧ (byte b).toList = [Char.ofNat b.toNat]) ∨
    byte b = hex b := by
  by_cases hpair : b ∈ pairs.map Prod.fst
  · left
    simp only [pairs, List.map_cons, List.map_nil, List.mem_cons, List.not_mem_nil, or_false]
      at hpair
    rcases hpair with rfl | rfl | rfl | rfl | rfl | rfl
    all_goals exact ⟨_, by decide, rfl⟩
  · right
    have hne := hpair
    simp only [pairs, List.map_cons, List.map_nil, List.mem_cons, List.not_mem_nil, or_false,
      not_or] at hne
    obtain ⟨h9, h10, h13, h34, h39, h92⟩ := hne
    rw [byte, if_neg h9, if_neg h10, if_neg h13, if_neg h34, if_neg h39, if_neg h92]
    by_cases hprint : IsPrintable b
    · rw [if_pos hprint]
      exact .inl ⟨hprint, hpair, String.toList_singleton _⟩
    · rw [if_neg hprint]
      exact .inr rfl

theorem toList_hex (b : UInt8) : (hex b).toList =
    ['\\', 'x', Nat.digitChar (b.toNat / 16), Nat.digitChar (b.toNat % 16)] :=
  String.toList_ofList

theorem toNat_ofNat_toNat (b : UInt8) : (Char.ofNat b.toNat).toNat = b.toNat := by
  have hvalid : b.toNat.isValidChar := .inl (Nat.lt_trans b.toNat_lt (by decide))
  rw [Char.ofNat, dif_pos hvalid]
  rfl

theorem ofNat_ne_of_notMem_pairs {b : UInt8} (h : b ∉ pairs.map Prod.fst) :
    Char.ofNat b.toNat ≠ '"' ∧ Char.ofNat b.toNat ≠ '\\' := by
  have hne : ∀ c, UInt8.ofNat (Char.toNat c) ∈ pairs.map Prod.fst → Char.ofNat b.toNat ≠ c := by
    intro c hc heq
    rw [← heq, toNat_ofNat_toNat, UInt8.ofNat_toNat] at hc
    exact h hc
  exact ⟨hne _ (by decide), hne _ (by decide)⟩

/-! ## Characters -/

theorem toNat_digitChar : ∀ n < 16,
    32 ≤ (Nat.digitChar n).toNat ∧ (Nat.digitChar n).toNat ≤ 126 := by decide

theorem toNat_mem_pairs : ∀ e ∈ pairs, 32 ≤ e.2.toNat ∧ e.2.toNat ≤ 126 := by decide

/-- Every character of the text of a byte is printable. -/
theorem toNat_mem_byte {b : UInt8} {c : Char} (h : c ∈ (byte b).toList) :
    32 ≤ c.toNat ∧ c.toNat ≤ 126 := by
  rcases byte_cases b with ⟨d, hd, hb⟩ | ⟨hprint, -, hb⟩ | hb
  · rw [hb] at h
    simp only [List.mem_cons, List.not_mem_nil, or_false] at h
    rcases h with rfl | rfl
    · decide
    · exact toNat_mem_pairs _ hd
  · rw [hb, List.mem_singleton] at h
    rw [h, toNat_ofNat_toNat]
    exact ⟨UInt8.le_iff_toNat_le.1 hprint.1, UInt8.le_iff_toNat_le.1 hprint.2⟩
  · have hlt : b.toNat < 256 := b.toNat_lt
    rw [hb, toList_hex] at h
    simp only [List.mem_cons, List.not_mem_nil, or_false] at h
    rcases h with rfl | rfl | rfl | rfl
    · decide
    · decide
    · exact toNat_digitChar _ (by omega)
    · exact toNat_digitChar _ (by omega)

/-! ## Reading -/

def digitValue (c : Char) : Nat := if c.isDigit then c.toNat - 48 else c.toNat - 87

theorem digitValue_digitChar : ∀ n < 16, digitValue (Nat.digitChar n) = n := by decide

/-- The byte whose text follows a backslash, and the text behind it. -/
def readEscape : List Char → Option (UInt8 × List Char)
  | 't' :: cs => some (9, cs)
  | 'n' :: cs => some (10, cs)
  | 'r' :: cs => some (13, cs)
  | 'x' :: high :: low :: cs => some (UInt8.ofNat (16 * digitValue high + digitValue low), cs)
  | c :: cs => some (UInt8.ofNat c.toNat, cs)
  | [] => none

def read : List Char → Option (UInt8 × List Char)
  | '\\' :: cs => readEscape cs
  | c :: cs => some (UInt8.ofNat c.toNat, cs)
  | [] => none

theorem readEscape_of_mem_pairs {b : UInt8} {c : Char} (h : (b, c) ∈ pairs) (cs : List Char) :
    readEscape (c :: cs) = some (b, cs) := by
  simp only [pairs, List.mem_cons, Prod.mk.injEq, List.not_mem_nil, or_false] at h
  rcases h with ⟨rfl, rfl⟩ | ⟨rfl, rfl⟩ | ⟨rfl, rfl⟩ | ⟨rfl, rfl⟩ | ⟨rfl, rfl⟩ | ⟨rfl, rfl⟩
  all_goals rfl

theorem read_of_ne {c : Char} (h : c ≠ '\\') (cs : List Char) :
    read (c :: cs) = some (UInt8.ofNat c.toNat, cs) := by
  rw [read]
  exact h

/-- The text of a byte is read back as that byte, whatever follows it. -/
theorem read_byte_append (b : UInt8) (cs : List Char) :
    read ((byte b).toList ++ cs) = some (b, cs) := by
  rcases byte_cases b with ⟨c, hc, hb⟩ | ⟨-, hne, hb⟩ | hb
  · rw [hb]
    exact readEscape_of_mem_pairs hc cs
  · rw [hb, List.singleton_append, read_of_ne (ofNat_ne_of_notMem_pairs hne).2, toNat_ofNat_toNat,
      UInt8.ofNat_toNat]
  · have hlt : b.toNat < 256 := b.toNat_lt
    have hhigh := digitValue_digitChar (b.toNat / 16) (by omega)
    have hlow := digitValue_digitChar (b.toNat % 16) (by omega)
    rw [hb, toList_hex]
    change some (UInt8.ofNat _, cs) = some (b, cs)
    rw [hhigh, hlow, Nat.div_add_mod, UInt8.ofNat_toNat]

theorem toList_byte_ne_nil (b : UInt8) : (byte b).toList ≠ [] := by
  intro h
  have hread := read_byte_append b []
  rw [h] at hread
  cases hread

/-! ## Quoted texts -/

def quoted : List Char → Option (List Char × List Char)
  | '"' :: cs => some ([], cs)
  | '\\' :: c :: cs => (quoted cs).map fun e => ('\\' :: c :: e.1, e.2)
  | c :: cs => (quoted cs).map fun e => (c :: e.1, e.2)
  | [] => none

theorem quoted_of_ne {c : Char} (hquote : c ≠ '"') (hback : c ≠ '\\') (cs : List Char) :
    quoted (c :: cs) = (quoted cs).map fun e => (c :: e.1, e.2) := by
  rw [quoted]
  · exact hquote
  · exact fun d ds heq _ => hback heq

theorem digitChar_ne : ∀ n < 16, Nat.digitChar n ≠ '"' ∧ Nat.digitChar n ≠ '\\' := by decide

/-- A byte between quotes does not end the quotation. -/
theorem quoted_byte_append (b : UInt8) (cs : List Char) :
    quoted ((byte b).toList ++ '"' :: cs) = some ((byte b).toList, cs) := by
  rcases byte_cases b with ⟨c, hc, hb⟩ | ⟨-, hne, hb⟩ | hb
  · rw [hb]
    rfl
  · obtain ⟨hquote, hback⟩ := ofNat_ne_of_notMem_pairs hne
    rw [hb, List.singleton_append, quoted_of_ne hquote hback]
    rfl
  · have hlt : b.toNat < 256 := b.toNat_lt
    obtain ⟨hquote, hback⟩ := digitChar_ne (b.toNat / 16) (by omega)
    obtain ⟨hquote', hback'⟩ := digitChar_ne (b.toNat % 16) (by omega)
    rw [hb, toList_hex]
    change (quoted (_ :: _ :: '"' :: cs)).map _ = _
    rw [quoted_of_ne hquote hback, quoted_of_ne hquote' hback']
    rfl

end Escaped

/-! ## Labels -/

namespace Symbol

def read : List Char → Option (Symbol × List Char)
  | 'ε' :: cs => some (epsilon, cs)
  | cs => (Escaped.read cs).map fun e => (byte e.1, e.2)

theorem read_of_ne {c : Char} (h : c ≠ 'ε') (cs : List Char) :
    read (c :: cs) = (Escaped.read (c :: cs)).map fun e => (byte e.1, e.2) := by
  rw [read]
  intro cs' heq
  exact h (List.cons.inj heq).1

theorem read_label_append (s : Symbol) (cs : List Char) :
    read (s.label.toList ++ cs) = some (s, cs) := by
  cases s with
  | epsilon => rfl
  | byte b =>
    change read ((Escaped.byte b).toList ++ cs) = some (byte b, cs)
    obtain ⟨c, tail, htext⟩ := List.exists_cons_of_ne_nil (Escaped.toList_byte_ne_nil b)
    have hc : c ≠ 'ε' := by
      intro heq
      have hprint := (Escaped.toNat_mem_byte (b := b) (c := c) (by simp [htext])).2
      rw [heq] at hprint
      exact absurd hprint (by decide)
    have hread := Escaped.read_byte_append b cs
    rw [htext, List.cons_append] at hread ⊢
    rw [read_of_ne hc, hread]
    rfl

/-- No label is the beginning of another one. -/
theorem label_append_inj {s t : Symbol} {x y : List Char}
    (h : s.label.toList ++ x = t.label.toList ++ y) : s = t ∧ x = y := by
  have hs := read_label_append s x
  rw [h, read_label_append] at hs
  cases hs
  exact ⟨rfl, rfl⟩

theorem newline_notMem_label (s : Symbol) : '\n' ∉ s.label.toList := by
  intro h
  cases s with
  | epsilon => exact absurd h (by decide)
  | byte b => exact absurd (Escaped.toNat_mem_byte h).1 (by decide)

theorem quoted_label_append (s : Symbol) (cs : List Char) :
    Escaped.quoted (s.label.toList ++ '"' :: cs) = some (s.label.toList, cs) := by
  cases s with
  | epsilon => rfl
  | byte b => exact Escaped.quoted_byte_append b cs

end Symbol

end ByteRegex
