import ByteRegex.Proofs.BoundTexts
import ByteRegex.Proofs.ClassTexts
import ByteRegex.Proofs.TermNodes

/-!
# Grammar of patterns

Which terms a pattern stands for, independently of how it is read:

    scope      ::= sequence ('|' sequence)*
    sequence   ::= item*
    item       ::= atom quantifier*
    atom       ::= literal | class | '(' scope ')'
    quantifier ::= '*' | '+' | '?' | bound

Alternations lean to the left, and a quantifier repeats all that stands before it in its item. A
class is a text that closes a scan, and stands for the bytes that the scan has collected.
-/

namespace ByteRegex

namespace Grammar

/-- A literal has no role of its own where it stands: closing a group has one inside groups. -/
def IsLiteral (inGroup : Bool) (b : UInt8) : Prop :=
  b ∉ [Mark.bar, .groupOpen, .classOpen, .star, .plus, .question, .boundOpen].map Mark.byte ∧
    (inGroup = true → b ≠ Mark.groupClose.byte)

inductive Repeats : Mark → Bound → Prop where
  | star : Repeats .star ⟨0, none⟩
  | plus : Repeats .plus ⟨1, none⟩
  | question : Repeats .question ⟨0, some 1⟩

inductive Quantifies (maxRepeat : Nat) : List UInt8 → Bound → Prop where
  | mark {m : Mark} {b : Bound} : Repeats m b → Quantifies maxRepeat [m.byte] b
  | bound {text : List UInt8} {b : Bound} : Bound.IsWritten text b →
    (∀ n ∈ b.max, b.min ≤ n ∧ 0 < n) → b.max.getD b.min ≤ maxRepeat →
    Quantifies maxRepeat (Mark.boundOpen.byte :: (text ++ [Mark.boundClose])) b

inductive Phrase where
  | atom
  | item
  | sequence
  | scope

/-- The terms of a phrase. An atom or an item has exactly one. -/
inductive Derives (maxRepeat : Nat) :
    Phrase → (inGroup : Bool) → List UInt8 → List Term → Prop where
  | literal {inGroup : Bool} {b : UInt8} : IsLiteral inGroup b →
    Derives maxRepeat .atom inGroup [b] [.literal b]
  | charSet {inGroup : Bool} {text : List UInt8} {c : ByteClass} :
    ClassScan.Closes .start text c →
    Derives maxRepeat .atom inGroup (Mark.classOpen.byte :: text) [.charSet c]
  | group {inGroup : Bool} {text : List UInt8} {ts : List Term} :
    Derives maxRepeat .scope true text ts →
    Derives maxRepeat .atom inGroup
      (Mark.groupOpen.byte :: (text ++ [Mark.groupClose.byte])) [.group ts]
  | bare {inGroup : Bool} {text : List UInt8} {t : Term} :
    Derives maxRepeat .atom inGroup text [t] → Derives maxRepeat .item inGroup text [t]
  | quantified {inGroup : Bool} {text quantifier : List UInt8} {t : Term} {b : Bound} :
    Derives maxRepeat .item inGroup text [t] → Quantifies maxRepeat quantifier b →
    Derives maxRepeat .item inGroup (text ++ quantifier) [.repetition t b.min b.max]
  | empty {inGroup : Bool} : Derives maxRepeat .sequence inGroup [] []
  | append {inGroup : Bool} {text item : List UInt8} {ts : List Term} {t : Term} :
    Derives maxRepeat .sequence inGroup text ts → Derives maxRepeat .item inGroup item [t] →
    Derives maxRepeat .sequence inGroup (text ++ item) (ts ++ [t])
  | single {inGroup : Bool} {text : List UInt8} {ts : List Term} :
    Derives maxRepeat .sequence inGroup text ts → Derives maxRepeat .scope inGroup text ts
  | alternation {inGroup : Bool} {left right : List UInt8} {l r : List Term} :
    Derives maxRepeat .scope inGroup left l → Derives maxRepeat .sequence inGroup right r →
    Derives maxRepeat .scope inGroup (left ++ Mark.bar.byte :: right) [.alternation l r]

def Parses (maxRepeat : Nat) (pattern : List UInt8) (ts : List Term) : Prop :=
  Derives maxRepeat .scope false pattern ts

variable {maxRepeat : Nat}

/-! ## Conditions on derived terms -/

theorem Repeats.isOrdered {m : Mark} {b : Bound} (h : Repeats m b) : b.IsOrdered := by
  cases h <;> decide

theorem Repeats.largest_le_one {m : Mark} {b : Bound} (h : Repeats m b) : b.largest ≤ 1 := by
  cases h <;> decide

theorem Quantifies.isOrdered {text : List UInt8} {b : Bound} (h : Quantifies maxRepeat text b) :
    b.IsOrdered := by
  cases h with
  | mark hr => exact hr.isOrdered
  | bound hw ho hl => exact ho

/-- A condition holds of all derived terms if it holds of each term whose parts are derived. -/
theorem Derives.every {P : Term → Prop} (hliteral : ∀ b, IsLiteral false b → P (.literal b))
    (hset : ∀ text c, ClassScan.Closes .start text c → P (.charSet c))
    (hgroup : ∀ text ts, Derives maxRepeat .scope true text ts → P (.group ts))
    (halternation : ∀ inGroup left right l r, Derives maxRepeat .scope inGroup left l →
      Derives maxRepeat .sequence inGroup right r → P (.alternation l r))
    (hrepetition : ∀ inGroup text quantifier t b, Derives maxRepeat .item inGroup text [t] →
      Quantifies maxRepeat quantifier b → P (.repetition t b.min b.max))
    {phrase : Phrase} {inGroup : Bool} {text : List UInt8} {ts : List Term}
    (h : Derives maxRepeat phrase inGroup text ts) : Term.Every P ts := by
  induction h with
  | literal hb => exact Term.every_literal.2 (hliteral _ ⟨hb.1, nofun⟩)
  | charSet hc => exact Term.every_charSet.2 (hset _ _ hc)
  | group hs ih => exact Term.every_group.2 ⟨hgroup _ _ hs, ih⟩
  | bare _ ih => exact ih
  | quantified hi hq ih => exact Term.every_repetition.2 ⟨hrepetition _ _ _ _ _ hi hq, ih⟩
  | empty => exact Term.every_nil
  | append _ _ ihs ihi => exact Term.every_append.2 ⟨ihs, ihi⟩
  | single _ ih => exact ih
  | alternation hl hr ihl ihr =>
    exact Term.every_alternation.2 ⟨halternation _ _ _ _ _ hl hr, ihl, ihr⟩

theorem Derives.every_isSound {phrase : Phrase} {inGroup : Bool} {text : List UInt8}
    {ts : List Term} (h : Derives maxRepeat phrase inGroup text ts) :
    Term.Every Term.IsSound ts :=
  h.every (fun _ _ => trivial) (fun _ _ hc => hc.members_ne_nil) (fun _ _ _ => trivial)
    (fun _ _ _ _ _ _ _ => trivial) (fun _ _ _ _ _ _ hq => hq.isOrdered)

/-! ## The limit on counts -/

theorem Quantifies.mono {limit : Nat} (hle : maxRepeat ≤ limit) {text : List UInt8} {b : Bound}
    (h : Quantifies maxRepeat text b) : Quantifies limit text b := by
  cases h with
  | mark hr => exact .mark hr
  | bound hw ho hl => exact .bound hw ho (Nat.le_trans hl hle)

/-- A quantifier of a single byte repeats up to one time, so it is within any positive limit. -/
theorem Quantifies.largest_le (hpos : 1 ≤ maxRepeat) {text : List UInt8} {b : Bound}
    (h : Quantifies maxRepeat text b) : b.largest ≤ maxRepeat := by
  cases h with
  | mark hr => exact Nat.le_trans hr.largest_le_one hpos
  | bound hw ho hl => exact hl

theorem Quantifies.restrict {limit : Nat} {text : List UInt8} {b : Bound}
    (h : Quantifies limit text b) (hb : b.largest ≤ maxRepeat) : Quantifies maxRepeat text b := by
  cases h with
  | mark hr => exact .mark hr
  | bound hw ho hl => exact .bound hw ho hb

theorem Derives.mono {limit : Nat} (hle : maxRepeat ≤ limit) {phrase : Phrase} {inGroup : Bool}
    {text : List UInt8} {ts : List Term} (h : Derives maxRepeat phrase inGroup text ts) :
    Derives limit phrase inGroup text ts := by
  induction h with
  | literal hb => exact .literal hb
  | charSet hc => exact .charSet hc
  | group _ ih => exact .group ih
  | bare _ ih => exact .bare ih
  | quantified _ hq ih => exact .quantified ih (hq.mono hle)
  | empty => exact .empty
  | append _ _ ihs ihi => exact .append ihs ihi
  | single _ ih => exact .single ih
  | alternation _ _ ihl ihr => exact .alternation ihl ihr

theorem Derives.every_repeatsWithin (hpos : 1 ≤ maxRepeat) {phrase : Phrase} {inGroup : Bool}
    {text : List UInt8} {ts : List Term} (h : Derives maxRepeat phrase inGroup text ts) :
    Term.Every (Term.RepeatsWithin maxRepeat) ts :=
  h.every (fun _ _ => trivial) (fun _ _ _ => trivial) (fun _ _ _ => trivial)
    (fun _ _ _ _ _ _ _ => trivial) (fun _ _ _ _ _ _ hq => hq.largest_le hpos)

theorem Derives.restrict {limit : Nat} {phrase : Phrase} {inGroup : Bool} {text : List UInt8}
    {ts : List Term} (h : Derives limit phrase inGroup text ts)
    (hw : Term.Every (Term.RepeatsWithin maxRepeat) ts) :
    Derives maxRepeat phrase inGroup text ts := by
  induction h with
  | literal hb => exact .literal hb
  | charSet hc => exact .charSet hc
  | group _ ih => exact .group (ih (Term.every_group.1 hw).2)
  | bare _ ih => exact .bare (ih hw)
  | quantified _ hq ih =>
    obtain ⟨hb, ht⟩ := Term.every_repetition.1 hw
    exact .quantified (ih ht) (hq.restrict hb)
  | empty => exact .empty
  | append _ _ ihs ihi =>
    obtain ⟨hts, ht⟩ := Term.every_append.1 hw
    exact .append (ihs hts) (ihi ht)
  | single _ ih => exact .single (ih hw)
  | alternation _ _ ihl ihr =>
    obtain ⟨-, hl, hr⟩ := Term.every_alternation.1 hw
    exact .alternation (ihl hl) (ihr hr)

/-- A limit on counts only selects among the derivations that a larger limit allows. -/
theorem derives_iff_within {limit : Nat} (hpos : 1 ≤ maxRepeat) (hle : maxRepeat ≤ limit)
    {phrase : Phrase} {inGroup : Bool} {text : List UInt8} {ts : List Term} :
    Derives maxRepeat phrase inGroup text ts ↔
      Derives limit phrase inGroup text ts ∧ Term.Every (Term.RepeatsWithin maxRepeat) ts :=
  ⟨fun h => ⟨h.mono hle, h.every_repeatsWithin hpos⟩, fun h => h.1.restrict h.2⟩

end Grammar

end ByteRegex
