import ByteRegex.Proofs.ParseExactness

/-!
# Terms that are read

Which lists of terms come out of some pattern. Reading gives each term a shape that depends on its
place, and every list of terms in this shape is read back from a pattern that is written for it.
-/

namespace ByteRegex

open Grammar

namespace Term

/-! ## Shapes -/

def IsAlternation : Term → Prop
  | alternation _ _ => True
  | _ => False

def StandsAlone (ts : List Term) : Prop := ∀ t ∈ ts, t.IsAlternation → ts = [t]

/-- What reading makes sure of at a term: no byte with a role of its own is a literal, and in a
group a closing parenthesis is none either; alternations are the only term of a group, of a left
branch or of the pattern; and a class or a bound has a text. -/
def IsReadable (maxRepeat : Nat) : Term → Prop
  | literal b => b ∉ [Mark.bar, .groupOpen, .classOpen, .star, .plus, .question, .boundOpen].map
    Mark.byte
  | charSet c => c.members ≠ [] ∧ (Mark.classClose ∈ c → 92 ∈ c ∧ 94 ∈ c)
  | group ts => StandsAlone ts ∧ Every (· ≠ literal Mark.groupClose.byte) ts
  | alternation l r => StandsAlone l ∧ ∀ t ∈ r, ¬ t.IsAlternation
  | repetition t min max =>
    ¬ t.IsAlternation ∧ (∀ n ∈ max, min ≤ n ∧ 0 < n) ∧ max.getD min ≤ maxRepeat

theorem standsAlone_of_forall {ts : List Term} (h : ∀ t ∈ ts, ¬ t.IsAlternation) :
    StandsAlone ts := fun t ht ha => absurd ha (h t ht)

theorem standsAlone_singleton (t : Term) : StandsAlone [t] := by
  intro u hu _
  rw [List.mem_singleton.1 hu]

/-- A list in which alternations stand alone is one alternation or has none. -/
theorem StandsAlone.cases {ts : List Term} (h : StandsAlone ts) :
    (∃ t, ts = [t] ∧ t.IsAlternation) ∨ ∀ t ∈ ts, ¬ t.IsAlternation := by
  by_cases hts : ∃ t ∈ ts, t.IsAlternation
  · obtain ⟨t, ht, ha⟩ := hts
    exact .inl ⟨t, h t ht ha, ha⟩
  · exact .inr fun t ht ha => hts ⟨t, ht, ha⟩

end Term

namespace Grammar

open Term

variable {maxRepeat : Nat} {phrase : Phrase} {inGroup : Bool} {text : List UInt8} {ts : List Term}

def Phrase.Shapes (ts : List Term) : Phrase → Prop
  | scope => StandsAlone ts
  | _ => ∀ t ∈ ts, ¬ t.IsAlternation

theorem Derives.shapes (h : Derives maxRepeat phrase inGroup text ts) : phrase.Shapes ts := by
  induction h with
  | literal _ => exact List.forall_mem_singleton.2 id
  | charSet _ => exact List.forall_mem_singleton.2 id
  | group _ _ => exact List.forall_mem_singleton.2 id
  | bare _ ih => exact ih
  | quantified _ _ _ => exact List.forall_mem_singleton.2 id
  | empty => exact List.forall_mem_nil _
  | append _ _ ihs ihi => exact List.forall_mem_append.2 ⟨ihs, ihi⟩
  | single _ ih => exact standsAlone_of_forall ih
  | alternation _ _ _ _ => exact standsAlone_singleton _

/-- In a group a closing parenthesis is not a literal at any depth. -/
theorem Derives.every_ne_groupClose (h : Derives maxRepeat phrase inGroup text ts) :
    inGroup = true → Every (· ≠ Term.literal Mark.groupClose.byte) ts := by
  induction h with
  | literal hb =>
    intro hg
    exact every_literal.2 fun he => hb.2 hg (Term.literal.inj he)
  | charSet _ => exact fun _ => every_charSet.2 nofun
  | group _ ih => exact fun _ => every_group.2 ⟨nofun, ih rfl⟩
  | bare _ ih => exact ih
  | quantified _ _ ih => exact fun hg => every_repetition.2 ⟨nofun, ih hg⟩
  | empty => exact fun _ => every_nil
  | append _ _ ihs ihi => exact fun hg => every_append.2 ⟨ihs hg, ihi hg⟩
  | single _ ih => exact ih
  | alternation _ _ ihl ihr => exact fun hg => every_alternation.2 ⟨nofun, ihl hg, ihr hg⟩

theorem Derives.every_isReadable (hpos : 1 ≤ maxRepeat)
    (h : Derives maxRepeat phrase inGroup text ts) : Every (IsReadable maxRepeat) ts := by
  refine Derives.every ?hliteral ?hset ?hgroup ?halternation ?hrepetition h
  case hliteral => exact fun b hb => hb.1
  case hset => exact fun text c hc => ByteClass.exists_closes_iff.1 ⟨text, hc⟩
  case hgroup => exact fun text ts hs => ⟨hs.shapes, hs.every_ne_groupClose rfl⟩
  case halternation => exact fun inGroup left right l r hl hr => ⟨hl.shapes, hr.shapes⟩
  case hrepetition =>
    intro inGroup text quantifier t b hi hq
    exact ⟨hi.shapes t List.mem_cons_self, hq.isOrdered, hq.largest_le hpos⟩

end Grammar

/-! ## Writing -/

namespace Term

mutual

/-- A pattern for a term, with every repetition written as a bound. -/
def pattern : Term → List UInt8
  | literal b => [b]
  | charSet c => Mark.classOpen.byte :: c.text
  | group ts => Mark.groupOpen.byte :: (patternAll ts ++ [Mark.groupClose.byte])
  | alternation l r => patternAll l ++ Mark.bar.byte :: patternAll r
  | repetition t min max =>
    t.pattern ++ Mark.boundOpen.byte :: (Bound.text ⟨min, max⟩ ++ [Mark.boundClose])

def patternAll : List Term → List UInt8
  | [] => []
  | t :: ts => t.pattern ++ patternAll ts

end

def phrase : Term → Phrase
  | alternation _ _ => .scope
  | _ => .item

theorem phrase_of_isAlternation {t : Term} (h : t.IsAlternation) : t.phrase = .scope := by
  cases t with
  | alternation l r => rfl
  | _ => cases h

theorem phrase_of_not_isAlternation {t : Term} (h : ¬ t.IsAlternation) : t.phrase = .item := by
  cases t with
  | alternation l r => exact absurd trivial h
  | _ => rfl

def FitsIn (maxRepeat : Nat) (inGroup : Bool) (t : Term) : Prop :=
  t.IsReadable maxRepeat ∧ (inGroup = true → t ≠ literal Mark.groupClose.byte)

variable {maxRepeat : Nat}

theorem every_fitsIn_group {inGroup : Bool} {ts : List Term}
    (h : Every (FitsIn maxRepeat inGroup) [group ts]) :
    StandsAlone ts ∧ Every (FitsIn maxRepeat true) ts := by
  obtain ⟨hgroup, hts⟩ := every_group.1 h
  exact ⟨hgroup.1.1, fun t ht => ⟨(hts t ht).1, fun _ => hgroup.1.2 t ht⟩⟩

mutual

theorem derives_pattern : ∀ (t : Term) (inGroup : Bool), Every (FitsIn maxRepeat inGroup) [t] →
    Derives maxRepeat t.phrase inGroup t.pattern [t]
  | literal b, inGroup, h => by
    have hb := every_literal.1 h
    exact .bare (.literal ⟨hb.1, fun hg he => hb.2 hg (congrArg literal he)⟩)
  | charSet c, inGroup, h => by
    obtain ⟨hne, hc⟩ := (every_charSet.1 h).1
    exact .bare (.charSet (ByteClass.closes_text hne hc))
  | group ts, inGroup, h => by
    obtain ⟨halone, hts⟩ := every_fitsIn_group h
    exact .bare (.group (derives_patternAll ts true halone hts))
  | alternation l r, inGroup, h => by
    obtain ⟨⟨⟨halone, hnone⟩, -⟩, hl, hr⟩ := every_alternation.1 h
    exact .alternation (derives_patternAll l inGroup halone hl)
      (derives_sequence r inGroup hnone hr .empty)
  | repetition t min max, inGroup, h => by
    obtain ⟨⟨⟨hnot, hordered, hlimit⟩, -⟩, ht⟩ := every_repetition.1 h
    have hitem := derives_pattern t inGroup ht
    rw [phrase_of_not_isAlternation hnot] at hitem
    exact .quantified (b := ⟨min, max⟩) hitem (.bound (Bound.isWritten_text _) hordered hlimit)

theorem derives_patternAll : ∀ (ts : List Term) (inGroup : Bool), StandsAlone ts →
    Every (FitsIn maxRepeat inGroup) ts → Derives maxRepeat .scope inGroup (patternAll ts) ts
  | [], inGroup, _, _ => .single .empty
  | t :: ts, inGroup, halone, h => by
    obtain ⟨ht, hts⟩ := every_cons.1 h
    have hpattern := derives_pattern t inGroup ht
    rcases halone.cases with ⟨u, heq, ha⟩ | hnone
    · obtain ⟨rfl, rfl⟩ := List.cons.inj heq
      rw [phrase_of_isAlternation ha] at hpattern
      simpa [patternAll] using hpattern
    · obtain ⟨hnot, hrest⟩ := List.forall_mem_cons.1 hnone
      rw [phrase_of_not_isAlternation hnot] at hpattern
      exact .single (derives_sequence ts inGroup hrest hts (.append .empty hpattern))

/-- The sequence grows at its end, so the terms before the list are carried along. -/
theorem derives_sequence : ∀ (ts : List Term) (inGroup : Bool), (∀ t ∈ ts, ¬ t.IsAlternation) →
    Every (FitsIn maxRepeat inGroup) ts → ∀ {front : List UInt8} {us : List Term},
    Derives maxRepeat .sequence inGroup front us →
    Derives maxRepeat .sequence inGroup (front ++ patternAll ts) (us ++ ts)
  | [], inGroup, _, _, front, us, hfront => by
    rw [patternAll, List.append_nil, List.append_nil]
    exact hfront
  | t :: ts, inGroup, hnone, h, front, us, hfront => by
    obtain ⟨ht, hts⟩ := every_cons.1 h
    obtain ⟨hnot, hrest⟩ := List.forall_mem_cons.1 hnone
    have hpattern := derives_pattern t inGroup ht
    rw [phrase_of_not_isAlternation hnot] at hpattern
    rw [patternAll, ← List.append_assoc, List.append_cons]
    exact derives_sequence ts inGroup hrest hts (.append hfront hpattern)

end

end Term

/-! ## Reading and writing -/

/-- Readable terms are read back from the pattern that is written for them. -/
theorem parse_patternAll {limits : Limits} {ts : List Term}
    (h : Term.Every (Term.IsReadable limits.maxRepeat.toNat) ts) (halone : Term.StandsAlone ts)
    (ha : limits.Allows (Term.heightAll ts)) : parse limits (Term.patternAll ts) = .ok ts := by
  have hfits : Term.Every (Term.FitsIn limits.maxRepeat.toNat false) ts :=
    h.imp fun _ ht => ⟨ht, nofun⟩
  exact parse_of_parses (Term.derives_patternAll ts false halone hfits) ha

theorem readable_of_parse {limits : Limits} {pattern : List UInt8} {ts : List Term}
    (h : parse limits pattern = .ok ts) :
    Term.Every (Term.IsReadable (max 1 limits.maxRepeat.toNat)) ts ∧ Term.StandsAlone ts ∧
      limits.Allows (Term.heightAll ts) := by
  have hderives := parses_of_parse h
  refine ⟨?_, hderives.shapes, allows_of_parse h⟩
  exact (hderives.mono (Nat.le_max_right 1 _)).every_isReadable (Nat.le_max_left 1 _)

/-- Which lists of terms are read from some pattern under the default limits. Under all limits
what is read has this shape, with counts and a height within the limits. -/
theorem exists_parse_eq_ok_iff (ts : List Term) :
    ((∃ pattern, parse {} pattern = .ok ts) ↔
      Term.Every (Term.IsReadable 1000) ts ∧ Term.StandsAlone ts ∧ Term.heightAll ts ≤ 250) ∧
    ∀ limits pattern, parse limits pattern = .ok ts →
      Term.Every (Term.IsReadable (max 1 limits.maxRepeat.toNat)) ts ∧ Term.StandsAlone ts ∧
        limits.Allows (Term.heightAll ts) := by
  have hheight : Limits.Allows {} (Term.heightAll ts) ↔ Term.heightAll ts ≤ 250 := by
    have hlimit : ({} : Limits).nestLimit.toNat = 250 := rfl
    rw [Limits.Allows, hlimit, Limits.wordMax]
    omega
  refine ⟨⟨?_, ?_⟩, fun limits pattern => readable_of_parse⟩
  · rintro ⟨pattern, h⟩
    obtain ⟨hreadable, halone, ha⟩ := readable_of_parse h
    exact ⟨hreadable, halone, hheight.1 ha⟩
  · rintro ⟨hreadable, halone, hle⟩
    exact ⟨Term.patternAll ts, parse_patternAll hreadable halone (hheight.2 hle)⟩

end ByteRegex
