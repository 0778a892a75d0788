import ByteRegex.Proofs.ReaderSteps

/-!
# What a reader has read

The bytes read so far determine a partial derivation, which the reader keeps in its scope, its open
groups and its mode. Every byte extends it, so the terms of a pattern that is read to its end are
derived from it.
-/

namespace ByteRegex

open Grammar

theorem Piece.terms_cons (p : Piece) (ps : List Piece) :
    Piece.terms (p :: ps) = Piece.terms ps ++ [p.term] := by
  simp [Piece.terms]

/-- The last term of a sequence comes from its last item. -/
theorem Grammar.Derives.last_item {maxRepeat : Nat} {inGroup : Bool} {text : List UInt8}
    {ts : List Term} {t : Term} (h : Derives maxRepeat .sequence inGroup text (ts ++ [t])) :
    ∃ front item, text = front ++ item ∧ Derives maxRepeat .sequence inGroup front ts ∧
      Derives maxRepeat .item inGroup item [t] := by
  generalize hus : ts ++ [t] = us at h
  cases h with
  | empty => simp at hus
  | append hs hi =>
    obtain ⟨rfl, hlast⟩ := List.append_inj' hus rfl
    cases hlast
    exact ⟨_, _, rfl, hs, hi⟩

/-! ## Scopes -/

namespace Scope

/-- The text of a scope up to now derives the pieces on both sides of its last bar. -/
def Covers (maxRepeat : Nat) (inGroup : Bool) (text : List UInt8) (s : Scope) : Prop :=
  match s.left with
  | none => Derives maxRepeat .sequence inGroup text (Piece.terms s.pieces)
  | some left => ∃ before after, text = before ++ Mark.bar.byte :: after ∧
    Derives maxRepeat .scope inGroup before (Piece.terms left.pieces) ∧
    Derives maxRepeat .sequence inGroup after (Piece.terms s.pieces)

variable {limits : Limits} {maxRepeat : Nat} {inGroup : Bool} {text : List UInt8} {s : Scope}

theorem covers_empty : ({} : Scope).Covers maxRepeat inGroup [] := Derives.empty

/-- Bytes that only change the pieces after the last bar leave the left branch as it is. -/
theorem Covers.extend {more : List UInt8} {ps : List Piece}
    (h : s.Covers maxRepeat inGroup text)
    (hmore : ∀ front, Derives maxRepeat .sequence inGroup front (Piece.terms s.pieces) →
      Derives maxRepeat .sequence inGroup (front ++ more) (Piece.terms ps)) :
    Covers maxRepeat inGroup (text ++ more) { s with pieces := ps } := by
  obtain ⟨pieces, left⟩ := s
  cases left with
  | none => exact hmore _ h
  | some left =>
    obtain ⟨before, after, rfl, hl, hr⟩ := h
    exact ⟨before, after ++ more, by simp, hl, hmore _ hr⟩

theorem Covers.push {item : List UInt8} {p : Piece} (h : s.Covers maxRepeat inGroup text)
    (hp : Derives maxRepeat .item inGroup item [p.term]) :
    (s.push p).Covers maxRepeat inGroup (text ++ item) := by
  apply h.extend
  intro front hs
  rw [Piece.terms_cons]
  exact .append hs hp

theorem Covers.quantify {quantifier : List UInt8} {b : Bound} {p : Piece} {ps : List Piece}
    (h : s.Covers maxRepeat inGroup text) (hs : s.pieces = p :: ps)
    (hq : Quantifies maxRepeat quantifier b) :
    Covers maxRepeat inGroup (text ++ quantifier)
      { s with pieces := p.repetition b :: ps } := by
  apply h.extend
  intro front hfront
  rw [hs, Piece.terms_cons] at hfront
  obtain ⟨front, item, rfl, hps, hp⟩ := hfront.last_item
  rw [Piece.terms_cons, List.append_assoc]
  exact .append hps (.quantified hp hq)

theorem Covers.finish {pieces : List Piece} (h : s.Covers maxRepeat inGroup text)
    (hs : s.finish limits = .ok pieces) :
    Derives maxRepeat .scope inGroup text (Piece.terms pieces) := by
  obtain ⟨ps, left⟩ := s
  rcases finish_eq_ok_iff.1 hs with ⟨rfl, rfl⟩ | ⟨left, rfl, rfl, -⟩
  · exact .single h
  · obtain ⟨before, after, rfl, hl, hr⟩ := h
    exact .alternation hl hr

end Scope

/-! ## Readers -/

namespace Reader

def Surrounds (maxRepeat : Nat) : List UInt8 → List OpenGroup → Prop
  | text, [] => text = []
  | text, g :: gs => ∃ before inside, text = before ++ inside ++ [Mark.groupOpen.byte] ∧
    Surrounds maxRepeat before gs ∧ g.around.Covers maxRepeat (!gs.isEmpty) inside

def CoversScopes (maxRepeat : Nat) (text : List UInt8) (r : Reader) : Prop :=
  ∃ before inside, text = before ++ inside ∧ Surrounds maxRepeat before r.enclosing ∧
    r.scope.Covers maxRepeat r.inGroup inside

def Covers (maxRepeat : Nat) (text : List UInt8) (r : Reader) : Prop :=
  match r.mode with
  | .plain => r.CoversScopes maxRepeat text
  | .inClass _ scan => ∃ before body, text = before ++ Mark.classOpen.byte :: body ∧
    r.CoversScopes maxRepeat before ∧
    ∀ rest c, ClassScan.Closes scan rest c → ClassScan.Closes .start (body ++ rest) c
  | .inBound _ body => ∃ before, text = before ++ Mark.boundOpen.byte :: body.reverse ∧
    r.CoversScopes maxRepeat before

variable {limits : Limits} {maxRepeat : Nat} {text : List UInt8} {r r' : Reader}

theorem CoversScopes.extend {more : List UInt8} {s : Scope}
    (h : r.CoversScopes maxRepeat text)
    (hmore : ∀ inside, r.scope.Covers maxRepeat r.inGroup inside →
      s.Covers maxRepeat r.inGroup (inside ++ more)) :
    { r with scope := s }.CoversScopes maxRepeat (text ++ more) := by
  obtain ⟨before, inside, rfl, hb, hi⟩ := h
  exact ⟨before, inside ++ more, List.append_assoc .., hb, hmore _ hi⟩

theorem CoversScopes.push {item : List UInt8} {p : Piece} (h : r.CoversScopes maxRepeat text)
    (hp : Derives maxRepeat .item r.inGroup item [p.term]) :
    (r.push p).CoversScopes maxRepeat (text ++ item) := h.extend fun _ hi => hi.push hp

theorem CoversScopes.openGroup (h : r.CoversScopes maxRepeat text) :
    { r with scope := {}, enclosing := ⟨r.offset, r.scope⟩ :: r.enclosing }.CoversScopes
      maxRepeat (text ++ [Mark.groupOpen.byte]) := by
  obtain ⟨before, inside, rfl, hb, hi⟩ := h
  exact ⟨_, [], (List.append_nil _).symm, ⟨before, inside, rfl, hb, hi⟩, Scope.covers_empty⟩

theorem CoversScopes.closeGroup {g : OpenGroup} {gs : List OpenGroup} {children : List Piece}
    (h : r.CoversScopes maxRepeat text) (he : r.enclosing = g :: gs)
    (hc : r.scope.finish limits = .ok children) :
    { r with scope := g.around.push (.group children), enclosing := gs }.CoversScopes maxRepeat
      (text ++ [Mark.groupClose.byte]) := by
  obtain ⟨opened, inside, rfl, ho, hi⟩ := h
  rw [inGroup, he] at hi
  rw [he] at ho
  obtain ⟨before, around, rfl, hb, ha⟩ := ho
  have hgroup := ha.push (p := .group children) (.bare (.group (hi.finish hc)))
  exact ⟨before, _, by simp, hb, hgroup⟩

theorem Covers.scopes (h : r.Covers maxRepeat text) (hp : r.mode = .plain) :
    r.CoversScopes maxRepeat text := by
  simpa only [Covers, hp] using h

theorem CoversScopes.covers (h : r.CoversScopes maxRepeat text) (hp : r.mode = .plain) :
    r.Covers maxRepeat text := by
  simpa only [Covers, hp] using h

theorem Covers.advances {b : UInt8} (h : r.Covers limits.maxRepeat.toNat text)
    (hr : Advances limits r b r') : r'.Covers limits.maxRepeat.toNat (text ++ [b]) := by
  cases hr with
  | literal hp hb => exact ((h.scopes hp).push (.bare (.literal hb))).covers hp
  | openGroup hp ha => exact (h.scopes hp).openGroup.covers hp
  | closeGroup hp he hc ha => exact ((h.scopes hp).closeGroup he hc).covers hp
  | bar hp hf =>
    refine ((h.scopes hp).extend fun inside hi => ?_).covers hp
    exact ⟨inside, [], rfl, hi.finish hf, .empty⟩
  | quantifier hp hm hps ha =>
    exact ((h.scopes hp).extend fun inside hi => hi.quantify hps (.mark hm)).covers hp
  | beginClass hp => exact ⟨text, [], rfl, h.scopes hp, fun _ _ hc => hc⟩
  | inClass hm hs =>
    simp only [Covers, hm] at h
    obtain ⟨before, body, rfl, hc, hscan⟩ := h
    refine ⟨before, body ++ [b], by simp, hc, fun rest c hcloses => ?_⟩
    simpa using hscan (b :: rest) c (.more _ _ hs hcloses)
  | @endClass _ _ c _ hm hs =>
    simp only [Covers, hm] at h
    obtain ⟨before, body, rfl, hc, hscan⟩ := h
    have hset := hscan [b] c (.last _ _ hs)
    rw [List.append_assoc]
    exact hc.push (p := .charSet c) (.bare (.charSet hset))
  | beginBound hp => exact ⟨text, rfl, h.scopes hp⟩
  | inBound hm hb =>
    simp only [Covers, hm] at h
    obtain ⟨before, rfl, hc⟩ := h
    exact ⟨before, by simp, hc⟩
  | endBound hm hb hps ha =>
    simp only [Covers, hm] at h
    obtain ⟨before, rfl, hc⟩ := h
    obtain ⟨hw, ho, hl⟩ := Bound.read_eq_ok_iff.1 hb
    rw [List.append_assoc]
    exact hc.extend fun inside hi => hi.quantify hps (.bound hw ho hl)

theorem covers_start : ({} : Reader).Covers maxRepeat [] := ⟨[], [], rfl, rfl, Scope.covers_empty⟩

theorem covers_of_runs {bytes : List UInt8} (hr : Runs limits {} bytes r) :
    r.Covers limits.maxRepeat.toNat bytes := by
  refine hr.invariant ?_ covers_start
  intro text r b s h hs
  have hcovers : s.Covers limits.maxRepeat.toNat (text ++ [b]) := h.advances hs
  exact hcovers

end Reader

theorem parses_of_parse {limits : Limits} {pattern : List UInt8} {ts : List Term}
    (h : parse limits pattern = .ok ts) : Parses limits.maxRepeat.toNat pattern ts := by
  obtain ⟨r, hr, hf⟩ := parse_eq_ok_iff_runs.1 h
  obtain ⟨hp, he, pieces, hs, rfl⟩ := Reader.finish_eq_ok_iff.1 hf
  obtain ⟨before, inside, rfl, hb, hi⟩ := (Reader.covers_of_runs hr).scopes hp
  rw [Reader.inGroup, he] at hi
  rw [he] at hb
  obtain rfl := hb
  exact hi.finish hs

end ByteRegex
