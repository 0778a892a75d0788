import ByteRegex.Proofs.ReadersAtSpots

/-!
# Faultless reading

A reading by recursion meets no fault. Where its calls begin and end a reader of the same pattern
stands, and the two come to the same terms or the same error.
-/

namespace ByteRegex

namespace Descent

variable {α β γ : Type} {limits : Limits} {pattern : List UInt8} {opened : List Nat}
  {fuel n pos : Nat} {r : Reader} {s t : Spot} {sc : Scope}

/-! ## Agreement -/

/-- A call that halts does so with the error that is the outcome `o` of the pattern, and a call that
returns brings about `P`. -/
def Agrees (o : Except CompileError (List Term)) (x : Except Halt α) (P : α → Prop) : Prop :=
  match x with
  | .ok y => P y
  | .error (.rejected e) => o = .error e
  | .error (.faulty _) => False

/-- Both have the same error, or both have results and these are in the relation `R`. -/
def Alike (R : α → β → Prop) : Except CompileError α → Except CompileError β → Prop
  | .ok x, .ok y => R x y
  | .error e, .error e' => e = e'
  | _, _ => False

section Agreement

variable {o : Except CompileError (List Term)} {P : α → Prop} {Q : β → Prop} {x : Except Halt α}

theorem Agrees.bind {f : α → Except Halt β} (h : Agrees o x P)
    (hf : ∀ y, x = .ok y → P y → Agrees o (f y) Q) : Agrees o (x >>= f) Q := by
  match x, h with
  | .ok y, h => exact hf y rfl h
  | .error (.rejected e), h => exact h

theorem Agrees.imp {R : α → Prop} (h : Agrees o x P) (hR : ∀ y, P y → R y) : Agrees o x R := by
  match x, h with
  | .ok y, h => exact hR y h
  | .error (.rejected e), h => exact h

theorem eq_lift_of_agrees {x : Except Halt (List Term)} (h : Agrees o x fun ts => o = .ok ts) :
    x = lift o := by
  match x, h with
  | .ok ts, h =>
    obtain rfl : o = .ok ts := h
    rfl
  | .error (.rejected e), h =>
    obtain rfl : o = .error e := h
    rfl

theorem alike_refl (x : Except CompileError α) : Alike Eq x x := by cases x <;> rfl

/-- What the rest of the pattern depends on is also what the call depends on. -/
theorem Alike.agrees {R : α → γ → Prop} {x : Except CompileError α} {y : Except CompileError γ}
    {next : γ → Except CompileError (List Term)} {f : α → Except Halt β} (h : Alike R x y)
    (ho : o = y >>= next) (hf : ∀ u v, R u v → x = .ok u → y = .ok v → Agrees o (f u) Q) :
    Agrees o (lift x >>= f) Q := by
  match x, y, h with
  | .ok u, .ok v, h => exact hf u v h rfl rfl
  | .error e, .error _, h =>
    obtain rfl := h
    exact ho

end Agreement

theorem Measures.alike {x : UInt32} {p : Piece} (h : Measures x p.height) :
    Alike (fun _ q => q = p) (nest limits pos x) (limits.allow pos p) := by
  rw [h.nest_eq, Limits.allow]
  split <;> rfl

theorem Row.Measured.alike_quantify {row : Row} {m : Mark} {b : Bound} (h : row.Measured)
    (hterms : row.terms = sc.pieces.map Piece.term) :
    Alike (fun row' sc' => ∃ ps, sc' = { sc with pieces := ps } ∧ row'.terms = ps.map Piece.term)
      (row.quantify limits m pos b) (sc.quantify limits m pos b) := by
  obtain ⟨pieces, left⟩ := sc
  cases pieces with
  | nil =>
    have hnil : row.terms = [] := hterms
    simp only [Row.quantify, hnil, Scope.quantify, Alike]
  | cons p ps =>
    have hcons : row.terms = p.term :: ps.map Piece.term := hterms
    have hlast : Measures row.last p.height := by
      rw [p.height_eq]
      exact h.last p.term (by rw [hcons]; rfl)
    have hsucc : Measures (saturatingSucc row.last) (p.repetition b).height := hlast.succ
    simp only [Row.quantify, hcons, Scope.quantify, hsucc.nest_eq, Limits.allow]
    split
    · exact ⟨_, rfl, rfl⟩
    · rfl

/-! ## Calls -/

def ReadsSequence (limits : Limits) (pattern : List UInt8) (opened : List Nat) (r : Reader)
    (s : Spot) (p : Row × Spot) : Prop :=
  ∃ ps, p.1.terms = ps.map Piece.term ∧
    Reached limits pattern opened r s { r.scope with pieces := ps } p.2 ∧
      Stops pattern opened p.2.pos

def ReadsScope (limits : Limits) (pattern : List UInt8) (opened : List Nat) (r : Reader)
    (s : Spot) (p : Content × Spot) : Prop :=
  ∃ sc ps, p.1.terms = Piece.terms ps ∧ sc.finish limits = .ok ps ∧
    Reached limits pattern opened r s sc p.2 ∧ Ends pattern opened p.2.pos

/-- Sequences are read on from wherever less than `n` bytes of the pattern are left. -/
def SequenceCall (limits : Limits) (pattern : List UInt8) (n : Nat) (opened : List Nat) : Prop :=
  ∀ {r s row}, Stands limits pattern opened r s → row.Measured →
    row.terms = r.scope.pieces.map Piece.term → pattern.length - s.pos < n →
      Agrees (outcome limits pattern r) (sequence limits pattern n opened row s)
        (ReadsSequence limits pattern opened r s)

def ScopeCall (limits : Limits) (pattern : List UInt8) (n : Nat) (opened : List Nat) : Prop :=
  ∀ {r s}, Stands limits pattern opened r s → r.scope = {} → pattern.length - s.pos < n →
    Agrees (outcome limits pattern r)
      (scope limits pattern (sequence limits pattern n opened {}) n s)
      (ReadsScope limits pattern opened r s)

theorem ReadsScope.after {p : Content × Spot} (h : Reached limits pattern opened r s sc t)
    (h' : ReadsScope limits pattern opened (goTo t.pos sc r) t p) :
    ReadsScope limits pattern opened r s p := by
  obtain ⟨sc', ps, hterms, hfinish, hreached, hends⟩ := h'
  exact ⟨sc', ps, hterms, hfinish, h.trans hreached, hends⟩

theorem content_terms {row : Row} {ps : List Piece} (h : row.terms = ps.map Piece.term) :
    row.content.terms = Piece.terms ps := by
  rw [Row.content, h]
  rfl

theorem agrees_branches {left : Content} {ps : List Piece}
    (hcall : SequenceCall limits pattern n opened) (hn : fuel ≤ n)
    (h : Stands limits pattern opened r s) (hleft : left.Measured)
    (hterms : left.terms = Piece.terms ps) (hfinish : r.scope.finish limits = .ok ps)
    (hstop : Stops pattern opened s.pos) (hfuel : pattern.length - s.pos < fuel) :
    Agrees (outcome limits pattern r)
      (branches limits pattern (sequence limits pattern n opened {}) fuel left s)
      (ReadsScope limits pattern opened r s) := by
  induction fuel generalizing r s left ps with
  | zero => omega
  | succ fuel ih =>
    by_cases hb : pattern[s.pos]? = some Mark.bar.byte
    · have hlt := lt_length hb
      have hmove : move pattern (s.pos + 1) = .ok (s.pos + 1) := move_of_le hlt
      have hbar := h.advance hb (.bar h.plain hfinish)
      rw [h.offset_eq] at hbar
      rw [branches, if_pos hb, hmove, hbar.outcome_eq]
      refine (hcall hbar.stands Row.measured_empty rfl (by simp only; omega)).bind ?_
      rintro ⟨row, t⟩ hrow ⟨qs, hrow_terms, hreached, hstop'⟩
      have hle : s.pos + 1 ≤ t.pos := hreached.pos_le
      have hrest : pattern.length - t.pos < fuel := by omega
      have hright : row.content.Measured := (measured_sequence Row.measured_empty hrow).content
      have hright_terms := content_terms hrow_terms
      have hheight : Measures (saturatingSucc (max left.height row.height))
          (Piece.alternation ps qs).height := by
        have hsucc := (hleft.maximum hright).succ
        rw [hterms, hright_terms] at hsucc
        rwa [(Piece.alternation ps qs).height_eq]
      rw [hreached.outcome_eq]
      simp only [hheight.nest_eq]
      -- The scope behind the right branch is finished by the alternation, if that is allowed.
      by_cases hallow : limits.Allows (Piece.alternation ps qs).height
      · have hfinish' : Scope.finish limits ⟨qs, some ⟨ps, s.pos⟩⟩ =
            .ok [.alternation ps qs] := congrArg (Except.map _) (if_pos hallow)
        have hboth : [Term.alternation left.terms row.content.terms] =
            Piece.terms [.alternation ps qs] := by
          rw [hterms, hright_terms]
          rfl
        rw [if_pos hallow]
        refine (ih (by omega) hreached.stands (hleft.alternation hright) hboth hfinish' hstop'
          hrest).imp ?_
        intro p hp
        exact ReadsScope.after hbar (ReadsScope.after hreached hp)
      · rw [if_neg hallow]
        refine hreached.stands.outcome_of_finish_error hstop' ?_
        exact congrArg (Except.map _) (if_neg hallow)
    · rw [branches, if_neg hb]
      exact ⟨r.scope, ps, hterms, hfinish, h.reached, hstop.resolve_left hb⟩

theorem agrees_scope (hcall : SequenceCall limits pattern n opened) :
    ScopeCall limits pattern n opened := by
  intro r s h hempty hfuel
  have hpieces : r.scope.pieces = [] := by rw [hempty]
  refine (hcall h Row.measured_empty (by rw [hpieces]; rfl) hfuel).bind ?_
  rintro ⟨row, t⟩ hrow ⟨ps, hterms, hreached, hstop⟩
  have hle : s.pos ≤ t.pos := hreached.pos_le
  have hrest : pattern.length - t.pos < n := by omega
  have hmeasured : row.content.Measured := (measured_sequence Row.measured_empty hrow).content
  have hfinish : Scope.finish limits { r.scope with pieces := ps } = .ok ps := by
    rw [hempty]
    rfl
  rw [hreached.outcome_eq]
  refine (agrees_branches hcall (Nat.le_refl n) hreached.stands hmeasured (content_terms hterms)
    hfinish hstop hrest).imp ?_
  intro p hp
  exact ReadsScope.after hreached hp

theorem agrees_group (hinside : ∀ opened, ScopeCall limits pattern n opened)
    (h : Stands limits pattern opened r s) (hb : pattern[s.pos]? = some Mark.groupOpen.byte)
    (hfuel : pattern.length - s.pos ≤ n) :
    Agrees (outcome limits pattern r)
      (group limits pattern opened (fun opened =>
        scope limits pattern (sequence limits pattern n opened {}) n) s) fun p =>
        s.pos < p.2.pos ∧ ∃ q : Piece, p.1.1 = q.term ∧
          Reached limits pattern opened r s (r.scope.push q) p.2 := by
  have hlt := lt_length hb
  have hmove : move pattern (s.pos + 1) = .ok (s.pos + 1) := move_of_le hlt
  by_cases hallow : limits.Allows (opened.length + 1)
  · have hinto := h.inside hb hallow
    rw [group, enter_of_allows h.counted hallow, hmove, h.outcome_groupOpen hb hallow]
    refine (hinside _ hinto rfl (by simp only; omega)).bind ?_
    rintro ⟨children, t⟩ hchildren ⟨sc, ps, hterms, hfinish, hreached, hends⟩
    have hle : s.pos + 1 ≤ t.pos := hreached.pos_le
    have hcount : Counted limits (s.pos :: opened) t.depth := hreached.stands.counted
    simp only [leave_of_counted hcount]
    rw [hreached.outcome_eq]
    rcases hends with hn | ⟨hclose, -⟩
    · have hne : pattern[t.pos]? ≠ some Mark.groupClose.byte := by simp [hn]
      simp only [if_neg hne]
      exact hreached.stands.outcome_of_unterminated rfl hn hfinish
    · have hrest := outcome_behind_group hreached.stands hclose hfinish
      have hlt' : t.pos < pattern.length := lt_length hclose
      have hmove' : move pattern (t.pos + 1) = .ok (t.pos + 1) := move_of_le hlt'
      have hheight : Measures (saturatingSucc children.height) (Piece.group ps).height := by
        have hmeasured : children.Measured :=
          measured_scope (fun _ _ _ => measured_sequence Row.measured_empty) hchildren
        have hsucc := Measures.succ hmeasured
        rw [hterms] at hsucc
        rwa [(Piece.group ps).height_eq]
      simp only [if_pos hclose, hmove']
      refine hheight.alike.agrees hrest ?_
      rintro _ q rfl - hq
      have hbehind : s.pos ≤ t.pos + 1 := by omega
      refine ⟨Nat.lt_succ_of_lt hle, .group ps, congrArg Term.group hterms, hbehind,
        ⟨h.plain, rfl, hlt', h.opened_eq, hcount.pred⟩, ?_⟩
      rw [h.outcome_groupOpen hb hallow, hreached.outcome_eq, hrest, hq]
      rfl
  · rw [group, enter_of_not_allows h.counted hallow]
    exact h.outcome_of_not_allows hb hallow

/-- A sequence that goes on behind what has been read of it. -/
theorem ReadsSequence.after {ps : List Piece} {p : Row × Spot}
    (h : Reached limits pattern opened r s { r.scope with pieces := ps } t)
    (h' : ReadsSequence limits pattern opened (goTo t.pos { r.scope with pieces := ps } r) t p) :
    ReadsSequence limits pattern opened r s p := by
  obtain ⟨qs, hterms, hreached, hstop⟩ := h'
  exact ⟨qs, hterms, h.trans hreached, hstop⟩

theorem agrees_sequence (limits : Limits) (pattern : List UInt8) (fuel : Nat) (opened : List Nat) :
    SequenceCall limits pattern fuel opened := by
  intro r s row h hrow hterms hfuel
  induction fuel generalizing opened r s row with
  | zero => omega
  | succ fuel ih =>
    have hself : Stops pattern opened s.pos →
        ReadsSequence limits pattern opened r s (row, s) :=
      fun hstop => ⟨r.scope.pieces, hterms, h.reached, hstop⟩
    cases hb : pattern[s.pos]? with
    | none =>
      simp only [sequence, hb]
      exact hself (.inr (.inl hb))
    | some b =>
      have hlt := lt_length hb
      have hmove : move pattern (s.pos + 1) = .ok (s.pos + 1) := move_of_le hlt
      -- What follows a byte, a class, a group or a quantifier is read by the next call.
      have hrest : ∀ {row' : Row} {ps t}, s.pos < t.pos → row'.Measured →
          row'.terms = ps.map Piece.term →
          Reached limits pattern opened r s { r.scope with pieces := ps } t →
          Agrees (outcome limits pattern r) (sequence limits pattern fuel opened row' t)
            (ReadsSequence limits pattern opened r s) := by
        intro row' ps t hpos hrow' hterms' hreached
        rw [hreached.outcome_eq]
        refine (ih opened hreached.stands hrow' hterms' (by omega)).imp ?_
        intro p hp
        exact ReadsSequence.after hreached hp
      have hpush : ∀ {q : Piece} {height t}, s.pos < t.pos → Measures height q.term.height →
          Reached limits pattern opened r s (r.scope.push q) t →
          Agrees (outcome limits pattern r)
            (sequence limits pattern fuel opened (row.push q.term height) t)
            (ReadsSequence limits pattern opened r s) := by
        intro q height t hpos hheight hreached
        have hterms' : (row.push q.term height).terms =
            (r.scope.push q).pieces.map Piece.term := congrArg (q.term :: ·) hterms
        exact hrest hpos (hrow.push hheight) hterms' hreached
      have hquantify : ∀ {m : Mark} {bound : Bound} {stop : Nat},
          s.pos < stop ∧ stop ≤ pattern.length →
          (outcome limits pattern r = r.scope.quantify limits m s.pos bound >>= fun sc =>
            outcome limits pattern (goTo stop sc r)) →
          Agrees (outcome limits pattern r) (lift (row.quantify limits m s.pos bound) >>= fun row =>
            sequence limits pattern fuel opened row ⟨stop, s.depth⟩)
            (ReadsSequence limits pattern opened r s) := by
        intro m bound stop hstop heq
        refine (hrow.alike_quantify hterms).agrees heq ?_
        rintro row' _ ⟨ps, rfl, hps⟩ hrow' hsc
        exact hrest hstop.1 (hrow.quantify hrow') hps (h.reached_of_quantify hstop heq hsc)
      have hbegins := begins_turn (!opened.isEmpty) b
      simp only [sequence, hb]
      generalize turn (!opened.isEmpty) b = next at hbegins ⊢
      cases hbegins with
      | bar => exact hself (.inl hb)
      | groupClose hgroup => exact hself (.inr (.inr ⟨hb, by simpa using hgroup⟩))
      | literal hliteral =>
        rw [← h.inGroup_eq] at hliteral
        simp only [hmove]
        exact hpush (Nat.lt_succ_self _) measures_zero (h.advance hb (.literal h.plain hliteral))
      | group =>
        have hscope : ∀ opened, ScopeCall limits pattern fuel opened :=
          fun opened => agrees_scope (ih opened)
        refine (agrees_group hscope h hb (by omega)).bind ?_
        rintro ⟨⟨_, height⟩, t⟩ hgroup ⟨hpos, q, rfl, hreached⟩
        have hheight : Measures height q.term.height := by
          refine measured_group (fun _ _ _ _ => measured_scope fun _ _ _ => ?_) hgroup
          exact measured_sequence Row.measured_empty
        exact hpush hpos hheight hreached
      | charSet =>
        rw [charSet_eq hlt (by omega)]
        refine (alike_refl _).agrees (h.outcome_charSet hb) ?_
        rintro ⟨c, stop⟩ _ rfl hread -
        exact hpush (lt_of_readClass hlt hread).1 measures_zero (h.reached_charSet hb hread)
      | bound =>
        rw [bound_eq hlt]
        refine (alike_refl _).agrees (h.outcome_bound hb) ?_
        rintro ⟨c, stop⟩ _ rfl hread -
        exact hquantify (lt_of_readBound hlt hread) (h.outcome_behind_bound hb hread)
      | quantifier hm =>
        simp only [hmove]
        exact hquantify ⟨Nat.lt_succ_self _, hlt⟩ (h.outcome_quantifier hb hm)

/-! ## The whole pattern -/

theorem stands_start (limits : Limits) (pattern : List UInt8) :
    Stands limits pattern [] {} {} where
  plain := rfl
  offset_eq := rfl
  pos_le := Nat.zero_le _
  opened_eq := rfl
  counted := .inr ⟨rfl, UInt32.le_iff_toNat_le.2 (Nat.zero_le _)⟩

/-- The outermost scope ends with the pattern. -/
theorem agrees_outermost (limits : Limits) (hfuel : pattern.length < fuel) :
    Agrees (parse limits pattern)
      (scope limits pattern (sequence limits pattern fuel [] {}) fuel {}) fun p =>
        p.2.pos = pattern.length ∧ parse limits pattern = .ok p.1.terms := by
  have hstart := stands_start limits pattern
  refine (agrees_scope (agrees_sequence limits pattern fuel []) hstart rfl hfuel).imp ?_
  rintro ⟨content, t⟩ ⟨sc, ps, hterms, hfinish, hreached, hends⟩
  have hn : pattern[t.pos]? = none := hends.resolve_right fun h => h.2 rfl
  have hle : t.pos ≤ pattern.length := hreached.stands.pos_le
  refine ⟨Nat.le_antisymm hle (List.getElem?_eq_none_iff.1 hn), ?_⟩
  change outcome limits pattern {} = _
  rw [hreached.outcome_eq, hreached.stands.outcome_of_none hn]
  exact Reader.finish_eq_ok_iff.2 ⟨rfl, rfl, ps, hfinish, hterms⟩

theorem pos_eq_of_outermost {content : Content} {t : Spot} (hfuel : pattern.length < fuel)
    (h : scope limits pattern (sequence limits pattern fuel [] {}) fuel {} = .ok (content, t)) :
    t.pos = pattern.length := by
  have hagrees := agrees_outermost limits hfuel
  rw [h] at hagrees
  exact hagrees.1

theorem read_eq_lift_parse (hfuel : pattern.length < fuel) :
    read limits pattern fuel = lift (parse limits pattern) := by
  refine eq_lift_of_agrees ((agrees_outermost limits hfuel).bind ?_)
  rintro ⟨content, t⟩ - ⟨hpos, hparse⟩
  simp only [if_pos hpos]
  exact hparse

/-- Within as many calls as the pattern has bytes, and one more, reading by recursion comes to what
the reader comes to, and no fault is met: the cursor stays in the pattern, each count of groups is
that of the open ones and within the limit, and the outermost scope ends with the pattern. No call
moves the cursor back or leaves another count, and groups, classes and bounds take bytes. -/
theorem read_faultless (limits : Limits) (pattern : List UInt8) :
    (∀ fuel, pattern.length < fuel → read limits pattern fuel = lift (parse limits pattern) ∧
      ∀ f, read limits pattern fuel ≠ fault f) ∧
    (∀ fuel opened row s row' t, sequence limits pattern fuel opened row s = .ok (row', t) →
      Advanced limits pattern s t) ∧
    (∀ fuel opened s p t, group limits pattern opened (fun opened =>
        scope limits pattern (sequence limits pattern fuel opened {}) fuel) s = .ok (p, t) →
      PassedGroup limits pattern opened s t) ∧
    (∀ opened pos depth depth', enter limits opened pos depth = .ok depth' →
      Counted limits (pos :: opened) depth') ∧
    (∀ fuel pos c stop, charSet pattern fuel pos = .ok (c, stop) →
      pos < stop ∧ stop ≤ pattern.length) ∧
    (∀ pos b stop, bound limits pattern pos = .ok (b, stop) →
      pos < stop ∧ stop ≤ pattern.length) ∧
    ∀ fuel content t, pattern.length < fuel →
      scope limits pattern (sequence limits pattern fuel [] {}) fuel {} = .ok (content, t) →
      t.pos = pattern.length := by
  refine ⟨fun fuel hfuel => ⟨read_eq_lift_parse hfuel, fun f hf => ?_⟩, ?_, ?_, ?_, ?_, ?_, ?_⟩
  · rw [read_eq_lift_parse hfuel] at hf
    cases hparse : parse limits pattern <;> simp [hparse, lift, fault, Except.mapError] at hf
  · intro fuel opened row s row' t h
    exact advances_sequence fuel opened row s row' t h
  · intro fuel opened s p t h
    exact passedGroup_of_group (fun _ => advances_scope (advances_sequence fuel _ {})) h
  · intro opened pos depth depth' h
    exact (enter_eq_ok_iff.1 h).2.2
  · intro fuel pos c stop h
    exact lt_of_charSet h
  · intro pos b stop h
    exact lt_of_bound h
  · intro fuel content t hfuel h
    exact pos_eq_of_outermost hfuel h

/-- The pattern is `([a-c]){2}`, read with the least limit on nesting that allows it. -/
theorem read_faultless_of_class_in_group :
    let pattern : List UInt8 := [40, 91, 97, 45, 99, 93, 41, 123, 50, 125]
    let terms : List Term := [.repetition (.group [.charSet (.ofList [97, 98, 99])]) 2 (some 2)]
    pattern.length < 11 ∧ parse ⟨2, 1000, 2⟩ pattern = .ok terms ∧
      read ⟨2, 1000, 2⟩ pattern 11 = .ok terms := by
  intro pattern terms
  have hfuel : pattern.length < 11 := by decide
  have hparse : parse ⟨2, 1000, 2⟩ pattern = .ok terms := rfl
  obtain ⟨hread, -⟩ := (read_faultless ⟨2, 1000, 2⟩ pattern).1 11 hfuel
  rw [hparse] at hread
  exact ⟨hfuel, hparse, hread⟩

end Descent

end ByteRegex
