import ByteRegex.Proofs.FailingSteps
import ByteRegex.Proofs.FinalErrors
import ByteRegex.Proofs.ParseExactness

/-!
# Open groups

A pattern that ends inside groups leaves a scope open for each of them. A closing parenthesis makes
an item of the innermost one and puts it into the scope around it, so the groups are closed one by
one from the inside out, and further parentheses are literals. A class can be closed wherever the
pattern breaks off in it. So only for want of an end are such patterns rejected, and every one of
them is the beginning of a pattern that is read.
-/

namespace ByteRegex

namespace Grammar

/-- A text that ends with a complete item or where an item may begin, and the offsets of the groups
that are open at its end, innermost first. -/
inductive LeavesOpen (maxRepeat : Nat) : List UInt8 → List Nat → Prop where
  | outside {text : List UInt8} {ts : List Term} : Derives maxRepeat .scope false text ts →
    LeavesOpen maxRepeat text []
  | inside {before text : List UInt8} {opened : List Nat} {ts : List Term} :
    LeavesOpen maxRepeat before opened → Derives maxRepeat .scope true text ts →
    LeavesOpen maxRepeat (before ++ Mark.groupOpen.byte :: text) (before.length :: opened)

variable {maxRepeat : Nat} {inGroup : Bool} {text item : List UInt8} {ts : List Term} {t : Term}
  {opened : List Nat} {a : Nat}

/-! ## Closing groups -/

theorem Derives.scope_append_item (h : Derives maxRepeat .scope inGroup text ts)
    (hi : Derives maxRepeat .item inGroup item [t]) :
    ∃ us, Derives maxRepeat .scope inGroup (text ++ item) us := by
  cases h with
  | single hs => exact ⟨_, .single (.append hs hi)⟩
  | alternation hl hr =>
    rw [List.append_assoc]
    exact ⟨_, .alternation hl (.append hr hi)⟩

theorem LeavesOpen.append_item (h : LeavesOpen maxRepeat text opened)
    (hi : Derives maxRepeat .item (!opened.isEmpty) item [t]) :
    LeavesOpen maxRepeat (text ++ item) opened := by
  cases h with
  | outside hs =>
    obtain ⟨us, hus⟩ := hs.scope_append_item hi
    exact .outside hus
  | inside hb hs =>
    obtain ⟨us, hus⟩ := hs.scope_append_item hi
    rw [List.append_assoc]
    exact .inside hb hus

/-- The innermost group becomes an item of the scope around it. Where no group is open the
parenthesis is an item by itself. -/
theorem LeavesOpen.append_closer (h : LeavesOpen maxRepeat text opened) :
    LeavesOpen maxRepeat (text ++ [Mark.groupClose.byte]) opened.tail := by
  cases h with
  | outside hs => exact (LeavesOpen.outside hs).append_item (.bare (.literal isLiteral_groupClose))
  | inside hb hs =>
    rw [List.append_assoc]
    exact hb.append_item (.bare (.group hs))

theorem LeavesOpen.append_closers (h : LeavesOpen maxRepeat text opened) (j : Nat) :
    LeavesOpen maxRepeat (text ++ List.replicate j Mark.groupClose.byte) (opened.drop j) := by
  induction j with
  | zero => simpa using h
  | succ j ih =>
    have hnext := ih.append_closer
    rwa [List.append_assoc, ← List.replicate_succ', List.tail_drop] at hnext

theorem LeavesOpen.append_all_closers (h : LeavesOpen maxRepeat text opened) :
    LeavesOpen maxRepeat (text ++ List.replicate opened.length Mark.groupClose.byte) [] := by
  have hclosed := h.append_closers opened.length
  rwa [List.drop_length] at hclosed

end Grammar

open Grammar

/-! ## Reading up to an open group -/

theorem Scope.Covers.exists_derives {maxRepeat : Nat} {inGroup : Bool} {text : List UInt8}
    {s : Scope} (h : s.Covers maxRepeat inGroup text) :
    ∃ ts, Derives maxRepeat .scope inGroup text ts := by
  obtain ⟨pieces, left⟩ := s
  cases left with
  | none => exact ⟨_, .single h⟩
  | some left =>
    obtain ⟨before, after, rfl, hl, hr⟩ := h
    exact ⟨_, .alternation hl hr⟩

namespace Reader

variable {limits : Limits} {maxRepeat : Nat} {text inside : List UInt8} {ts : List Term}
  {opened opened' : List Nat} {r : Reader} {a : Nat}

theorem Surrounds.exists_leavesOpen {gs : List OpenGroup} (h : Surrounds maxRepeat text gs)
    (hs : Derives maxRepeat .scope (!gs.isEmpty) inside ts) :
    ∃ opened, LeavesOpen maxRepeat (text ++ inside) opened := by
  induction gs generalizing text inside ts with
  | nil =>
    obtain rfl := h
    exact ⟨[], .outside hs⟩
  | cons g gs ih =>
    obtain ⟨before, around, rfl, hb, ha⟩ := h
    obtain ⟨us, hus⟩ := ha.exists_derives
    obtain ⟨opened, hopened⟩ := ih hb hus
    rw [List.append_assoc, List.singleton_append]
    exact ⟨_, .inside hopened hs⟩

theorem CoversScopes.exists_leavesOpen (h : r.CoversScopes maxRepeat text) :
    ∃ opened, LeavesOpen maxRepeat text opened := by
  obtain ⟨before, inside, rfl, hb, hi⟩ := h
  obtain ⟨ts, hts⟩ := hi.exists_derives
  exact hb.exists_leavesOpen hts

/-- A reader at the end of the text has just these groups open. -/
theorem exists_runs_of_leavesOpen (hnest : limits.nestLimit = 4294967295)
    (h : LeavesOpen limits.maxRepeat.toNat text opened) :
    ∃ r pieces, Runs limits {} text r ∧ r.mode = .plain ∧
      r.enclosing.map OpenGroup.opened = opened ∧ r.scope.finish limits = .ok pieces := by
  have hallows := Limits.allows_of_nestLimit_eq hnest
  induction h with
  | @outside text ts hs =>
    obtain ⟨s, hrun, hf⟩ := follows_of_derives hs {} rfl rfl (hallows _) rfl
    exact ⟨_, _, hrun, rfl, rfl, hf⟩
  | @inside before text opened ts _ hs ih =>
    obtain ⟨r, -, hr, hp, ho, -⟩ := ih
    obtain ⟨s, hrun, hf⟩ := follows_of_derives hs r.enter hp rfl (hallows _) rfl
    have hopen : Runs limits r [Mark.groupOpen.byte] r.enter :=
      Runs.single (.openGroup hp (hallows _))
    refine ⟨_, _, hr.append (hopen.append hrun), hp, ?_, hf⟩
    have hoffset : r.offset = before.length := hr.offset.trans (Nat.zero_add _)
    simp only [advance, enter, List.map_cons, ho, hoffset]

end Reader

section

variable {limits : Limits} {text : List UInt8} {opened opened' : List Nat} {a : Nat}

theorem Reader.mode_of_finish {r : Reader} (h : r.finish limits = .error (.unterminatedGroup a)) :
    r.mode = .plain := by
  cases hm : r.mode with
  | plain => rfl
  | inClass opened scan =>
    simp only [Reader.finish, hm] at h
    rcases scan.endError_cases opened with he | ⟨_, _, -, he⟩ <;> rw [he] at h <;> cases h
  | inBound opened body =>
    simp only [Reader.finish, hm] at h
    cases h

theorem leavesOpen_unique (hnest : limits.nestLimit = 4294967295)
    (h : LeavesOpen limits.maxRepeat.toNat text opened)
    (h' : LeavesOpen limits.maxRepeat.toNat text opened') : opened = opened' := by
  obtain ⟨r, -, hr, -, ho, -⟩ := Reader.exists_runs_of_leavesOpen hnest h
  obtain ⟨r', -, hr', -, ho', -⟩ := Reader.exists_runs_of_leavesOpen hnest h'
  obtain rfl := Except.ok.inj (hr.symm.trans hr')
  exact ho.symm.trans ho'

/-! ## Patterns that end in groups or in a class -/

theorem parse_of_leavesOpen_nil (hnest : limits.nestLimit = 4294967295)
    (h : LeavesOpen limits.maxRepeat.toNat text []) : ∃ ts, parse limits text = .ok ts := by
  cases h with
  | outside hs => exact ⟨_, (parse_eq_ok_iff_parses hnest).2 hs⟩

theorem parse_of_leavesOpen_cons (hnest : limits.nestLimit = 4294967295) {outer : List Nat}
    (h : LeavesOpen limits.maxRepeat.toNat text (a :: outer)) :
    parse limits text = .error (.unterminatedGroup a) := by
  obtain ⟨r, pieces, hr, hp, ho, hf⟩ := Reader.exists_runs_of_leavesOpen hnest h
  obtain ⟨g, gs, he, rfl, -⟩ := List.map_eq_cons_iff.1 ho
  rw [parse_of_runs hr]
  simp only [Reader.finish, hp, hf, he, bind, Except.bind]

/-- The groups that are open at the end of a pattern that is rejected for this reason. -/
theorem exists_leavesOpen_of_parse (hnest : limits.nestLimit = 4294967295)
    (h : parse limits text = .error (.unterminatedGroup a)) :
    ∃ outer, LeavesOpen limits.maxRepeat.toNat text (a :: outer) := by
  obtain ⟨r, hr, hf⟩ := finish_of_parse_of_isUnterminated h trivial
  have hp := Reader.mode_of_finish hf
  obtain ⟨opened, hopened⟩ := ((Reader.covers_of_runs hr).scopes hp).exists_leavesOpen
  cases opened with
  | nil =>
    obtain ⟨ts, hts⟩ := parse_of_leavesOpen_nil hnest hopened
    cases h.symm.trans hts
  | cons b outer =>
    cases h.symm.trans (parse_of_leavesOpen_cons hnest hopened)
    exact ⟨outer, hopened⟩

/-- A class can be closed wherever it breaks off. -/
theorem ClassScan.exists_closes (scan : ClassScan) : ∃ rest c, Closes scan rest c := by
  cases scan with
  | start => exact ⟨_, _, (closes_end _ _).cons_first (b := Mark.hyphen) (by decide)⟩
  | member members anchor => exact ⟨_, _, closes_end members anchor⟩
  | hyphen begun members anchor => exact ⟨_, _, .last 0 0 (Ends.hyphen.step 0 0)⟩

/-- Behind the class that the pattern breaks off in, all groups can be closed. -/
theorem exists_parse_append_of_inClass (hnest : limits.nestLimit = 4294967295) {r : Reader}
    {scan : ClassScan} (hr : Reader.Runs limits {} text r) (hm : r.mode = .inClass a scan) :
    ∃ more ts, parse limits (text ++ more) = .ok ts := by
  have hcovers := Reader.covers_of_runs hr
  simp only [Reader.Covers, hm] at hcovers
  obtain ⟨before, body, rfl, hbefore, hscan⟩ := hcovers
  obtain ⟨opened, hopened⟩ := hbefore.exists_leavesOpen
  obtain ⟨rest, c, hcloses⟩ := scan.exists_closes
  have hclass := hopened.append_item (.bare (.charSet (hscan rest c hcloses)))
  obtain ⟨ts, hts⟩ := parse_of_leavesOpen_nil hnest hclass.append_all_closers
  refine ⟨rest ++ List.replicate opened.length Mark.groupClose.byte, ts, ?_⟩
  simpa using hts

/-- Without a limit on nesting, a pattern that is rejected because a group is not closed ends inside
of one group or more, and the innermost of these is the one reported. As long as fewer closing
parentheses follow than groups are open, the innermost group that is still open is reported, and
with as many or more the pattern is read. A pattern that is rejected because a class is not closed
can also be completed. -/
theorem parse_completed (hnest : limits.nestLimit = 4294967295) (pattern : List UInt8) :
    (∀ a, parse limits pattern = .error (.unterminatedGroup a) → ∃ outer,
      (∀ opened, LeavesOpen limits.maxRepeat.toNat pattern opened ↔ opened = a :: outer) ∧
      (∀ j (hj : j < (a :: outer).length),
        parse limits (pattern ++ List.replicate j Mark.groupClose.byte) =
          .error (.unterminatedGroup (a :: outer)[j])) ∧
      ∀ j, (a :: outer).length ≤ j →
        ∃ ts, parse limits (pattern ++ List.replicate j Mark.groupClose.byte) = .ok ts) ∧
    ∀ a, parse limits pattern = .error (.unterminatedClass a) →
      ∃ more ts, parse limits (pattern ++ more) = .ok ts := by
  constructor
  · intro a h
    obtain ⟨outer, hopen⟩ := exists_leavesOpen_of_parse hnest h
    refine ⟨outer, fun opened => ?_, fun j hj => ?_, fun j hj => ?_⟩
    · exact ⟨fun h' => leavesOpen_unique hnest h' hopen, fun heq => heq ▸ hopen⟩
    · have hclosed := hopen.append_closers j
      rw [List.drop_eq_getElem_cons hj] at hclosed
      exact parse_of_leavesOpen_cons hnest hclosed
    · have hclosed := hopen.append_closers j
      rw [List.drop_eq_nil_of_le hj] at hclosed
      exact parse_of_leavesOpen_nil hnest hclosed
  · intro a h
    obtain ⟨r, hr, hf⟩ := finish_of_parse_of_isUnterminated h trivial
    rcases Reader.finish_eq_error hf with ⟨opened, scan, hm, -⟩ | ⟨_, _, -, he⟩ | ⟨_, -, he⟩ |
      ⟨_, -, he⟩
    · exact exists_parse_append_of_inClass hnest hr hm
    · cases he
    · cases he
    · cases he

/-- The patterns are `(a|(b`, with one closing parenthesis behind it or three, and `([a-`. -/
theorem parse_completed_of_two_groups :
    let limits : Limits := { nestLimit := 4294967295 }
    parse limits [40, 97, 124, 40, 98] = .error (.unterminatedGroup 3) ∧
    parse limits ([40, 97, 124, 40, 98] ++ List.replicate 1 41) = .error (.unterminatedGroup 0) ∧
    (∃ ts, parse limits ([40, 97, 124, 40, 98] ++ List.replicate 3 41) = .ok ts) ∧
    parse limits [40, 91, 97, 45] = .error (.unterminatedClass 1) ∧
    ∃ more ts, parse limits ([40, 91, 97, 45] ++ more) = .ok ts := by
  intro limits
  have hgroup : parse limits [40, 97, 124, 40, 98] = .error (.unterminatedGroup 3) := rfl
  have hclass : parse limits [40, 91, 97, 45] = .error (.unterminatedClass 1) := rfl
  have hliteral : ∀ b, Mark.ofByte? b = none → Derives 1000 .sequence true [b] [.literal b] := by
    intro b hb
    exact .append .empty (.bare (.literal (isLiteral_of_ofByte? true hb)))
  have houter : LeavesOpen 1000 [40, 97, 124] [0] :=
    .inside (.outside (.single .empty)) (.alternation (.single (hliteral 97 rfl)) .empty)
  have hopen : LeavesOpen 1000 [40, 97, 124, 40, 98] [3, 0] :=
    .inside houter (.single (hliteral 98 rfl))
  obtain ⟨outer, hunique, hfew, hmany⟩ := (parse_completed rfl [40, 97, 124, 40, 98]).1 3 hgroup
  cases (hunique [3, 0]).1 hopen
  exact ⟨hgroup, hfew 1 (by decide), hmany 3 (by decide), hclass,
    (parse_completed rfl [40, 91, 97, 45]).2 1 hclass⟩

end

end ByteRegex
