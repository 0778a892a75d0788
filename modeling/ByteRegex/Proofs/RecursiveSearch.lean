import ByteRegex.Log
import ByteRegex.Proofs.SearchExactness

/-!
# Recursive search

The same depth-first search told by recursion: a configuration is entered once, and the targets of
its transitions are explored one after the other, in order, until one of them leads to an accepting
configuration. The stack of a search holds the calls that the recursion has still to make, so both
end with the same verdict and the same memo. Calls within one another enter different
configurations, so the recursion is no deeper than the memo is large in the end.
-/

namespace ByteRegex

namespace Nfa

def firstOf (call : Config → Memo → Option (Bool × Memo)) :
    List Config → Memo → Option (Bool × Memo)
  | [], memo => some (false, memo)
  | c :: cs, memo => do
    let (found, memo) ← call c memo
    if found then some (true, memo) else firstOf call cs memo

/-- Whether an accepting configuration is found from `c` on, and the memo after that. There is no
result if more than `depth` calls would have to be made within one another. -/
def explore (a : Nfa) (input : Array UInt8) :
    (depth : Nat) → Config → Memo → Option (Bool × Memo)
  | 0, _, _ => none
  | depth + 1, c, memo =>
    let silent := (a.targets c.state .epsilon).map (Config.mk · c.pos)
    if c ∈ memo then some (false, memo)
    else
      match input[c.pos]? with
      | none =>
        if (a.state c.state).isAccept then some (true, memo.enter c)
        else firstOf (explore a input depth) silent (memo.enter c)
      | some b => do
        let consuming := (a.targets c.state (.byte b)).map (Config.mk · (c.pos + 1))
        let (found, memo) ← firstOf (explore a input depth) consuming (memo.enter c)
        if found then some (true, memo) else firstOf (explore a input depth) silent memo

def unlessFound (next : Memo → Option (Bool × Memo)) (o : Bool × Memo) : Option (Bool × Memo) :=
  if o.1 then some (true, o.2) else next o.2

section

variable {call call' : Config → Memo → Option (Bool × Memo)}

theorem firstOf_cons (c : Config) (cs : List Config) (memo : Memo) :
    firstOf call (c :: cs) memo = (call c memo).bind (unlessFound (firstOf call cs)) := rfl

theorem firstOf_append (cs ds : List Config) (memo : Memo) :
    firstOf call (cs ++ ds) memo =
      (firstOf call cs memo).bind (unlessFound (firstOf call ds)) := by
  induction cs generalizing memo with
  | nil => rfl
  | cons c cs ih =>
    rw [List.cons_append, firstOf_cons, firstOf_cons, Option.bind_assoc]
    congr 1
    funext ⟨found, memo⟩
    cases found with
    | true => rfl
    | false => exact ih memo

theorem firstOf_singleton (c : Config) (memo : Memo) : firstOf call [c] memo = call c memo := by
  rw [firstOf_cons]
  cases call c memo with
  | none => rfl
  | some o =>
    obtain ⟨found, memo⟩ := o
    cases found <;> rfl

theorem unlessFound_mono {next next' : Memo → Option (Bool × Memo)} {o o' : Bool × Memo}
    (h : ∀ memo, next memo = some o' → next' memo = some o')
    (ho : unlessFound next o = some o') : unlessFound next' o = some o' := by
  obtain ⟨found, memo⟩ := o
  cases found with
  | true => exact ho
  | false => exact h memo ho

theorem firstOf_mono (h : ∀ c memo o, call c memo = some o → call' c memo = some o)
    {cs : List Config} {memo : Memo} {o : Bool × Memo} (ho : firstOf call cs memo = some o) :
    firstOf call' cs memo = some o := by
  induction cs generalizing memo with
  | nil => exact ho
  | cons c cs ih =>
    rw [firstOf_cons] at ho ⊢
    obtain ⟨p, hp, ho⟩ := Option.bind_eq_some_iff.1 ho
    exact Option.bind_eq_some_iff.2 ⟨p, h _ _ _ hp, unlessFound_mono (fun _ => ih) ho⟩

end

/-! ## Equations of the recursion -/

variable {a : Nfa} {input : Array UInt8} {depth : Nat} {c : Config} {cs : List Config} {memo : Memo}
  {o : Bool × Memo}

theorem explore_of_mem (hc : c ∈ memo) :
    a.explore input (depth + 1) c memo = some (false, memo) := by
  rw [explore, if_pos hc]

theorem explore_of_accepts (hc : c ∉ memo) (h : a.accepts input c = true) :
    a.explore input (depth + 1) c memo = some (true, memo.enter c) := by
  obtain ⟨hend, haccept⟩ := Bool.and_eq_true_iff.1 h
  have hnone : input[c.pos]? = none := Array.getElem?_eq_none (of_decide_eq_true hend)
  rw [explore, if_neg hc, hnone]
  exact if_pos haccept

/-- The moves of a configuration are what it has to explore, in this order. -/
theorem explore_of_rejects (hc : c ∉ memo) (h : a.accepts input c = false) :
    a.explore input (depth + 1) c memo =
      firstOf (a.explore input depth) (a.moves input c) (memo.enter c) := by
  rw [explore, if_neg hc, moves]
  cases hb : input[c.pos]? with
  | none =>
    have hend : input.size ≤ c.pos := Array.getElem?_eq_none_iff.1 hb
    have haccept : (a.state c.state).isAccept = false := by simpa [accepts, hend] using h
    simp only [haccept, Bool.false_eq_true, if_false]
  | some b =>
    rw [firstOf_append]
    rfl

/-- A result does not change when more calls may be made within one another. -/
theorem explore_succ (h : a.explore input depth c memo = some o) :
    a.explore input (depth + 1) c memo = some o := by
  induction depth generalizing c memo o with
  | zero => cases h
  | succ depth ih =>
    by_cases hc : c ∈ memo
    · rw [explore_of_mem hc] at h ⊢
      exact h
    · cases haccepts : a.accepts input c with
      | true =>
        rw [explore_of_accepts hc haccepts] at h ⊢
        exact h
      | false =>
        rw [explore_of_rejects hc haccepts] at h ⊢
        exact firstOf_mono (fun _ _ _ => ih) h

/-! ## Stacks of calls -/

theorem firstOf_cons_of_mem (hc : c ∈ memo) :
    firstOf (a.explore input (depth + 1)) (c :: cs) memo =
      firstOf (a.explore input (depth + 1)) cs memo := by
  rw [firstOf_cons, explore_of_mem hc]
  rfl

theorem firstOf_cons_of_accepts (hc : c ∉ memo) (h : a.accepts input c = true) :
    firstOf (a.explore input (depth + 1)) (c :: cs) memo = some (true, memo.enter c) := by
  rw [firstOf_cons, explore_of_accepts hc h]
  rfl

/-- Calls for the moves of a configuration, in its place, find and enter the same. -/
theorem firstOf_cons_of_rejects (hc : c ∉ memo) (h : a.accepts input c = false)
    (ho : firstOf (a.explore input depth) (a.moves input c ++ cs) (memo.enter c) = some o) :
    firstOf (a.explore input (depth + 1)) (c :: cs) memo = some o := by
  rw [firstOf_append] at ho
  obtain ⟨p, hp, ho⟩ := Option.bind_eq_some_iff.1 ho
  rw [firstOf_cons, explore_of_rejects hc h, hp]
  refine unlessFound_mono (fun _ hcs => ?_) ho
  exact firstOf_mono (fun _ _ _ => explore_succ) hcs

end Nfa

/-! ## Searches and recursion -/

theorem Memo.size_enter (c : Config) (m : Memo) : (m.enter c).size = m.size + 1 :=
  Array.size_push c

namespace Search

variable {a : Nfa} {input : Array UInt8}

theorem Turn.size_memo_le {s t : Search} (h : Turn a input s t) : s.memo.size ≤ t.memo.size := by
  cases h with
  | skip _ => exact Nat.le_refl _
  | accept _ _ => exact (Nat.le_succ _).trans_eq (Memo.size_enter _ _).symm
  | expand _ _ => exact (Nat.le_succ _).trans_eq (Memo.size_enter _ _).symm

/-- What the recursion finds and enters from the stack of a search on, if up to `total`
configurations may be entered on the way down. -/
def outlook (a : Nfa) (input : Array UInt8) (total : Nat) (s : Search) : Option (Bool × Memo) :=
  if s.accepted then some (true, s.memo)
  else Nfa.firstOf (a.explore input (total - s.memo.size)) s.stack s.memo

theorem outlook_active (cs : List Config) (memo : Memo) (total : Nat) :
    outlook a input total ⟨cs, memo, false⟩ =
      Nfa.firstOf (a.explore input (total - memo.size)) cs memo := rfl

theorem outlook_of_isOver {s : Search} (h : s.isOver = true) (total : Nat) :
    s.outlook a input total = some (s.accepted, s.memo) := by
  obtain ⟨stack, memo, accepted⟩ := s
  cases accepted with
  | true => rfl
  | false =>
    obtain rfl : stack = [] := List.isEmpty_iff.1 h
    rfl

theorem outlook_init (a : Nfa) (input : Array UInt8) (total : Nat) :
    (init a).outlook a input total = a.explore input total a.root {} :=
  Nfa.firstOf_singleton a.root {}

/-- A turn puts on the stack what the recursion would call. -/
theorem outlook_of_turn {s t : Search} {total : Nat} {o : Bool × Memo} (h : Turn a input s t)
    (hsize : s.memo.size < total) (ho : t.outlook a input total = some o) :
    s.outlook a input total = some o := by
  obtain ⟨depth, hdepth⟩ := Nat.exists_eq_add_one.2 (Nat.sub_pos_of_lt hsize)
  cases h with
  | @skip c rest memo hc =>
    change total - memo.size = depth + 1 at hdepth
    rw [outlook_active, hdepth] at ho ⊢
    rw [Nfa.firstOf_cons_of_mem hc]
    exact ho
  | @accept c rest memo hc haccepts =>
    change total - memo.size = depth + 1 at hdepth
    rw [outlook_active, hdepth, Nfa.firstOf_cons_of_accepts hc haccepts]
    exact ho
  | @expand c rest memo hc hrejects =>
    change total - memo.size = depth + 1 at hdepth
    have henter : total - (memo.enter c).size = depth := by
      rw [Memo.size_enter]
      omega
    rw [outlook_active, henter] at ho
    rw [outlook_active, hdepth]
    exact Nfa.firstOf_cons_of_rejects hc hrejects ho

theorem After.outlook {n : Nat} {s : Search} {total : Nat} {o : Bool × Memo}
    (h : After a input n s) (hsize : s.memo.size < total)
    (ho : s.outlook a input total = some o) : (init a).outlook a input total = some o := by
  induction h with
  | start => exact ho
  | turn _ ht ih =>
    have hbefore := Nat.lt_of_le_of_lt ht.size_memo_le hsize
    exact ih hbefore (outlook_of_turn ht hbefore ho)

end Search

namespace Nfa

/-- The recursion ends, with the verdict of the search and with the same configurations entered in
the same order, and a match is logged with their number. -/
theorem explore_root_eq_search (a : Nfa) (input : List UInt8) :
    ∃ found memo, (∀ depth, memo.size < depth →
        a.explore input.toArray depth a.root {} = some (found, memo)) ∧
      (a.search input).accepted = found ∧ (a.search input).memo.entered = memo.entered ∧
      ∀ r : Regex, r.nfa = a → (r.matchRecord input).message =
        s!"match over {input.length} bytes explored {memo.size} state/position pairs: " ++
          toString found := by
  obtain ⟨hover, turns, h⟩ := a.search_isOver input
  refine ⟨(a.search input).accepted, (a.search input).memo, fun depth hdepth => ?_, rfl, rfl, ?_⟩
  · rw [← Search.outlook_init]
    exact h.outlook hdepth (Search.outlook_of_isOver hover depth)
  · rintro r rfl
    rfl

end Nfa

end ByteRegex
