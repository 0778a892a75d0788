import ByteRegex.Proofs.FragmentWiring
import Mathlib.Logic.Relation

/-!
# Paths through fragments

Every state of a fragment is on a path from its entry to its exit, whatever the symbols on the way.
A class without members would break such a path, so this depends on what the rules of wiring say
about classes.
-/

namespace ByteRegex

def Joined (G : Set Edge) (p q : Nat) : Prop := ∃ s, ⟨p, s, q⟩ ∈ G

def Leads (G : Set Edge) : Nat → Nat → Prop := Relation.ReflTransGen (Joined G)

def Spans (G : Set Edge) (S : Set Nat) (start stop : Nat) : Prop :=
  ∀ q ∈ S, Leads G start q ∧ Leads G q stop

section

variable {G H : Set Edge} {S T : Set Nat} {n p q r s : Nat}

theorem leads_silent (h : Edge.silent p q ∈ G) : Leads G p q := .single ⟨.epsilon, h⟩

theorem Leads.mono (h : Leads G p q) (hGH : G ⊆ H) : Leads H p q := by
  apply Relation.ReflTransGen.mono _ p q h
  rintro p q ⟨s, he⟩
  exact ⟨s, hGH he⟩

/-! ## Spanning -/

theorem Spans.mono (h : Spans G S p q) (hGH : G ⊆ H) : Spans H S p q := by
  intro r hr
  exact ⟨(h r hr).1.mono hGH, (h r hr).2.mono hGH⟩

theorem Spans.subset (h : Spans G S p q) (hT : T ⊆ S) : Spans G T p q := fun r hr => h r (hT hr)

theorem Spans.union (h : Spans G S p q) (h' : Spans G T p q) : Spans G (S ∪ T) p q := by
  intro r hr
  cases hr with
  | inl hr => exact h r hr
  | inr hr => exact h' r hr

theorem spans_singleton (G : Set Edge) (q : Nat) : Spans G {q} q q := by
  rintro r rfl
  exact ⟨.refl, .refl⟩

theorem Spans.append (h : Spans G S p q) (h' : Spans G T r s) (hq : q ∈ S) (hr : r ∈ T)
    (hlink : Leads G q r) : Spans G (S ∪ T) p s := by
  intro t ht
  cases ht with
  | inl ht => exact ⟨(h t ht).1, ((h t ht).2.trans hlink).trans (h' r hr).2⟩
  | inr ht => exact ⟨((h q hq).1.trans hlink).trans (h' t ht).1, (h' t ht).2⟩

/-- A further state before a graph. -/
theorem Spans.prepend (h : Spans G S q r) (hq : q ∈ S) (hlink : Leads G p q) :
    Spans G ({p} ∪ S) p r := (spans_singleton G p).append h rfl hq hlink

/-- A further state behind a graph. -/
theorem Spans.extend (h : Spans G S p q) (hq : q ∈ S) (hlink : Leads G q r) :
    Spans G (S ∪ {r}) p r := h.append (spans_singleton G r) hq rfl hlink

theorem spans_symbols {A : Set Symbol} (hA : A.Nonempty) (n : Nat) :
    Spans {e | e.source = n ∧ e.symbol ∈ A ∧ e.target = n + 1} {q | n ≤ q ∧ q < n + 2}
      n (n + 1) := by
  obtain ⟨s, hs⟩ := hA
  have hlink : Leads {e | e.source = n ∧ e.symbol ∈ A ∧ e.target = n + 1} n (n + 1) :=
    .single ⟨s, rfl, hs, rfl⟩
  refine ((spans_singleton _ n).extend rfl hlink).subset ?_
  rintro q ⟨hn, hlt⟩
  have hq : q = n ∨ q = n + 1 := by omega
  exact hq

end

/-! ## Fragments -/

namespace Part

/-- The states on paths through a fragment. The exit of a repetition is not among them before the
last copy is linked to it. -/
def states (n m : Nat) : Part → Set Nat
  | term _ => {q | n ≤ q ∧ q < m}
  | list _ => {q | n ≤ q ∧ q < m}
  | copies _ _ _ => {q | (n ≤ q ∧ q < m) ∧ q ≠ n + 1}

def entry (n start : Nat) : Part → Nat
  | term _ => start
  | list _ => start
  | copies _ _ _ => n

end Part

/-- Either branch leads from the new entry to the new exit. -/
theorem Spans.branch {G H : Set Edge} {n m p start stop : Nat}
    (h : Spans G {q | m ≤ q ∧ q < p} start stop) (hstart : m ≤ start ∧ start < p)
    (hstop : m ≤ stop ∧ stop < p) (hG : G ⊆ H) (hin : Edge.silent n start ∈ H)
    (hout : Edge.silent stop (n + 1) ∈ H) :
    Spans H ({n} ∪ {q | m ≤ q ∧ q < p} ∪ {n + 1}) n (n + 1) :=
  ((h.mono hG).prepend hstart (leads_silent hin)).extend (.inr hstop) (leads_silent hout)

theorem Wires.stop_mem {part : Part} {G : Set Edge} {n m start stop : Nat}
    (h : Wires part G n m start stop) : stop ∈ part.states n m := by
  have hstop := h.bounds.2
  cases part with
  | term t => exact hstop
  | list ts => exact hstop
  | copies body min before =>
    have hframe : n + 2 ≤ stop := hstop.1
    exact ⟨⟨by omega, hstop.2⟩, by omega⟩

theorem Wires.spans {part : Part} {G : Set Edge} {n m start stop : Nat}
    (h : Wires part G n m start stop) :
    Spans G (part.states n m) (part.entry n start) stop := by
  induction h with
  | literal => exact spans_symbols (Set.singleton_nonempty _) _
  | @charSet c n hc =>
    obtain ⟨b, hb⟩ := ByteClass.members_ne_nil.1 hc
    have hsymbols : {s | ∃ b ∈ c, s = Symbol.byte b}.Nonempty := ⟨.byte b, b, hb, rfl⟩
    exact spans_symbols hsymbols n
  | group _ ih => exact ih
  | @alternation l r G H n m p start stop first last hl hr ihl ihr =>
    have hstart : n + 2 ≤ start ∧ start < m := hl.bounds.1
    have hlast : m ≤ last ∧ last < p := hr.bounds.2
    apply Spans.subset
    · apply Spans.union
      · exact Spans.branch ihl hstart hl.bounds.2 (fun e he => .inr (.inr (.inr (.inr (.inl he)))))
          (.inr (.inr (.inr (.inl rfl)))) (.inr (.inl rfl))
      · exact Spans.branch ihr hr.bounds.1 hlast (fun e he => .inr (.inr (.inr (.inr (.inr he)))))
          (.inr (.inr (.inl rfl))) (.inl rfl)
    · intro q hq
      simp only [Part.states, Part.entry, Set.mem_ofPred_eq, Set.mem_union,
        Set.mem_singleton_iff] at hq ⊢
      omega
  | @firstCopy t min G n m start stop ht ih =>
    have hstart : n + 2 ≤ start ∧ start < m := ht.bounds.1
    refine Spans.subset (Spans.prepend (ih.mono fun e he => .inr (.inr he)) hstart
      (leads_silent (.inl rfl))) ?_
    intro q hq
    simp only [Part.states, Part.entry, Set.mem_ofPred_eq, Set.mem_union,
      Set.mem_singleton_iff] at hq ⊢
    omega
  | @nextCopy t min before G H n m p start stop first last hc ht ihc iht =>
    have hstop : n + 2 ≤ stop ∧ stop < m := hc.bounds.2
    have hfirst : m ≤ first ∧ first < p := ht.bounds.1
    refine Spans.subset (Spans.append (ihc.mono fun e he => .inr (.inr (.inl he)))
      (iht.mono fun e he => .inr (.inr (.inr he))) hc.stop_mem hfirst
      (leads_silent (.inr (.inl rfl)))) ?_
    intro q hq
    simp only [Part.states, Set.mem_ofPred_eq, Set.mem_union] at hq ⊢
    omega
  | @repetition t min before max G n m start stop _ _ hc ih =>
    have hstop : n + 2 ≤ stop ∧ stop < m := hc.bounds.2
    refine Spans.subset (Spans.extend (ih.mono fun e he => .inr (.inr he)) hc.stop_mem
      (leads_silent (.inr (.inl rfl)))) ?_
    intro q hq
    simp only [Part.states, Set.mem_ofPred_eq, Set.mem_union, Set.mem_singleton_iff] at hq ⊢
    omega
  | @empty n =>
    refine (spans_singleton ∅ n).subset ?_
    intro q hq
    exact Nat.le_antisymm (Nat.le_of_lt_succ hq.2) hq.1
  | single _ ih => exact ih
  | @append ts t G H n m p start stop first last _ hts ht ihs iht =>
    have hfirst : m ≤ first ∧ first < p := ht.bounds.1
    refine Spans.subset (Spans.append (ihs.mono fun e he => .inr (.inl he))
      (iht.mono fun e he => .inr (.inr he)) hts.stop_mem hfirst (leads_silent (.inl rfl))) ?_
    intro q hq
    simp only [Part.states, Set.mem_ofPred_eq, Set.mem_union] at hq ⊢
    omega

end ByteRegex
