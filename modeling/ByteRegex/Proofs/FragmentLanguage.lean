import ByteRegex.Proofs.FragmentWiring

/-!
# Languages of fragments

Each rule of wiring is one of the ways to join graphs, so a fragment spells the language of the
term or the list of terms that it stands for.
-/

namespace ByteRegex

namespace Term

theorem language_literal (b : UInt8) :
    (literal b).language = {w | ∃ s ∈ ({.byte b} : Set Symbol), w = s.bytes} := by
  ext w
  constructor
  · intro hw
    exact ⟨.byte b, rfl, hw⟩
  · rintro ⟨s, rfl, hw⟩
    exact hw

theorem language_charSet (c : ByteClass) :
    (charSet c).language = {w | ∃ s ∈ {s | ∃ b ∈ c, s = Symbol.byte b}, w = s.bytes} := by
  ext w
  constructor
  · rintro ⟨b, hb, rfl⟩
    exact ⟨.byte b, ⟨b, hb, rfl⟩, rfl⟩
  · rintro ⟨s, ⟨b, hb, rfl⟩, rfl⟩
    exact ⟨b, hb, rfl⟩

theorem languageAll_append (ts us : List Term) :
    languageAll (ts ++ us) = languageAll ts * languageAll us := by
  induction ts with
  | nil => rw [List.nil_append, languageAll, one_mul]
  | cons t ts ih => rw [List.cons_append, languageAll, languageAll, ih, mul_assoc]

theorem languageAll_singleton (t : Term) : languageAll [t] = t.language := by
  rw [languageAll, languageAll, mul_one]

end Term

def Part.Denotes (G : Set Edge) (n m start stop : Nat) : Part → Prop
  | term t => Spells G n m start stop t.language
  | list ts => Spells G n m start stop (Term.languageAll ts)
  | copies body min before => Unrolls G n m start stop body.language min before

theorem Wires.denotes {part : Part} {G : Set Edge} {n m start stop : Nat}
    (h : Wires part G n m start stop) : part.Denotes G n m start stop := by
  induction h with
  | @literal b n =>
    rw [Part.Denotes, Term.language_literal]
    exact spells_symbols {.byte b} n
  | @charSet c n hc =>
    rw [Part.Denotes, Term.language_charSet]
    exact spells_symbols _ n
  | group _ ih => exact ih
  | alternation _ _ ihl ihr => exact ihl.alternate ihr
  | firstCopy _ ih => exact ih.unrolls _
  | nextCopy _ _ ihc iht => exact ihc.extend iht
  | @repetition _ min before max _ _ _ _ _ hbound hcopies _ ih =>
    apply Unrolls.close ih
    · rw [← hcopies]
      exact Arena.le_copies fun n hn => (hbound n hn).1
    · rintro n rfl
      exact hcopies
  | @empty n => exact spells_one n
  | @single t =>
    rw [Part.Denotes, Term.languageAll_singleton]
    assumption
  | @append ts t _ _ _ _ _ _ _ _ _ _ _ _ ihs iht =>
    rw [Part.Denotes, Term.languageAll_append, Term.languageAll_singleton]
    exact ihs.append iht

theorem Wires.spells {ts : List Term} {G : Set Edge} {n m start stop : Nat}
    (h : Wires (.list ts) G n m start stop) :
    Spells G n m start stop (Term.languageAll ts) := h.denotes

end ByteRegex
