import ByteRegex.Proofs.AutomatonLanguage
import ByteRegex.Proofs.GrammarSoundness
import ByteRegex.Proofs.SearchExactness
import ByteRegex.Regex

/-!
# Languages of compiled patterns

A search reaches an accepting configuration exactly if the automaton accepts the input as a word, so
a compiled pattern matches exactly the language of the terms that it was read into.
-/

namespace ByteRegex

namespace Nfa

variable {a : Nfa} {input : Array UInt8}

/-- A path over configurations spells the bytes behind its first position. -/
theorem exists_reaches_of_accepts {q pos : Nat} (h : a.Accepts q (input.toList.drop pos)) :
    ∃ c, a.Reaches input ⟨q, pos⟩ c ∧ a.accepts input c = true := by
  generalize hw : input.toList.drop pos = w at h
  induction h generalizing pos with
  | @accept q hq =>
    refine ⟨⟨q, pos⟩, .refl, ?_⟩
    have hend : input.size ≤ pos := by simpa using hw
    simp [accepts, hend, hq]
  | @move q q' s w ht _ ih =>
    cases s with
    | epsilon =>
      have hmove : Config.mk q' pos ∈ a.moves input ⟨q, pos⟩ := mem_moves_iff.2 (.inr ⟨ht, rfl⟩)
      obtain ⟨c, hc, haccepts⟩ := ih hw
      exact ⟨c, .head hmove hc, haccepts⟩
    | byte b =>
      have hdrop : input.toList.drop pos = b :: w := hw
      have hb : input[pos]? = some b := by
        have hhead := congrArg List.head? hdrop
        simpa using hhead
      have hrest : input.toList.drop (pos + 1) = w := by
        rw [← List.tail_drop, hdrop, List.tail_cons]
      have hmove : Config.mk q' (pos + 1) ∈ a.moves input ⟨q, pos⟩ :=
        mem_moves_iff.2 (.inl ⟨b, hb, ht, rfl⟩)
      obtain ⟨c, hc, haccepts⟩ := ih hrest
      exact ⟨c, .head hmove hc, haccepts⟩

theorem accepts_of_reaches {c d : Config} (h : a.Reaches input c d)
    (haccepts : a.accepts input d = true) : a.Accepts c.state (input.toList.drop c.pos) := by
  induction h using Relation.ReflTransGen.head_induction_on with
  | refl =>
    obtain ⟨hend, hq⟩ := Bool.and_eq_true_iff.1 haccepts
    have hdrop : input.toList.drop d.pos = [] := by simpa using hend
    rw [hdrop]
    exact .accept hq
  | @head c e he _ ih =>
    rcases mem_moves_iff.1 he with ⟨b, hb, ht, hpos⟩ | ⟨ht, hpos⟩
    · have hdrop : input.toList.drop c.pos = b :: input.toList.drop e.pos := by
        obtain ⟨hlt, hget⟩ := Array.getElem?_eq_some_iff.1 hb
        rw [hpos, List.drop_eq_getElem_cons (by simpa using hlt), Array.getElem_toList, hget]
      rw [hdrop]
      exact .move ht ih
    · rw [hpos] at ih
      exact .move ht ih

theorem search_accepted_iff_mem_language {w : List UInt8} :
    (a.search w).accepted = true ↔ w ∈ a.language a.start := by
  rw [search_accepted_iff]
  constructor
  · rintro ⟨c, hc, haccepts⟩
    exact accepts_of_reaches hc haccepts
  · intro hw
    have hroot : a.Accepts a.start (w.toArray.toList.drop 0) := hw
    exact exists_reaches_of_accepts hroot

end Nfa

namespace Regex

/-- A compiled pattern matches exactly the words of its terms. -/
theorem isMatch_iff_mem_language {limits : Limits} {pattern : List UInt8} {r : Regex}
    (h : compile limits pattern = .ok r) :
    ∃ ts, parse limits pattern = .ok ts ∧
      ∀ input, r.isMatch input = true ↔ input ∈ Term.languageAll ts := by
  obtain ⟨hp, hn, -⟩ := compile_eq_ok_iff.1 h
  refine ⟨r.terms, hp, fun input => ?_⟩
  rw [← Nfa.language_start (parses_of_parse hp).every_isSound hn]
  exact Nfa.search_accepted_iff_mem_language

/-- The pattern is `(a|b)*`. -/
theorem isMatch_iff_of_repeated_group :
    ∃ r, compile {} [40, 97, 124, 98, 41, 42] = .ok r ∧
      ∃ ts, parse {} [40, 97, 124, 98, 41, 42] = .ok ts ∧
        ∀ input, r.isMatch input = true ↔ input ∈ Term.languageAll ts :=
  ⟨_, rfl, isMatch_iff_mem_language rfl⟩

end Regex

end ByteRegex
