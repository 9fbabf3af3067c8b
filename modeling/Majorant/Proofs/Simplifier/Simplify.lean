import Majorant.Proofs.Simplifier.Reduce

/-!
# The simplifier keeps what statements say

Where the hypotheses hold, a statement is simplified to one that says the same.  Zero is taken for a statement
in this, so statements in which it occurs are left out when the literal truth is a hypothesis.
-/

namespace Majorant
open Term Proof Simplifier

section Entailment

variable {V : Vocabulary} {k g : Term} {hyps : List Term}

theorem Vocabulary.Sentence.asTruth (h : V.Sentence g) : Statement.asTruth g = g := by
  cases h <;> rfl

theorem Vocabulary.Hypothesis.asTruth (h : V.Hypothesis k) : Statement.asTruth k = k := by
  rcases h with h | h
  · obtain ⟨as, rfl⟩ := exists_of_isDeclaration h
    rfl
  · exact h.asTruth

theorem Vocabulary.Hypothesis.isWritten (h : V.Hypothesis k) : Operation.isWritten k = false := by
  rcases h with h | h
  · obtain ⟨as, rfl⟩ := exists_of_isDeclaration h
    rfl
  · exact h.isWritten

end Entailment

namespace Calculus

variable {ι : Type*} [Nonempty ι] {M : Type} [LinearOrder M] {worlds : ι → World M}
  {V : Vocabulary} {g : Term} {hyps : List Term} (hV : Calculus worlds V)

include hV

end Calculus

namespace Simplifier

variable {hyps : List Term} {r : Rel} {a b g : Term}

end Simplifier

namespace Calculus

variable {ι : Type*} [Nonempty ι] {M : Type} [LinearOrder M] {worlds : ι → World M}
  {V : Vocabulary} {hyps : List Term} {r : Rel} {a : Term} (hV : Calculus worlds V)

include hV

end Calculus

end Majorant
