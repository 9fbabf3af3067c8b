import Majorant.Proofs.Magnitude.Degree
import Majorant.Tactic.LogLinear

/-!
# Quotients and comparisons of orders of magnitude

A comparison of two orders becomes a linear inequality by way of their quotient, whose logarithm is
the difference of theirs.
-/

namespace Majorant
namespace Magnitude
open Term

namespace Composed

variable {N : Variable → Prop} {a b : Term}

theorem quotient_spec (ha : Composed N a) (hb : Composed N b) :
    Amounts N (quotient a b) fun x => logarithm x a - logarithm x b :=
  ⟨((sizing N 0).quotient ha hb).1, fun x => ((sizing N x).quotient ha hb).2⟩

theorem comparable (h : Composed N a) : Statement.Comparable a :=
  Statement.comparable_of_isOrder h.isOrder h.evades

theorem relate_eq {r : Rel} (ha : Composed N a) (hb : Composed N b) (heq : r ≠ .eq) (hne : r ≠ .ne) :
    Statement.relate r a b = pure (app (.rel r) [a, b]) := by
  rw [Statement.relate_eq_settle ha.comparable hb.comparable (.inl ha.isOrder),
    Statement.decided?_of_isOrder ha.isOrder hb.isOrder heq hne]
  rfl

theorem relate_eq_of_ne (ha : Composed N a) (hb : Statement.Comparable b)
    (hstatement : b.isStatement = false) (hne : a ≠ b) :
    Statement.relate .eq a b = pure (app (.rel .eq) [a, b]) := by
  rw [Statement.relate_eq_settle ha.comparable hb (.inl ha.isOrder), Statement.decided?,
    Statement.equal?_of_isOrder ha.isOrder (.inl hstatement) hne]
  rfl

end Composed

/-- The inequality between logarithms that a comparison of orders becomes. -/
def comparison (r : Rel) (a b : Term) : Linear.Inequality Term :=
  ⟨monomials (quotient a b), (senseOf? r).getD .eq, 0⟩

namespace Composed

variable {N : Variable → Prop} {a b : Term} {r : Rel}

theorem logInequality_eq (ha : Composed N a) (hb : Composed N b) (hr : r ≠ .ne) :
    Tactic.logInequality (app (.rel r) [a, b]) = pure (comparison r a b) := by
  have hsense : (senseOf? r).map (fun s => (⟨monomials (quotient a b), s, 0⟩ : Linear.Inequality Term)) =
      some (comparison r a b) := by
    cases r <;> first | rfl | exact absurd rfl hr
  have hto : toInequality (app (.rel r) [a, b]) = pure (some (comparison r a b)) := by
    simp only [toInequality, asRel?]
    rw [(sizing N 0).div_eq ha hb, pure_bind, hsense]
  unfold Tactic.logInequality
  rw [hto, pure_bind]

/-- **The inequality says how the logarithms compare.** -/
theorem holdsAt_comparison (ha : Composed N a) (hb : Composed N b) (hr : r ≠ .ne) (x : Term → ℚ) :
    (comparison r a b).holdsAt x = true ↔ r.Compares (logarithm x a) (logarithm x b) := by
  obtain ⟨s, hs⟩ : ∃ s, senseOf? r = some s := by
    cases r <;> first | exact ⟨_, rfl⟩ | exact absurd rfl hr
  have hvalue : (comparison r a b).valueIn x = logarithm x (quotient a b) := by
    simp [Linear.Inequality.valueIn, comparison, logarithm, weigh]
  rw [Linear.Inequality.holdsAt_iff, Linear.Inequality.HoldsIn, hvalue, (ha.quotient_spec hb).2,
    ← Rel.compares_sub, ← Rel.compares_of_senseOf hs]
  simp [comparison, hs]

theorem of_mem_comparison (ha : Composed N a) (hb : Composed N b) {k : Term}
    (hk : k ∈ (comparison r a b).unknowns) : Composed N k ∧ IsBase k :=
  (ha.quotient_spec hb).1.of_mem_monomials k hk

end Composed

end Magnitude
end Majorant
