import Majorant.Magnitude.Monomial
import Majorant.Proofs.Linear.Certificate
import Majorant.Proofs.Outcome
import Majorant.Proofs.Term.Knowledge

/-!
# What comparisons say

A relation compares values of any linear order: numbers as well as exponents.
-/

namespace Majorant
namespace Rel

variable {K : Type} [LinearOrder K]

def Compares : Rel → K → K → Prop
  | le, x, y => x ≤ y
  | lt, x, y => x < y
  | ge, x, y => y ≤ x
  | gt, x, y => y < x
  | eq, x, y => x = y
  | ne, x, y => x ≠ y

theorem compares_negate (r : Rel) (x y : K) : r.negate.Compares x y ↔ ¬ r.Compares x y := by
  cases r <;> simp [negate, Compares]

theorem compares_sub [AddCommGroup K] [IsOrderedAddMonoid K] (r : Rel) (x y : K) :
    r.Compares (x - y) 0 ↔ r.Compares x y := by
  cases r <;> simp [Compares, sub_eq_zero]

theorem compares_of_senseOf {r : Rel} {s : Linear.Sense}
    (h : Magnitude.senseOf? r = some s) (x y : K) : s.Compares x y ↔ r.Compares x y := by
  cases r <;> cases h <;> rfl

end Rel

namespace Statement
open Term

/-- Nothing stands in the way of comparing the term with another one. -/
structure Comparable (t : Term) : Prop where
  ofLiteral : ofLiteral t = pure t
  evades : t.evades = false
  isQuantity : t.isQuantity = true
  isNot_extReal : t.isNot .extReal = false
  proper : t ≠ special .indeterminate

variable {a b : Term}

theorem differenceAnswers_of_comparable (ha : Comparable a) (hb : Comparable b)
    (horder : a.isOrder = true ∨ b.isOrder = false) : differenceAnswers a b = true := by
  unfold differenceAnswers
  rw [ha.isQuantity, hb.isQuantity, ha.evades, hb.evades]
  rcases horder with horder | horder <;> simp [horder]

/-- **Comparable terms are compared.** -/
theorem relate_eq_settle (ha : Comparable a) (hb : Comparable b)
    (horder : a.isOrder = true ∨ b.isOrder = false) (r : Rel) :
    relate r a b = pure (settle r a b (decided? r a b)) := by
  have hproper : (a ≠ special .indeterminate && b ≠ special .indeterminate) = true := by
    simp [ha.proper, hb.proper]
  have hequal : ∀ r, r = .eq ∨ r = .ne → a = b →
      settle r a b (decided? r a b) = truth (r == .eq) := by
    rintro _ (rfl | rfl) rfl <;> simp [decided?, equal?, settle]
  unfold relate
  rw [ha.ofLiteral, hb.ofLiteral, pure_bind, pure_bind]
  cases r with
  | eq | ne =>
    by_cases heq : a = b
    · rw [hequal _ (by simp) heq]
      simp [heq]
    · simp only [if_neg heq, differenceAnswers_of_comparable ha hb horder]
      rfl
  | _ =>
    simp only [ha.evades, hb.evades, ha.isNot_extReal, hb.isNot_extReal, hproper, ha.isQuantity,
      hb.isQuantity]
    rfl

theorem settle_cases (r : Rel) (a b : Term) (known : Option Bool) :
    settle r a b known = app (.rel r) [a, b] ∨ ∃ v, settle r a b known = truth v := by
  cases known with
  | none => exact .inl rfl
  | some v => exact .inr ⟨v, rfl⟩

theorem relate_cases {r : Rel} {c : Term} (ha : ofLiteral a = pure a) (hb : ofLiteral b = pure b)
    (hc : (relate r a b).result = .ok c) : c = app (.rel r) [a, b] ∨ ∃ v, c = truth v := by
  have hsettle : ∀ {known}, Except.ok (settle r a b known) = (.ok c : Except Failure Term) →
      c = app (.rel r) [a, b] ∨ ∃ v, c = truth v := by
    intro known heq
    rw [← Except.ok.inj heq]
    exact settle_cases r a b known
  unfold relate at hc
  rw [ha, hb, pure_bind, pure_bind] at hc
  cases r with
  | eq | ne =>
    dsimp only at hc
    split at hc
    · exact .inr ⟨_, (Except.ok.inj hc).symm⟩
    · obtain ⟨_, -, hc⟩ := Outcome.result_bind_eq_ok.1 hc
      exact hsettle hc
  | _ =>
    obtain ⟨_, -, hc⟩ := Outcome.result_bind_eq_ok.1 hc
    obtain ⟨_, -, hc⟩ := Outcome.result_bind_eq_ok.1 hc
    obtain ⟨_, -, hc⟩ := Outcome.result_bind_eq_ok.1 hc
    obtain ⟨_, -, hc⟩ := Outcome.result_bind_eq_ok.1 hc
    exact hsettle hc

theorem ofLiteral_error {t : Term} {e : Failure} (h : (ofLiteral t).result = .error e) :
    e = .unacceptable := by
  unfold ofLiteral at h
  split at h
  all_goals cases h
  rfl

theorem relate_error {r : Rel} {e : Failure} (h : (relate r a b).result = .error e) :
    e = .unacceptable ∨ e = .unanswerable ∨ e = .mistyped := by
  unfold relate at h
  rcases Outcome.result_bind_eq_error.1 h with h | ⟨a', -, h⟩
  · exact .inl (ofLiteral_error h)
  rcases Outcome.result_bind_eq_error.1 h with h | ⟨b', -, h⟩
  · exact .inl (ofLiteral_error h)
  cases r with
  | eq | ne =>
    dsimp only at h
    split at h
    · cases h
    rcases Outcome.result_bind_eq_error.1 h with h | ⟨_, -, h⟩
    · exact .inr (.inl (Outcome.eq_of_require_error h))
    · cases h
  | _ =>
    rcases Outcome.result_bind_eq_error.1 h with h | ⟨_, -, h⟩
    · exact .inr (.inl (Outcome.eq_of_require_error h))
    -- the remaining conditions are all on the sort of the sides
    rcases Outcome.result_bind_eq_error.1 h with h | ⟨_, -, h⟩
    · exact .inr (.inr (Outcome.eq_of_require_error h))
    rcases Outcome.result_bind_eq_error.1 h with h | ⟨_, -, h⟩
    · exact .inr (.inr (Outcome.eq_of_require_error h))
    rcases Outcome.result_bind_eq_error.1 h with h | ⟨_, -, h⟩
    · exact .inr (.inr (Outcome.eq_of_require_error h))
    · cases h

theorem facts_of_isOrder (h : a.isOrder = true) :
    a.facts = Knowledge.ofKind .order ∨ a.facts = Knowledge.unknown := by
  unfold isOrder at h
  split at h
  · rw [facts_var, eq_of_beq h]
    exact .inl rfl
  · exact .inr rfl
  · exact .inr rfl
  · exact .inr rfl
  · exact .inr rfl
  · exact .inr rfl
  · cases h

theorem ofLiteral_of_isOrder (h : a.isOrder = true) : ofLiteral a = pure a := by
  cases a with
  | lit => cases h
  | _ => rfl

theorem comparable_of_isOrder (h : a.isOrder = true) (hevades : a.evades = false) :
    Comparable a where
  ofLiteral := ofLiteral_of_isOrder h
  evades := hevades
  isQuantity := by
    unfold isOrder at h
    split at h <;> first | rfl | cases h
  isNot_extReal := by
    rw [Term.isNot]
    rcases facts_of_isOrder h with hfacts | hfacts <;> rw [hfacts] <;> decide
  proper := by
    rintro rfl
    cases h

theorem atLeast?_of_isOrder (h : a.isOrder = true) (b : Term) : atLeast? a b = none := by
  have hreal : a.is .extReal = false := by
    rw [Term.is]
    rcases facts_of_isOrder h with hfacts | hfacts <;> rw [hfacts] <;> decide
  unfold atLeast?
  split
  · cases h
  · rw [hreal]
    rfl

theorem equal?_of_isOrder (ha : a.isOrder = true) (hb : b.isStatement = false ∨ b.isOrder = true)
    (hne : a ≠ b) : equal? a b = none := by
  have hstatement : ∀ {t : Term}, t.isOrder = true → (∃ v, t = var v) ∨ t.isStatement = false := by
    intro t ht
    unfold isOrder at ht
    split at ht
    · exact .inl ⟨_, rfl⟩
    · exact .inr rfl
    · exact .inr rfl
    · exact .inr rfl
    · exact .inr rfl
    · exact .inr rfl
    · cases ht
  unfold equal?
  rw [if_neg hne]
  split
  · cases ha
  · rcases hstatement ha with ⟨v, rfl⟩ | hleft
    · simp [ha]
    · rcases hb with hb | hb
      · simp [ha, hleft, hb]
      · rcases hstatement hb with ⟨v, rfl⟩ | hright
        · simp [ha]
        · simp [ha, hleft, hright]

theorem decided?_of_isOrder {r : Rel} (ha : a.isOrder = true) (hb : b.isOrder = true) (heq : r ≠ .eq)
    (hne : r ≠ .ne) : decided? r a b = none := by
  cases r with
  | eq => exact absurd rfl heq
  | ne => exact absurd rfl hne
  | le => exact atLeast?_of_isOrder hb a
  | ge => exact atLeast?_of_isOrder ha b
  | lt => rw [decided?, atLeast?_of_isOrder ha b, Option.map_none]
  | gt => rw [decided?, atLeast?_of_isOrder hb a, Option.map_none]

/-- An equation of two orders is kept, unless they are the same term. -/
theorem relate_eq_of_isOrder (ha : a.isOrder = true) (hb : b.isOrder = true) :
    relate .eq a b = pure (if a = b then top else app (.rel .eq) [a, b]) := by
  unfold relate
  rw [ofLiteral_of_isOrder ha, ofLiteral_of_isOrder hb, pure_bind, pure_bind]
  by_cases heq : a = b
  · simp [heq, top]
  · have hanswers : differenceAnswers a b = true := by
      unfold differenceAnswers
      simp [ha]
    simp only [heq, if_false, hanswers, decided?, equal?_of_isOrder ha (.inr hb) heq]
    rfl

/-- **The comparison of two orders** is kept, unless it is an equation of an order with itself. -/
theorem relate_of_isOrder {r : Rel} (ha : a.isOrder = true) (hb : b.isOrder = true)
    (hevadesA : a.evades = false) (hevadesB : b.evades = false) :
    relate r a b = pure (app (.rel r) [a, b]) ∨
      a = b ∧ (r = .eq ∨ r = .ne) ∧ relate r a b = pure (truth (r == .eq)) := by
  have hsettle := relate_eq_settle (comparable_of_isOrder ha hevadesA)
    (comparable_of_isOrder hb hevadesB) (.inl ha) r
  by_cases hr : r = .eq ∨ r = .ne
  · by_cases heq : a = b
    · refine .inr ⟨heq, hr, ?_⟩
      rw [hsettle]
      subst heq
      rcases hr with rfl | rfl
      · simp [decided?, equal?, settle]
      · simp only [decided?, equal?, if_true, Option.map_some, settle]
        rfl
    · have hopen : decided? r a b = none := by
        rcases hr with rfl | rfl <;> simp [decided?, equal?_of_isOrder ha (.inr hb) heq]
      rw [hsettle, hopen]
      exact .inl rfl
  · rw [not_or] at hr
    rw [hsettle, decided?_of_isOrder ha hb hr.1 hr.2]
    exact .inl rfl

end Statement
end Majorant
