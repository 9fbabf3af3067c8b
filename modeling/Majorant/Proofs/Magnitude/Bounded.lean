import Majorant.Proofs.Magnitude.Quotient

/-!
# Constant orders of magnitude

Without hypotheses that mark a term, only terms without variables are recognised as fixed or
bounded.
-/

namespace Majorant
namespace Magnitude
open Term

theorem isNumberList_iff {ts : List Term} :
    isNumberList ts = true ↔ ∀ t ∈ ts, t.isNumber = true := by
  induction ts with
  | nil => simp [isNumberList]
  | cons t ts ih => simp [isNumberList, ih]

theorem areFixed_iff {hyps ts : List Term} :
    areFixed hyps ts = true ↔ ∀ t ∈ ts, isFixed hyps t = true := by
  induction ts with
  | nil => simp [areFixed]
  | cons t ts ih => simp [areFixed, ih]

theorem areBounded_iff {hyps ts : List Term} :
    areBounded hyps ts = true ↔ ∀ t ∈ ts, isBounded hyps t = true := by
  induction ts with
  | nil => simp [areBounded]
  | cons t ts ih => simp [areBounded, ih]

/-- No hypothesis marks a term as fixed or bounded. -/
def Unmarked (hyps : List Term) : Prop := ∀ t, app .fixed [t] ∉ hyps ∧ app .bounded [t] ∉ hyps

variable {hyps : List Term}

theorem Unmarked.markedFixed (h : Unmarked hyps) (t : Term) : markedFixed hyps t = false := by
  simpa [Magnitude.markedFixed] using (h t).1

theorem Unmarked.markedBounded (h : Unmarked hyps) (t : Term) : markedBounded hyps t = false := by
  simpa [Magnitude.markedBounded] using h t

/-- A test that finds no variable, and finds a quantity only if it is a number or if it finds all of its
arguments. -/
structure FindsNumbers (found : Term → Bool) : Prop where
  var : ∀ v, v.kind ≠ .prop → found (var v) = false
  app : ∀ h as, h.isQuantity = true → found (app h as) = true →
    (app h as).isNumber = true ∨ ∀ a ∈ as, found a = true

theorem findsNumbers_isFixed (h : Unmarked hyps) : FindsNumbers (isFixed hyps) where
  var v _ := by simp [isFixed, isNumber, h.markedFixed]
  app g as _ hfound := by
    unfold isFixed at hfound
    rw [h.markedFixed, Bool.or_false, Bool.or_eq_true, Bool.and_eq_true] at hfound
    exact hfound.imp_right fun hall => areFixed_iff.1 hall.2

theorem findsNumbers_isBounded (h : Unmarked hyps) : FindsNumbers (isBounded hyps) where
  var v hv := by simp [isBounded, isNumber, h.markedBounded, isTwoValued, hv]
  app g as hg hfound := by
    have htwo : isTwoValued (app g as) = false := by cases g <;> first | rfl | cases hg
    unfold isBounded at hfound
    rw [h.markedBounded, htwo, Bool.or_false, Bool.or_false, Bool.or_eq_true,
      Bool.or_eq_true, Bool.and_eq_true, Bool.and_eq_true, Bool.and_eq_true] at hfound
    rcases hfound with (hnumber | hall) | hall
    · exact .inl hnumber
    · exact .inr (areBounded_iff.1 hall.2)
    · exact .inr (areBounded_iff.1 hall.1.2)

theorem isNumber_app {h : Head} {as : List Term} (hh : h.isQuantity = true) :
    (app h as).isNumber = true ↔ ∀ a ∈ as, a.isNumber = true := by
  rw [isNumber, hh, Bool.true_and, isNumberList_iff]

namespace Composed

variable {N : Variable → Prop} {t : Term}

theorem isQuantity_of_extremum {h : Head} (hh : h = .orderMax ∨ h = .orderMin) :
    h.isQuantity = true := by
  rcases hh with rfl | rfl <;> rfl

theorem isNumber_of_found {found : Term → Bool} (hfind : FindsNumbers found) (h : Composed N t)
    (hfound : found t = true) : t.isNumber = true := by
  induction h with
  | order _ hv =>
    rw [hfind.var _ (by rw [hv]; decide)] at hfound
    cases hfound
  | @theta v _ hv =>
    have hkind : v.kind ≠ .prop := by
      intro hkind
      rw [Term.is, facts_var, hkind] at hv
      revert hv
      decide
    rcases hfind.app _ _ rfl hfound with hnumber | hall
    · exact hnumber
    · have hvar := hall (var v) List.mem_cons_self
      rw [hfind.var v hkind] at hvar
      cases hvar
  | unit => rfl
  | product _ ih =>
    rcases hfind.app _ _ rfl hfound with hnumber | hall
    · exact hnumber
    · exact (isNumber_app rfl).2 fun a ha => ih a ha (hall a ha)
  | @power b _ q ih =>
    rcases hfind.app _ _ rfl hfound with hnumber | hall
    · exact hnumber
    · have hb : b.isNumber = true := ih (hall b List.mem_cons_self)
      exact (isNumber_app rfl).2 (List.forall_mem_cons.2 ⟨hb, List.forall_mem_singleton.2 rfl⟩)
  | extremum hh _ _ _ _ ih =>
    have hquantity := isQuantity_of_extremum hh
    rcases hfind.app _ _ hquantity hfound with hnumber | hall
    · exact hnumber
    · exact (isNumber_app hquantity).2 fun a ha => ih a ha (hall a ha)

theorem isFixed_iff (h : Composed N t) (hunmarked : Unmarked hyps) :
    isFixed hyps t = true ↔ t.isNumber = true := by
  refine ⟨h.isNumber_of_found (findsNumbers_isFixed hunmarked), fun hnumber => ?_⟩
  unfold isFixed
  split <;> simp [hnumber]

/-- **An order without variables is constant.** -/
theorem degree_eq_zero (h : Composed N t) (hnumber : t.isNumber = true) (e : Variable → ℚ) :
    degree e t = 0 := by
  induction h with
  | order => cases hnumber
  | theta => cases hnumber
  | unit => rfl
  | product _ ih =>
    rw [isNumber_app rfl] at hnumber
    rw [degree_orderMul]
    exact List.sum_eq_zero fun w hw => by
      obtain ⟨a, ha, rfl⟩ := List.mem_map.1 hw
      exact ih a ha (hnumber a ha)
  | @power b _ q ih =>
    rw [isNumber_app rfl] at hnumber
    rw [degree_orderPow, ih (hnumber b List.mem_cons_self), mul_zero]
  | @extremum g as hg hlength _ _ _ ih =>
    rw [isNumber_app (isQuantity_of_extremum hg)] at hnumber
    have hall : ∀ a ∈ as, degree e a = 0 := fun a ha => ih a ha (hnumber a ha)
    obtain ⟨a, ha⟩ := List.exists_mem_of_ne_nil as (List.ne_nil_of_length_pos (by omega))
    rw [degree_extremum_iff hg (List.ne_nil_of_mem ha)]
    refine ⟨fun w hw => ?_, List.mem_map.2 ⟨a, ha, hall a ha⟩⟩
    obtain ⟨a, ha, rfl⟩ := List.mem_map.1 hw
    rw [hall a ha]
    rcases hg with rfl | rfl <;> exact le_refl (0 : ℚ)

end Composed

def sizeEquation (k : Term) : Linear.Inequality Term := ⟨monomials (times [k, unit]), .eq, 0⟩

theorem reciprocal_one : Operation.reciprocal one = pure one := by rfl

theorem theta_one : theta one = pure unit := by rfl

theorem comparable_one : Statement.Comparable one where
  ofLiteral := rfl
  evades := rfl
  isQuantity := rfl
  isNot_extReal := by decide
  proper := by decide

theorem Sizing.div_one {Λ : Type} [AddCommGroup Λ] [Module ℚ Λ] {P : Term → Prop} {size : Term → Λ}
    (S : Sizing P size) {k : Term} (h : P k) :
    Operation.div k one = pure (Magnitude.times [k, Magnitude.unit]) := by
  unfold Operation.div
  rw [if_pos (S.isOrder h), reciprocal_one, pure_bind]
  exact S.multiply_settle_eq h S.unit (S.theta_eq h) theta_one

namespace Composed

variable {N : Variable → Prop} {k : Term}

theorem sizeEquation_spec (h : Composed N k) :
    Amounts N (times [k, Magnitude.unit]) fun x => logarithm x k := by
  refine (times_spec (List.forall_mem_cons.2 ⟨h, List.forall_mem_singleton.2 .unit⟩)).congr
    fun x => ?_
  simp

theorem logInequality_one (h : Composed N k) :
    Tactic.logInequality (app (.rel .eq) [k, one]) = pure (sizeEquation k) := by
  have hto : toInequality (app (.rel .eq) [k, one]) = pure (some (sizeEquation k)) := by
    simp only [toInequality, asRel?]
    rw [(sizing N 0).div_one h, pure_bind]
    rfl
  unfold Tactic.logInequality
  rw [hto, pure_bind]

theorem sizeDisjunction?_eq (h : Composed N k) (hunmarked : Unmarked hyps) :
    Tactic.sizeDisjunction? hyps k =
      pure (if k.isNumber then some [sizeEquation k] else none) := by
  unfold Tactic.sizeDisjunction?
  by_cases hnumber : k.isNumber = true
  · have hne : k ≠ one := by
      rintro rfl
      cases h
    rw [if_pos ((h.isFixed_iff hunmarked).2 hnumber), if_pos hnumber,
      h.relate_eq_of_ne comparable_one rfl hne, pure_bind, h.logInequality_one, pure_bind]
  · have hbounded : ¬ isBounded hyps k = true :=
      fun hb => hnumber (h.isNumber_of_found (findsNumbers_isBounded hunmarked) hb)
    rw [if_neg (mt (h.isFixed_iff hunmarked).1 hnumber), if_neg hbounded, if_neg hnumber]

theorem holdsAt_sizeEquation (h : Composed N k) (x : Term → ℚ) :
    (sizeEquation k).holdsAt x = true ↔ logarithm x k = 0 := by
  have hvalue : (sizeEquation k).valueIn x = logarithm x (times [k, Magnitude.unit]) := by
    simp [Linear.Inequality.valueIn, sizeEquation, logarithm, weigh]
  rw [Linear.Inequality.holdsAt_iff, Linear.Inequality.HoldsIn, hvalue, h.sizeEquation_spec.2]
  simp [sizeEquation, Linear.Sense.Compares]

theorem of_mem_sizeEquation (h : Composed N k) {j : Term} (hj : j ∈ (sizeEquation k).unknowns) :
    Composed N j ∧ IsBase j :=
  h.sizeEquation_spec.1.of_mem_monomials j hj

end Composed

end Magnitude
end Majorant
