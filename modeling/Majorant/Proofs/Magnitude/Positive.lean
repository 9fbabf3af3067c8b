import Majorant.Proofs.Magnitude.Logarithm
import Majorant.Proofs.Real.Value

/-!
# Magnitudes of positive real expressions

Every positive real expression has an order of magnitude that can be compared: it is put together from those
of positive parts, or it is the order of the expression as it stands.
-/

namespace Majorant

namespace Term

/-- **Real expressions**: numerals and numerical variables, put together by arithmetic operations.  An
exponent that is known to be a rational number is a numeral. -/
inductive RealExpression : Term → Prop
  | num (q : Rat) : RealExpression (num q)
  | var {v : Variable} (hv : v.kind.isNumeric = true) : RealExpression (var v)
  | power {b e : Term} (hb : RealExpression b) (he : RealExpression e)
      (hnumeral : e.isNumber = true → e.is .rational = true → ∃ q, e = .num q) :
      RealExpression (app .pow [b, e])
  | app {h : Head} {as : List Term} (hh : h ∈ [.add, .mul, .abs, .max, .min])
      (has : ∀ a ∈ as, RealExpression a) : RealExpression (app h as)

variable {t : Term}

theorem RealExpression.isOrder (ht : RealExpression t) : t.isOrder = false := by
  cases ht with
  | num => rfl
  | @var v hv => cases hk : v.kind <;> simp_all [Term.isOrder, Kind.isNumeric]
  | power => rfl
  | app hh =>
    simp only [List.mem_cons, List.not_mem_nil, or_false] at hh
    rcases hh with rfl | rfl | rfl | rfl | rfl <;> rfl

theorem RealExpression.evades (ht : RealExpression t) : t.evades = false := by
  induction ht with
  | num => rfl
  | var => rfl
  | power _ _ _ hb he => simp [Term.evades, evadesList, hb, he]
  | app hh _ ih =>
    simp only [List.mem_cons, List.not_mem_nil, or_false] at hh
    rcases hh with rfl | rfl | rfl | rfl | rfl <;>
      exact Magnitude.Composed.evadesList_eq_false ih

end Term

namespace Magnitude
open Term

/-- **Orders of terms that can be asked about**, put together in any way. -/
inductive Formed : Term → Prop
  | theta {t : Term} (ht : t.evades = false) : Formed (app .theta [t])
  | product {as : List Term} (has : ∀ a ∈ as, Formed a) : Formed (app .orderMul as)
  | power {b : Term} (hb : Formed b) (q : ℚ) : Formed (app .orderPow [b, num q])
  | extremum {h : Head} {as : List Term} (hh : h = .orderMax ∨ h = .orderMin)
      (has : ∀ a ∈ as, Formed a) : Formed (app h as)

namespace Formed

variable {h : Head} {t : Term} {as : List Term}

theorem isOrder (ht : Formed t) : t.isOrder = true := by
  cases ht with
  | extremum hh => rcases hh with rfl | rfl <;> rfl
  | _ => rfl

theorem evades (ht : Formed t) : t.evades = false := by
  induction ht with
  | theta ht => simp [Term.evades, evadesList, ht]
  | product _ ih => exact Composed.evadesList_eq_false ih
  | power _ q ih => simp [Term.evades, evadesList, ih]
  | extremum hh _ ih => rcases hh with rfl | rfl <;> exact Composed.evadesList_eq_false ih

theorem of_extremum (hh : h = .orderMax ∨ h = .orderMin) (ht : Formed (app h as)) :
    ∀ a ∈ as, Formed a := by
  cases ht with
  | extremum _ has => exact has
  | _ => rcases hh with hh | hh <;> cases hh

theorem extremum_spread (hh : h = .orderMax ∨ h = .orderMin) (has : ∀ a ∈ as, Formed a) :
    Formed (Magnitude.extremum h (spread h as)) := by
  have hspread : ∀ a ∈ (spread h as).eraseDups, Formed a := by
    intro a ha
    obtain ⟨b, hb, ha⟩ := List.mem_flatMap.1 (List.mem_eraseDups.1 ha)
    split at ha
    · next g bs =>
      split at ha
      · next heq => exact of_extremum (heq ▸ hh) (has _ hb) a ha
      · exact List.mem_singleton.1 ha ▸ has _ hb
    · exact List.mem_singleton.1 ha ▸ has _ hb
  unfold Magnitude.extremum
  split
  · next heq => exact hspread _ (heq ▸ List.mem_singleton_self _)
  · exact .extremum hh hspread

theorem sizing : Sizing Formed fun _ => (0 : ℚ) where
  isOrder := isOrder
  evades := evades
  ofLiteral ht := by cases ht <;> rfl
  unit := .theta rfl
  size_unit := rfl
  product := .product
  of_product ht := by
    cases ht with
    | product has => exact has
    | extremum hh => simp at hh
  size_product _ := by simp
  power q hb := .power hb q
  of_power ht := by
    cases ht with
    | power hb q => exact ⟨_, q, rfl, hb⟩
    | extremum hh => simp at hh
  size_power _ _ := by simp
  join ht := ⟨extremum_spread (.inl rfl) (of_extremum (.inl rfl) ht), rfl⟩
  meet ht := ⟨extremum_spread (.inr rfl) (of_extremum (.inr rfl) ht), rfl⟩

end Formed

variable {t : Term}

theorem formed_of_eq {o : Term} (ht : RealExpression t)
    (heq : ofPositive t = if t.isOrder then t else if t.isNumber then unit else o) (ho : Formed o) :
    Formed (ofPositive t) := by
  rw [heq, ht.isOrder, if_neg Bool.false_ne_true]
  split
  · exact .theta rfl
  · exact ho

theorem formed_ofPositiveList {as : List Term} (has : ∀ a ∈ as, Formed (ofPositive a)) :
    ∀ o ∈ ofPositiveList as, Formed o := by
  rw [ofPositiveList_eq_map]
  exact List.forall_mem_map.2 has

/-- **The order of magnitude of a real expression** can be compared. -/
theorem formed_ofPositive (ht : RealExpression t) : Formed (ofPositive t) := by
  induction ht with
  | num q => exact .theta rfl
  | var hv => exact formed_of_eq (.var hv) (by rw [ofPositive] <;> nofun) (.theta rfl)
  | @power b e hb he hnumeral ih =>
    have hpower := RealExpression.power hb he hnumeral
    refine formed_of_eq hpower (by rw [ofPositive]) ?_
    refine iteInduction (motive := Formed) (fun hparts => ?_) fun _ => .theta hpower.evades
    simp only [Bool.and_eq_true] at hparts
    obtain ⟨q, rfl⟩ := hnumeral hparts.1.2 hparts.2
    exact (Formed.sizing.raise ih q).1
  | @app h as hh has ih =>
    have happ := RealExpression.app hh has
    have hwhole : Formed (app .theta [app h as]) := .theta happ.evades
    have hparts := formed_ofPositiveList ih
    simp only [List.mem_cons, List.not_mem_nil, or_false] at hh
    rcases hh with rfl | rfl | rfl | rfl | rfl
    · refine formed_of_eq happ (by rw [ofPositive]) ?_
      exact iteInduction (fun _ => Formed.extremum_spread (.inl rfl) hparts) fun _ => hwhole
    · refine formed_of_eq happ (by rw [ofPositive]) ?_
      exact iteInduction (fun _ => (Formed.sizing.times hparts).1) fun _ => hwhole
    · exact formed_of_eq happ (by rw [ofPositive] <;> nofun) hwhole
    · refine formed_of_eq happ (by rw [ofPositive]) ?_
      exact iteInduction (fun _ => Formed.extremum_spread (.inl rfl) hparts) fun _ => hwhole
    · exact formed_of_eq happ (by rw [ofPositive] <;> nofun) hwhole

theorem theta_of_realExpression (ht : RealExpression t) (hpositive : t.is .positive = true) :
    theta t = pure (ofPositive t) := by
  have heq : theta t = if t.evades then .fail .unanswerable
      else if t.isOrder then pure t
      else if t.is .positive then pure (ofPositive t)
      else warn t.text := by
    cases ht <;> rfl
  rw [heq, ht.evades, ht.isOrder, hpositive]
  rfl

end Magnitude
end Majorant
