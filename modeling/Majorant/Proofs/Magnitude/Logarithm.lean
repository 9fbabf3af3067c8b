import Majorant.Proofs.Magnitude.Sizing

/-!
# Logarithms of orders of magnitude

Once every base has a logarithm, so has every order that is composed of them: that of a product is a
sum, that of a power a multiple.  Extrema are bases like any other, and the operations on orders never
touch one.
-/

namespace Majorant
namespace Magnitude
open Term

/-- **The logarithm of an order** whose bases have given logarithms. -/
def logarithm (x : Term → ℚ) (t : Term) : ℚ := weigh x (monomials t)

variable {x : Term → ℚ}

@[simp]
theorem logarithm_unit : logarithm x unit = 0 := by simp [logarithm, weigh]

@[simp]
theorem logarithm_orderMul (as : List Term) :
    logarithm x (app .orderMul as) = (as.map (logarithm x)).sum := by
  rw [logarithm, monomials_orderMul, weigh_monomialsList]
  rfl

@[simp]
theorem logarithm_orderPow (b : Term) (q : ℚ) :
    logarithm x (app .orderPow [b, num q]) = q * logarithm x b := by
  rw [logarithm, monomials_orderPow, weigh_map_mul]
  rfl

/-- Orders that are bases of powers and not taken apart: variables, magnitudes and extrema. -/
def IsBase : Term → Prop
  | var _ | app .theta [var _] | app .orderMax _ | app .orderMin _ => True
  | _ => False

theorem monomials_of_isBase {t : Term} (h : IsBase t) : monomials t = [(t, 1)] := by
  unfold IsBase at h
  split at h
  · simp [monomials, unit]
  · simp [monomials, unit, one]
  · simp [monomials, unit]
  · simp [monomials, unit]
  · exact h.elim

theorem logarithm_of_isBase {t : Term} (h : IsBase t) : logarithm x t = x t := by
  rw [logarithm, monomials_of_isBase h]
  simp [weigh]

/-- **Orders composed of variables** among `N`: order variables, magnitudes of positive variables and
the unit, with products, powers, and extrema of several distinct orders.  An extremum is not an argument
of an extremum of its kind. -/
inductive Composed (N : Variable → Prop) : Term → Prop
  | order {v : Variable} (hN : N v) (hv : v.kind = .order) : Composed N (var v)
  | theta {v : Variable} (hN : N v) (hv : (var v).is .positive = true) :
      Composed N (app .theta [var v])
  | unit : Composed N unit
  | product {as : List Term} (has : ∀ a ∈ as, Composed N a) : Composed N (app .orderMul as)
  | power {b : Term} (hb : Composed N b) (q : ℚ) : Composed N (app .orderPow [b, num q])
  | extremum {h : Head} {as : List Term} (hh : h = .orderMax ∨ h = .orderMin)
      (hlength : 2 ≤ as.length) (hdistinct : as.Nodup) (hplain : ∀ a ∈ as, ∀ bs, a ≠ app h bs)
      (has : ∀ a ∈ as, Composed N a) : Composed N (app h as)

namespace Composed

variable {N : Variable → Prop} {t b : Term} {ts as : List Term}

theorem isOrder (h : Composed N t) : t.isOrder = true := by
  cases h with
  | order _ hv => simp [Term.isOrder, hv]
  | extremum hh => rcases hh with rfl | rfl <;> rfl
  | _ => rfl

theorem evadesList_eq_false (h : ∀ t ∈ ts, t.evades = false) : evadesList ts = false := by
  induction ts with
  | nil => rfl
  | cons t ts ih =>
    rw [evadesList, h t List.mem_cons_self, ih fun u hu => h u (List.mem_cons_of_mem t hu)]
    rfl

theorem evades (h : Composed N t) : t.evades = false := by
  induction h with
  | order => rfl
  | theta => rfl
  | unit => rfl
  | product _ ih => exact evadesList_eq_false ih
  | power _ q ih => simp [Term.evades, evadesList, ih]
  | extremum hh _ _ _ _ ih => rcases hh with rfl | rfl <;> exact evadesList_eq_false ih

theorem ofLiteral (h : Composed N t) : Term.ofLiteral t = pure t := by
  cases h <;> rfl

theorem extremum_of_distinct {h : Head} (hlength : 2 ≤ as.length) (hdistinct : as.Nodup) :
    Magnitude.extremum h as = app h as := by
  unfold Magnitude.extremum
  rw [eraseDups_of_nodup hdistinct]
  match as, hlength with
  | _ :: _ :: _, _ => rfl

theorem join_eq (h : Composed N (app .orderMax as)) : join as = app .orderMax as := by
  cases h with
  | extremum _ hlength hdistinct hplain _ =>
    rw [join, spread_of_plain hplain, extremum_of_distinct hlength hdistinct]

theorem meet_eq (h : Composed N (app .orderMin as)) : meet as = app .orderMin as := by
  cases h with
  | extremum _ hlength hdistinct hplain _ =>
    rw [meet, spread_of_plain hplain, extremum_of_distinct hlength hdistinct]

theorem of_mem_product (h : Composed N (app .orderMul as)) : ∀ a ∈ as, Composed N a := by
  cases h with
  | product has => exact has
  | extremum hh => rcases hh with hh | hh <;> cases hh

theorem of_power {cs : List Term} (h : Composed N (app .orderPow cs)) :
    ∃ b q, cs = [b, num q] ∧ Composed N b := by
  cases h with
  | power hb q => exact ⟨_, q, rfl, hb⟩
  | extremum hh => rcases hh with hh | hh <;> cases hh

/-- **Logarithms are sizes**: evaluating an extremum leaves it alone. -/
theorem sizing (N : Variable → Prop) (x : Term → ℚ) : Sizing (Composed N) (logarithm x) where
  isOrder h := h.isOrder
  evades h := h.evades
  ofLiteral h := h.ofLiteral
  unit := .unit
  size_unit := logarithm_unit
  product h := .product h
  of_product h := h.of_mem_product
  size_product _ := logarithm_orderMul _
  power q h := h.power q
  of_power h := h.of_power
  size_power q _ := logarithm_orderPow _ q
  join h := by
    rw [h.join_eq]
    exact ⟨h, rfl⟩
  meet h := by
    rw [h.meet_eq]
    exact ⟨h, rfl⟩

/-- An order that is composed and has a given logarithm at every point. -/
def Amounts (N : Variable → Prop) (t : Term) (w : (Term → ℚ) → ℚ) : Prop :=
  Composed N t ∧ ∀ x, logarithm x t = w x

theorem Amounts.congr {v w : (Term → ℚ) → ℚ} (h : Amounts N t v) (heq : ∀ x, v x = w x) :
    Amounts N t w :=
  ⟨h.1, fun x => (h.2 x).trans (heq x)⟩

/-- **Products**: the logarithm is the sum of those of the factors. -/
theorem times_spec (h : ∀ t ∈ ts, Composed N t) :
    Amounts N (times ts) fun x => (ts.map (logarithm x)).sum :=
  ⟨((sizing N 0).times h).1, fun x => ((sizing N x).times h).2⟩

theorem of_mem_monomials (h : Composed N t) : ∀ k ∈ keys (monomials t), Composed N k ∧ IsBase k := by
  have hself : ∀ {u : Term}, Composed N u → IsBase u →
      ∀ k ∈ keys (monomials u), Composed N k ∧ IsBase k := by
    intro u hu hbase k hk
    rw [monomials_of_isBase hbase] at hk
    rw [List.mem_singleton.1 hk]
    exact ⟨hu, hbase⟩
  induction h with
  | order hN hv => exact hself (.order hN hv) True.intro
  | theta hN hv => exact hself (.theta hN hv) True.intro
  | unit =>
    rw [monomials_unit]
    exact nofun
  | extremum hh hlength hdistinct hplain has =>
    have hext := Composed.extremum hh hlength hdistinct hplain has
    rcases hh with rfl | rfl <;> exact hself hext True.intro
  | power _ q ih =>
    rw [monomials_orderPow, keys_map_mul]
    exact ih
  | product _ ih =>
    rw [monomials_orderMul]
    intro k hk
    obtain ⟨a, ha, hk⟩ := mem_keys_monomialsList hk
    exact ih a ha k hk

end Composed

end Magnitude
end Majorant
