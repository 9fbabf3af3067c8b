import Majorant.Proofs.Growth.Rate
import Majorant.Proofs.Magnitude.Degree
import Majorant.Proofs.Real.LinearForm
import Mathlib.Algebra.Field.Subfield.Basic

/-!
# Statements in an ordered field

A regime gives every variable a value in an ordered field that contains the real numbers.  The order of a
quantity is represented by the quantity itself, and orders compare as their representatives do up to
constants.
-/

namespace Majorant
open Growth

variable {K : Type} [Field K] [LinearOrder K]

/-- The sign of a value fits a kind.  Whole numbers that are positive are at least one. -/
def Kind.Fits : Kind → K → Prop
  | posInt, x => 1 ≤ x
  | posReal, x | posRat, x | order, x => 0 < x
  | nonnegInt, x | nonnegReal, x | nonnegRat, x => 0 ≤ x
  | nonzeroInt, x | nonzeroReal, x | nonzeroRat, x => x ≠ 0
  | _, _ => True

/-- **A regime**: an ordered field over the real numbers, with values for the variables, and with truth
values for the statements that are not about magnitudes. -/
structure Regime (K : Type) [Field K] [LinearOrder K] where
  real : ℝ →+* K
  value : Variable → K
  /-- Variables have values of the right sign. -/
  fits : ∀ v : Variable, v.kind.Fits (value v)
  marks : Term → Prop

namespace Regime
open Term Magnitude

mutual

/-- **The value of a term.**  The value of an order of magnitude represents it. -/
noncomputable def val (ρ : Regime K) : Term → K
  | num q => q
  | var v => ρ.value v
  | app .add as => (ρ.vals as).sum
  | app .mul as | app .orderMul as => (ρ.vals as).prod
  | app .pow [b, num q] | app .orderPow [b, num q] => ratPower (ρ.val b) q
  | app .abs [a] => |ρ.val a|
  | app .max as | app .orderMax as => (ρ.vals as).max?.getD 0
  | app .min as | app .orderMin as => (ρ.vals as).min?.getD 0
  | app .theta [a] => ρ.val a
  | _ => 0

noncomputable def vals (ρ : Regime K) : List Term → List K
  | [] => []
  | a :: as => ρ.val a :: ρ.vals as

end

variable {ρ : Regime K} {t b : Term} {as : List Term} {h : Head}

theorem vals_eq_map (ts : List Term) : ρ.vals ts = ts.map ρ.val := by
  induction ts with
  | nil => rfl
  | cons t ts ih => rw [vals, ih, List.map_cons]

@[simp]
theorem val_num (q : ℚ) : ρ.val (num q) = q := rfl

@[simp]
theorem val_one : ρ.val one = 1 := by rw [one, val_num, Rat.cast_one]

@[simp]
theorem val_var (v : Variable) : ρ.val (var v) = ρ.value v := rfl

theorem val_add (as : List Term) : ρ.val (app .add as) = (as.map ρ.val).sum := by
  rw [val, vals_eq_map]

theorem val_mul (as : List Term) : ρ.val (app .mul as) = (as.map ρ.val).prod := by
  rw [val, vals_eq_map]

theorem val_orderMul (as : List Term) : ρ.val (app .orderMul as) = (as.map ρ.val).prod := by
  rw [val, vals_eq_map]

theorem val_pow (b : Term) (q : ℚ) : ρ.val (app .pow [b, num q]) = ratPower (ρ.val b) q :=
  rfl

theorem val_orderPow (b : Term) (q : ℚ) :
    ρ.val (app .orderPow [b, num q]) = ratPower (ρ.val b) q :=
  rfl

theorem val_abs (a : Term) : ρ.val (app .abs [a]) = |ρ.val a| := rfl

@[simp]
theorem val_theta (a : Term) : ρ.val (app .theta [a]) = ρ.val a := rfl

theorem isExtremal_max (hne : as ≠ []) : IsExtremal .le (as.map ρ.val) (ρ.val (app .max as)) := by
  rw [val, vals_eq_map]
  exact isExtremal_max? (by simpa using hne) 0

theorem isExtremal_min (hne : as ≠ []) : IsExtremal .ge (as.map ρ.val) (ρ.val (app .min as)) := by
  rw [val, vals_eq_map]
  exact isExtremal_min? (by simpa using hne) 0

theorem extremes_val (hh : h = .orderMax ∨ h = .orderMin) (ρ : Regime K) : Extremes h ρ.val := by
  intro as hne
  have hmap : as.map ρ.val ≠ [] := by simpa using hne
  rcases hh with rfl | rfl <;> rw [val, vals_eq_map]
  · exact isExtremal_max? hmap 0
  · exact isExtremal_min? hmap 0

/-- A power is defined: of a positive base, of zero with an exponent that is not negative, or with a whole
exponent. -/
def PowerDefined (x : K) (q : ℚ) : Prop := 0 < x ∨ (x = 0 ∧ 0 ≤ q) ∨ (x ≠ 0 ∧ q.den = 1)

/-- **Real terms that have a value.** -/
inductive Valued (ρ : Regime K) : Term → Prop
  | num (q : ℚ) : Valued ρ (num q)
  | var {v : Variable} (hv : v.kind.isReal = true) : Valued ρ (var v)
  | add {as : List Term} (has : ∀ a ∈ as, Valued ρ a) : Valued ρ (app .add as)
  | mul {as : List Term} (has : ∀ a ∈ as, Valued ρ a) : Valued ρ (app .mul as)
  | pow {b : Term} {q : ℚ} (hb : Valued ρ b) (hq : PowerDefined (ρ.val b) q) :
      Valued ρ (app .pow [b, num q])
  | abs {a : Term} (ha : Valued ρ a) : Valued ρ (app .abs [a])
  | max {as : List Term} (hne : as ≠ []) (has : ∀ a ∈ as, Valued ρ a) : Valued ρ (app .max as)
  | min {as : List Term} (hne : as ≠ []) (has : ∀ a ∈ as, Valued ρ a) : Valued ρ (app .min as)

/-- **Orders of magnitude that have a value**: they are composed of order variables and of the orders of
positive quantities. -/
inductive Sized (ρ : Regime K) : Term → Prop
  | var {v : Variable} (hv : v.kind = .order) : Sized ρ (var v)
  | theta {a : Term} (ha : ρ.Valued a) (hpos : 0 < ρ.val a) : Sized ρ (app .theta [a])
  | product {as : List Term} (has : ∀ a ∈ as, Sized ρ a) : Sized ρ (app .orderMul as)
  | power {b : Term} (hb : Sized ρ b) (q : ℚ) : Sized ρ (app .orderPow [b, num q])
  | extremum {h : Head} {as : List Term} (hh : h = .orderMax ∨ h = .orderMin) (hne : as ≠ [])
      (has : ∀ a ∈ as, Sized ρ a) : Sized ρ (app h as)

theorem Valued.isOrder (ht : ρ.Valued t) : t.isOrder = false := by
  cases ht with
  | @var v hv =>
    cases hkind : v.kind <;> simp_all [Term.isOrder, Kind.isReal]
  | _ => rfl

theorem Sized.isOrder (ht : ρ.Sized t) : t.isOrder = true := by
  cases ht with
  | var hv => simp [Term.isOrder, hv]
  | extremum hh => rcases hh with rfl | rfl <;> rfl
  | _ => rfl

theorem Valued.evades (ht : ρ.Valued t) : t.evades = false := by
  induction ht with
  | num | var => rfl
  | add _ ih => exact Composed.evadesList_eq_false ih
  | mul _ ih => exact Composed.evadesList_eq_false ih
  | pow _ _ ih => simp [Term.evades, evadesList, ih]
  | abs _ ih => simp [Term.evades, evadesList, ih]
  | max _ _ ih => exact Composed.evadesList_eq_false ih
  | min _ _ ih => exact Composed.evadesList_eq_false ih

theorem Sized.evades (ht : ρ.Sized t) : t.evades = false := by
  induction ht with
  | var => rfl
  | theta ha => simp [Term.evades, evadesList, ha.evades]
  | product _ ih => exact Composed.evadesList_eq_false ih
  | power _ q ih => simp [Term.evades, evadesList, ih]
  | extremum hh _ _ ih => rcases hh with rfl | rfl <;> exact Composed.evadesList_eq_false ih

theorem Sized.ofLiteral (ht : ρ.Sized t) : Term.ofLiteral t = pure t := by cases ht <;> rfl

theorem Sized.of_mem_product (ht : ρ.Sized (app .orderMul as)) : ∀ a ∈ as, ρ.Sized a := by
  cases ht with
  | product has => exact has
  | extremum hh => rcases hh with hh | hh <;> cases hh

theorem Sized.of_power {cs : List Term} (ht : ρ.Sized (app .orderPow cs)) :
    ∃ b q, cs = [b, num q] ∧ ρ.Sized b := by
  cases ht with
  | power hb q => exact ⟨_, q, rfl, hb⟩
  | extremum hh => rcases hh with hh | hh <;> cases hh

theorem Sized.of_extremum (ht : ρ.Sized (app h as)) (hh : h = .orderMax ∨ h = .orderMin) :
    as ≠ [] ∧ ∀ a ∈ as, ρ.Sized a := by
  cases ht with
  | extremum _ hne has => exact ⟨hne, has⟩
  | _ => rcases hh with hh | hh <;> cases hh

/-- **Representatives of orders are positive.** -/
theorem Sized.pos [IsStrictOrderedRing K] (hroots : HasRoots K) (ht : ρ.Sized t) : 0 < ρ.val t := by
  induction ht with
  | @var v hv =>
    have hfits := ρ.fits v
    rw [hv] at hfits
    rw [val_var]
    exact hfits
  | theta _ hpos => rwa [val_theta]
  | product _ ih =>
    rw [val_orderMul]
    exact List.prod_pos (by simpa using ih)
  | power _ q ih =>
    rw [val_orderPow]
    exact (ratPower_spec hroots ih q).1
  | extremum hh hne _ ih =>
    obtain ⟨a, ha, heq⟩ := List.mem_map.1 (extremes_val hh ρ _ hne).2
    rw [← heq]
    exact ih a ha

end Regime

/-- Two orders compare as the relation says: their representatives bound each other up to constants. -/
def Rel.Bounds : Rel → K → K → Prop
  | le, x, y => Dominated x y
  | lt, x, y => Dominated x y ∧ ¬ Dominated y x
  | ge, x, y => Dominated y x
  | gt, x, y => Dominated y x ∧ ¬ Dominated x y
  | eq, x, y => Dominated x y ∧ Dominated y x
  | ne, x, y => ¬ (Dominated x y ∧ Dominated y x)

theorem Rel.bounds_iff [IsStrictOrderedRing K] {x y : K} (hx : 0 < x) (hy : 0 < y) (r : Rel) :
    r.Bounds x y ↔ r.Compares (rate x) (rate y) := by
  have hxy := rate_le_iff hx hy
  have hyx := rate_le_iff hy hx
  cases r <;> simp only [Bounds, Compares, ← hxy, ← hyx]
  · exact lt_iff_le_not_ge.symm
  · exact lt_iff_le_not_ge.symm
  · exact le_antisymm_iff.symm
  · exact not_congr le_antisymm_iff.symm

namespace Regime
open Term Magnitude

/-- A term is fixed: its value is a real number, or the order of one. -/
def Fixed (ρ : Regime K) (t : Term) : Prop :=
  (ρ.Valued t → ρ.val t ∈ ρ.real.fieldRange) ∧ (ρ.Sized t → Rel.eq.Bounds (ρ.val t) 1)

/-- A term is bounded: its value is at most a constant, or the order of a constant. -/
def Bounded (ρ : Regime K) (t : Term) : Prop :=
  (ρ.Valued t → ∃ n : ℕ, |ρ.val t| ≤ n) ∧ (ρ.Sized t → Rel.le.Bounds (ρ.val t) 1)

/-- A comparison holds: of two orders up to constants, of two real terms as it stands. -/
def Relates (ρ : Regime K) (r : Rel) (a b : Term) : Prop :=
  if a.isOrder && b.isOrder then ρ.Sized a ∧ ρ.Sized b ∧ r.Bounds (ρ.val a) (ρ.val b)
  else if a.isOrder || b.isOrder then ρ.marks (app (.rel r) [a, b])
  else ρ.Valued a ∧ ρ.Valued b ∧ r.Compares (ρ.val a) (ρ.val b)

/-- **A statement holds.**  The declaration of a positive whole number says that it is at least one. -/
def Holds (ρ : Regime K) : Term → Prop
  | truth c => c = true
  | app (.rel r) [a, b] => ρ.Relates r a b
  | app .fixed [t] => ρ.Fixed t
  | app .bounded [t] => ρ.Bounded t
  | app .declared [t] => t.is .positive = true → t.is .integer = true → ρ.Valued t ∧ 1 ≤ ρ.val t
  | t => ρ.marks t

variable {ρ : Regime K} {a b : Term} {r : Rel}

theorem relates_of_orders (ha : a.isOrder = true) (hb : b.isOrder = true) :
    ρ.Relates r a b ↔ ρ.Sized a ∧ ρ.Sized b ∧ r.Bounds (ρ.val a) (ρ.val b) := by
  simp [Relates, ha, hb]

theorem relates_of_reals (ha : a.isOrder = false) (hb : b.isOrder = false) :
    ρ.Relates r a b ↔ ρ.Valued a ∧ ρ.Valued b ∧ r.Compares (ρ.val a) (ρ.val b) := by
  simp [Relates, ha, hb]

theorem holds_declare (v : Variable) : ρ.Holds (Proof.declare v) := by
  simp only [Proof.declare, Holds]
  intro hpos hint
  have hkind : v.kind = .posInt := by
    rw [Term.is, facts_var] at hpos hint
    revert hpos hint
    cases v.kind <;> decide
  have hfits := ρ.fits v
  rw [hkind] at hfits
  rw [val_var]
  exact ⟨.var (by rw [hkind]; rfl), hfits⟩

end Regime
end Majorant
