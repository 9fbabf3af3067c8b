import Majorant.Linear.Feasibility
import Majorant.Proofs.Entry
import Majorant.Proofs.Linear.Elimination
import Mathlib.Algebra.BigOperators.Group.Finset.Basic
import Mathlib.Algebra.BigOperators.Ring.Finset
import Mathlib.Algebra.Algebra.Rat
import Mathlib.Algebra.Module.BigOperators
import Mathlib.Algebra.Order.Module.Defs
import Mathlib.Data.Rat.Cast.Order

/-!
# Certificates of an elimination

Inequalities over listed variables are handed to the elimination as rows.  A point that comes back
satisfies them; weights that come back turn into multipliers that refute them.
-/

namespace Majorant
namespace Linear

theorem total_zip_eq_dot {α : Type} (f : α → Rat) (is : List α) (ms : List Rat) :
    Rational.total ((is.zip ms).map fun w => w.2 * f w.1) = dot ms (is.map f) := by
  induction is generalizing ms with
  | nil => simp [Rational.total]
  | cons i is ih =>
    cases ms with
    | nil => simp [Rational.total, dot]
    | cons m ms => simp [Rational.total, dot, ih]

theorem dot_map_add {α : Type} (ws : List Rat) (is : List α) (f g : α → Rat) :
    dot ws (is.map fun i => f i + g i) = dot ws (is.map f) + dot ws (is.map g) := by
  induction is generalizing ws with
  | nil => simp
  | cons i is ih =>
    cases ws with
    | nil => simp [dot]
    | cons w ws =>
      simp only [List.map_cons, dot, ih]
      ring

theorem dot_map_mul {α : Type} (ws : List Rat) (is : List α) (c : Rat) (f : α → Rat) :
    dot ws (is.map fun i => c * f i) = c * dot ws (is.map f) := by
  induction is generalizing ws with
  | nil => simp
  | cons i is ih =>
    cases ws with
    | nil => simp [dot]
    | cons w ws =>
      simp only [List.map_cons, dot, ih]
      ring

theorem dot_comm (as bs : List Rat) : dot as bs = dot bs as := by
  induction as generalizing bs with
  | nil => simp [dot]
  | cons a as ih =>
    cases bs with
    | nil => simp [dot]
    | cons b bs =>
      simp only [dot, ih]
      ring

theorem dot_nonneg {as bs : List Rat} (h : ∀ k, 0 ≤ as.getD k 0 * bs.getD k 0) :
    0 ≤ dot as bs := by
  induction as generalizing bs with
  | nil => simp [dot]
  | cons a as ih =>
    cases bs with
    | nil => simp
    | cons b bs =>
      have hhead := h 0
      have htail := ih fun k => by simpa using h (k + 1)
      simp only [List.getD_cons_zero] at hhead
      simp only [dot]
      linarith

theorem dot_pos {as bs : List Rat} (h : ∀ k, 0 ≤ as.getD k 0 * bs.getD k 0) {k : Nat}
    (hk : 0 < as.getD k 0 * bs.getD k 0) : 0 < dot as bs := by
  induction as generalizing bs k with
  | nil => simp at hk
  | cons a as ih =>
    cases bs with
    | nil => simp at hk
    | cons b bs =>
      have hhead := h 0
      have htail : ∀ j, 0 ≤ as.getD j 0 * bs.getD j 0 := fun j => by simpa using h (j + 1)
      simp only [List.getD_cons_zero] at hhead
      simp only [dot]
      cases k with
      | zero =>
        have hnonneg := dot_nonneg htail
        simp only [List.getD_cons_zero] at hk
        linarith
      | succ k =>
        have hpos := ih htail (k := k) (by simpa using hk)
        linarith

theorem dot_unit (n k : Nat) (xs : List Rat) (hk : k < n) :
    dot ((List.replicate n (0 : Rat)).set k 1) xs = xs.getD k 0 := by
  have hlen : k < (List.replicate n (0 : Rat)).length := by simpa using hk
  rw [dot_comm, dot_set hlen, dot_comm]
  have hzero : dot ((List.replicate n (0 : Rat)).set k 0) xs = 0 := by
    apply dot_eq_zero
    intro a ha
    rcases List.mem_or_eq_of_mem_set ha with h | h
    · exact (List.mem_replicate.1 h).2
    · exact h
  rw [hzero]
  ring

namespace Sense

/-- The factor with which an inequality is turned into an upper bound. -/
def turn : Sense → Rat
  | leq | lt | eq => 1
  | geq | gt => -1

def strength : Sense → Strength
  | leq | geq => .weak
  | lt | gt => .strict
  | eq => .equal

def strictness : Sense → Rat
  | lt | gt => 1
  | _ => 0

theorem holds_iff_turn (s : Sense) (p q : Rat) :
    s.holds p q = true ↔ s.strength.Holds (s.turn * p) (s.turn * q) := by
  cases s <;> simp [holds, strength, turn, Strength.Holds]

end Sense

section Rows

variable {V : Type} (vars : List V) (coeff : Inequality V → V → Rat)

theorem toRow_strength (count k : Nat) (i : Inequality V) :
    (toRow vars coeff count k i).strength = i.sense.strength := by
  unfold toRow
  cases i.sense <;> rfl

theorem toRow_bound (count k : Nat) (i : Inequality V) :
    (toRow vars coeff count k i).bound = i.sense.turn * i.rhs := by
  unfold toRow
  cases i.sense <;> simp [Sense.turn]

theorem toRow_weights (count k : Nat) (i : Inequality V) :
    (toRow vars coeff count k i).weights = (List.replicate count (0 : Rat)).set k 1 := by
  unfold toRow
  cases i.sense <;> rfl

theorem toRow_entry (count k : Nat) (i : Inequality V) (j : Nat) :
    (toRow vars coeff count k i).entry j =
      i.sense.turn * (vars.map (coeff i)).getD j 0 := by
  unfold toRow Row.entry
  cases i.sense <;> simp only [Sense.turn, one_mul, getD_scaleCoeffs]

theorem toRow_dot (count k : Nat) (i : Inequality V) (x : List Rat) :
    dot (toRow vars coeff count k i).coeffs x =
      i.sense.turn * dot (vars.map (coeff i)) x := by
  unfold toRow
  cases i.sense <;> simp only [Sense.turn, one_mul, dot_scaleCoeffs]

theorem holds_toRow (count k : Nat) (i : Inequality V) (x : List Rat) :
    (toRow vars coeff count k i).Holds x ↔
      i.sense.holds (dot (vars.map (coeff i)) x) i.rhs = true := by
  unfold Row.Holds
  rw [toRow_strength, toRow_bound, toRow_dot, Sense.holds_iff_turn]

variable (is : List (Inequality V))

theorem toRows_getElem? (k : Nat) :
    (toRows vars coeff is)[k]? = (is[k]?).map (toRow vars coeff is.length k) := by
  simp [toRows]

theorem length_toRows : (toRows vars coeff is).length = is.length := by simp [toRows]

theorem mem_toRows {r : Row} :
    r ∈ toRows vars coeff is ↔ ∃ k i, is[k]? = some i ∧ r = toRow vars coeff is.length k i := by
  rw [List.mem_iff_getElem?]
  constructor
  · rintro ⟨k, hk⟩
    rw [toRows_getElem?, Option.map_eq_some_iff] at hk
    obtain ⟨i, hi, rfl⟩ := hk
    exact ⟨k, i, hi, rfl⟩
  · rintro ⟨k, i, hi, rfl⟩
    exact ⟨k, by rw [toRows_getElem?, hi]; rfl⟩

theorem toRows_map {f : Row → Rat} {g : Inequality V → Rat}
    (h : ∀ k i, f (toRow vars coeff is.length k i) = g i) :
    (toRows vars coeff is).map f = is.map g := by
  apply List.ext_getElem?
  intro k
  rw [List.getElem?_map, List.getElem?_map, toRows_getElem?]
  cases is[k]? with
  | none => rfl
  | some i => simp [h]

theorem derived_toRows {r : Row} (hr : r ∈ toRows vars coeff is) :
    r.Derived (toRows vars coeff is) := by
  obtain ⟨k, i, hi, rfl⟩ := (mem_toRows vars coeff is).1 hr
  have hk : k < is.length := (List.getElem?_eq_some_iff.1 hi).1
  have hrow : (toRows vars coeff is)[k]? = some (toRow vars coeff is.length k i) := by
    rw [toRows_getElem?, hi]
    rfl
  have hgetD : ∀ j, ((List.replicate is.length (0 : Rat)).set k 1).getD j 0 =
      if j = k then 1 else 0 := by
    intro j
    rw [List.getD_eq_getElem?_getD, List.getElem?_set]
    by_cases hj : k = j
    · subst hj
      simp [hk]
    · by_cases hlt : j < is.length <;> simp [hj, Ne.symm hj, hlt]
  have hpick : ∀ f : Row → Rat, f (toRow vars coeff is.length k i) =
      dot ((List.replicate is.length (0 : Rat)).set k 1) ((toRows vars coeff is).map f) := by
    intro f
    rw [dot_unit _ _ _ hk, List.getD_eq_getElem?_getD, List.getElem?_map, hrow]
    rfl
  refine ⟨?_, ?_, ?_, ?_, ?_, ?_⟩
  · rw [toRow_weights, length_toRows]
    simp
  · intro j
    rw [toRow_weights]
    exact hpick (·.entry j)
  · rw [toRow_weights]
    exact hpick (·.bound)
  · intro j s _ _
    rw [toRow_weights, hgetD]
    split <;> simp
  · intro he j s hs hne
    rw [toRow_weights, hgetD, if_neg]
    rintro rfl
    rw [hrow, Option.some.injEq] at hs
    exact hne (hs ▸ he)
  · intro hstrict
    refine ⟨k, _, hrow, hstrict, ?_⟩
    rw [toRow_weights, hgetD, if_pos rfl]
    exact one_pos

theorem within_toRows {r : Row} (hr : r ∈ toRows vars coeff is) :
    r.Within (List.range vars.length) := by
  obtain ⟨k, i, -, rfl⟩ := (mem_toRows vars coeff is).1 hr
  intro j hj
  rw [toRow_entry] at hj
  rw [List.mem_range]
  by_contra hlt
  apply hj
  rw [List.getD_eq_getElem?_getD, List.getElem?_eq_none (by simpa using hlt)]
  simp

theorem decideRows_point {x : List Rat}
    (h : decideRows vars.length (toRows vars coeff is) = .point x) {i : Inequality V}
    (hi : i ∈ is) : i.sense.holds (dot (vars.map (coeff i)) x) i.rhs = true := by
  unfold decideRows at h
  obtain ⟨-, hholds⟩ := eliminate_point (by simp) (by simp)
    (fun r hr => within_toRows vars coeff is hr) x h
  obtain ⟨k, hk⟩ := List.mem_iff_getElem?.1 hi
  exact (holds_toRow vars coeff is.length k i x).1
    (hholds _ ((mem_toRows vars coeff is).2 ⟨k, i, hk, rfl⟩))

end Rows

section Weights

variable {V : Type}

theorem length_toMultipliers {is : List (Inequality V)} {ws : List Rat}
    (h : ws.length = is.length) : (toMultipliers is ws).length = is.length := by
  simp [toMultipliers, h]

theorem dot_toMultipliers (is : List (Inequality V)) (ws : List Rat) (f : Inequality V → Rat) :
    dot (toMultipliers is ws) (is.map f) = -dot ws (is.map fun i => i.sense.turn * f i) := by
  induction is generalizing ws with
  | nil => simp [toMultipliers]
  | cons i is ih =>
    cases ws with
    | nil => simp [toMultipliers, dot]
    | cons w ws =>
      have h := ih ws
      simp only [toMultipliers, List.zip_cons_cons, List.map_cons, dot] at h ⊢
      rw [h]
      cases i.sense <;> simp only [Sense.turn] <;> ring

theorem getElem?_toMultipliers {is : List (Inequality V)} {ws : List Rat} {k : Nat}
    {i : Inequality V} {w : Rat} (hi : is[k]? = some i) (hw : ws[k]? = some w) :
    (toMultipliers is ws)[k]? = some (-(i.sense.turn * w)) := by
  unfold toMultipliers
  rw [List.getElem?_map, List.getElem?_zip_eq_some (z := (i, w)) |>.2 ⟨hi, hw⟩]
  simp only [Option.map_some, Option.some.injEq]
  cases i.sense <;> simp [Sense.turn]

theorem weightedRhs_toMultipliers (is : List (Inequality V)) (ws : List Rat) :
    weightedRhs (is.zip (toMultipliers is ws)) =
      -dot ws (is.map fun i => i.sense.turn * i.rhs) := by
  unfold weightedRhs
  rw [total_zip_eq_dot fun i : Inequality V => i.rhs, dot_toMultipliers]

theorem strictWeight_eq_dot (is : List (Inequality V)) (ms : List Rat) :
    strictWeight (is.zip ms) =
      dot ms (is.map fun i => -(i.sense.turn * i.sense.strictness)) := by
  rw [← total_zip_eq_dot]
  unfold strictWeight
  congr 1
  apply List.map_congr_left
  intro w _
  cases w.1.sense <;> simp [Sense.turn, Sense.strictness]

theorem strictWeight_toMultipliers (is : List (Inequality V)) (ws : List Rat) :
    strictWeight (is.zip (toMultipliers is ws)) = dot ws (is.map (·.sense.strictness)) := by
  rw [strictWeight_eq_dot, dot_toMultipliers]
  have h : (fun i : Inequality V => i.sense.turn * -(i.sense.turn * i.sense.strictness)) =
      fun i => -1 * i.sense.strictness := by
    funext i
    cases i.sense <;> simp [Sense.turn, Sense.strictness]
  rw [h, dot_map_mul]
  ring

theorem signOk_turn {s : Sense} {w t : Rat} (h : s ≠ .eq → 0 ≤ w / t) :
    signOk s (-(s.turn * w) / t) = true := by
  have hneg : -(1 * w) / t = -(w / t) := by ring
  have hpos : -(-1 * w) / t = w / t := by ring
  cases s with
  | leq | lt =>
    simp only [signOk, Sense.turn, decide_eq_true_eq, hneg]
    linarith [h (by simp)]
  | geq | gt =>
    simp only [signOk, Sense.turn, decide_eq_true_eq, hpos]
    exact h (by simp)
  | eq => rfl

theorem dot_map_div (ms : List Rat) (t : Rat) (xs : List Rat) :
    dot (ms.map (· / t)) xs = dot ms xs / t := by
  have h : ms.map (· / t) = scaleCoeffs t⁻¹ ms := by
    unfold scaleCoeffs
    apply List.map_congr_left
    intro m _
    rw [div_eq_inv_mul]
  rw [h, dot_scaleCoeffs, div_eq_inv_mul]

/-- The combination of rows behind returned weights: its sums, and the sign of what it leaves. -/
theorem weights_of_decideRows {vars : List V} {coeff : Inequality V → V → Rat}
    {is : List (Inequality V)} {ws : List Rat}
    (h : decideRows vars.length (toRows vars coeff is) = .weights ws) :
    ws.length = is.length ∧
    (∀ v ∈ vars, dot ws (is.map fun i => i.sense.turn * coeff i v) = 0) ∧
    ∃ s : Strength,
      (∀ k i, is[k]? = some i → i.sense ≠ .eq → 0 ≤ ws.getD k 0) ∧
      (s = .equal → ∀ k i, is[k]? = some i → i.sense ≠ .eq → ws.getD k 0 = 0) ∧
      (s = .strict → ∃ k i, is[k]? = some i ∧ i.sense.strictness = 1 ∧ 0 < ws.getD k 0) ∧
      ¬ s.Holds 0 (dot ws (is.map fun i => i.sense.turn * i.rhs)) := by
  unfold decideRows at h
  obtain ⟨r, hr, rfl, hconst, hfalse⟩ :=
    eliminate_weights (fun r hr => derived_toRows vars coeff is hr) h
  have hrow : ∀ {k i}, is[k]? = some i →
      (toRows vars coeff is)[k]? = some (toRow vars coeff is.length k i) := by
    intro k i hi
    rw [toRows_getElem?, hi]
    rfl
  have hstrength : ∀ k (i : Inequality V), i.sense ≠ .eq →
      (toRow vars coeff is.length k i).strength ≠ .equal := by
    intro k i hne
    rw [toRow_strength]
    cases hs : i.sense <;> simp_all [Sense.strength]
  refine ⟨?_, fun v hv => ?_, r.strength, fun k i hi hne => ?_, fun he k i hi hne => ?_,
    fun hs => ?_, ?_⟩
  · rw [hr.length_weights, length_toRows]
  · obtain ⟨j, hj⟩ := List.mem_iff_getElem?.1 hv
    have hentry := hr.entry_eq j
    rw [Row.entry_eq_zero_of_isConstant hconst, toRows_map vars coeff is
      (g := fun i => i.sense.turn * coeff i v)] at hentry
    · exact hentry.symm
    · intro k i
      rw [toRow_entry, List.getD_eq_getElem?_getD, List.getElem?_map, hj]
      rfl
  · exact hr.nonneg k _ (hrow hi) (hstrength k i hne)
  · exact hr.of_equal he k _ (hrow hi) (hstrength k i hne)
  · obtain ⟨k, t, ht, hstrict, hpos⟩ := hr.of_strict hs
    rw [toRows_getElem?, Option.map_eq_some_iff] at ht
    obtain ⟨i, hi, rfl⟩ := ht
    refine ⟨k, i, hi, ?_, hpos⟩
    rw [toRow_strength] at hstrict
    cases hsense : i.sense <;> simp_all [Sense.strength, Sense.strictness]
  · intro hholds
    have hbound := hr.bound_eq
    rw [toRows_map vars coeff is (g := fun i => i.sense.turn * i.rhs)
      fun k i => toRow_bound vars coeff is.length k i] at hbound
    have : r.Holds [] := by
      unfold Row.Holds
      rwa [dot_nil_right, hbound]
    rw [Row.holds_iff_constantHolds hconst, hfalse] at this
    cases this

end Weights

variable {V : Type} [DecidableEq V]

def Sense.Compares {K : Type} [LinearOrder K] (s : Sense) (p q : K) : Prop :=
  match s with
  | leq => p ≤ q
  | lt => p < q
  | geq => q ≤ p
  | gt => q < p
  | eq => p = q

section Field

variable {K : Type} [Field K] [LinearOrder K]

namespace Inequality

def valueIn (i : Inequality V) (x : V → K) : K := (i.coeffs.map fun p => (p.2 : K) * x p.1).sum

def HoldsIn (i : Inequality V) (x : V → K) : Prop := i.sense.Compares (i.valueIn x) (i.rhs : K)

omit [DecidableEq V] in
theorem holdsAt_iff (i : Inequality V) (x : V → Rat) : i.holdsAt x = true ↔ i.HoldsIn x := by
  have hvalue : i.value x = i.valueIn x := by
    unfold value valueIn
    induction i.coeffs with
    | nil => rfl
    | cons p ps ih => simpa [Rational.total] using ih
  unfold holdsAt HoldsIn
  rw [hvalue]
  cases i.sense <;> simp [Sense.holds, Sense.Compares]

theorem coeff_eq_zero {i : Inequality V} {v : V} (h : v ∉ i.unknowns) : i.coeff v = 0 := by
  have hnone : i.coeffs.find? (·.1 == v) = none := by
    rw [List.find?_eq_none]
    intro p hp hv
    exact h (List.mem_map.2 ⟨p, hp, by simpa using hv⟩)
  unfold coeff
  rw [hnone]

theorem coeff_of_mem {i : Inequality V} (hkeys : i.unknowns.Nodup) {p : V × Rat}
    (hp : p ∈ i.coeffs) : i.coeff p.1 = p.2 := by
  unfold coeff
  cases hfind : i.coeffs.find? (·.1 == p.1) with
  | none =>
    have := List.find?_eq_none.1 hfind p hp
    simp at this
  | some q =>
    have hq : q.1 = p.1 := by simpa using List.find?_some hfind
    have hmem := List.mem_of_find?_eq_some hfind
    rw [List.inj_on_of_nodup_map hkeys hmem hp hq]

end Inequality

end Field

section Module

variable {Λ : Type} [AddCommGroup Λ] [Module ℚ Λ]

namespace Inequality

/-- The value of the left side at a point whose coordinates are vectors over the rational numbers. -/
def valueOver (i : Inequality V) (x : V → Λ) : Λ := (i.coeffs.map fun p => p.2 • x p.1).sum

/-- The left side is the sum, over any variables that include those of the inequality, of the
coordinates times the coefficients. -/
theorem valueOver_eq_sum {i : Inequality V} (hkeys : i.unknowns.Nodup) (x : V → Λ) {S : Finset V}
    (hS : ∀ v ∈ i.unknowns, v ∈ S) : i.valueOver x = ∑ v ∈ S, i.coeff v • x v := by
  have hsub : i.unknowns.toFinset ⊆ S := fun v hv => hS v (List.mem_toFinset.1 hv)
  have hzero : ∀ v ∈ S, v ∉ i.unknowns.toFinset → i.coeff v • x v = 0 := by
    intro v _ hv
    rw [coeff_eq_zero (fun h => hv (List.mem_toFinset.2 h)), zero_smul]
  rw [← Finset.sum_subset hsub hzero, List.sum_toFinset _ hkeys]
  unfold valueOver unknowns
  rw [List.map_map]
  congr 1
  apply List.map_congr_left
  intro p hp
  simp only [Function.comp_apply, coeff_of_mem hkeys hp]

omit [DecidableEq V] in
theorem valueIn_eq_valueOver {K : Type} [Field K] [CharZero K] (i : Inequality V) (x : V → K) :
    i.valueIn x = i.valueOver x := by
  simp only [valueIn, valueOver, Rat.smul_def]

end Inequality

/-- **Multipliers that refute inequalities**: one for each, of the right sign; they cancel every
variable, leave a number that is not negative, and are normalized. -/
structure Refutes (is : List (Inequality V)) (ms : List Rat) : Prop where
  length_eq : ms.length = is.length
  sign : ∀ w ∈ is.zip ms, signOk w.1.sense w.2 = true
  cancels : ∀ v, Rational.total ((is.zip ms).map fun w => w.2 * w.1.coeff v) = 0
  rhs_nonneg : 0 ≤ weightedRhs (is.zip ms)
  normalized : weightedRhs (is.zip ms) + strictWeight (is.zip ms) = 1

theorem mem_allUnknowns {is : List (Inequality V)} {v : V} :
    v ∈ Inequality.allUnknowns is ↔ ∃ i ∈ is, v ∈ i.unknowns := by
  unfold Inequality.allUnknowns
  rw [List.mem_eraseDups, List.mem_flatMap]

theorem nodup_allUnknowns (is : List (Inequality V)) : (Inequality.allUnknowns is).Nodup :=
  nodup_eraseDups _

theorem Refutes.of_unknowns {is : List (Inequality V)} {ms : List Rat}
    (hlen : ms.length = is.length) (hsign : ∀ w ∈ is.zip ms, signOk w.1.sense w.2 = true)
    (hcancel : ∀ v ∈ Inequality.allUnknowns is,
      Rational.total ((is.zip ms).map fun w => w.2 * w.1.coeff v) = 0)
    (hrhs : 0 ≤ weightedRhs (is.zip ms))
    (hnorm : weightedRhs (is.zip ms) + strictWeight (is.zip ms) = 1) : Refutes is ms := by
  refine ⟨hlen, hsign, fun v => ?_, hrhs, hnorm⟩
  by_cases hv : v ∈ Inequality.allUnknowns is
  · exact hcancel v hv
  · have hzero : ∀ i ∈ is, i.coeff v = 0 := fun i hi =>
      Inequality.coeff_eq_zero fun h => hv (mem_allUnknowns.2 ⟨i, hi, h⟩)
    rw [total_zip_eq_dot fun i : Inequality V => i.coeff v, dot_comm]
    exact dot_eq_zero (by simpa using hzero) ms

theorem check_multipliers_iff {is : List (Inequality V)} {ms : List Rat} :
    (Certificate.multipliers ms : Certificate V).check is = true ↔ Refutes is ms := by
  simp only [Certificate.check, Bool.and_eq_true, beq_iff_eq, List.all_eq_true, decide_eq_true_eq]
  unfold weighted
  constructor
  · rintro ⟨⟨⟨⟨hlen, hsign⟩, hcancel⟩, hrhs⟩, hnorm⟩
    exact .of_unknowns hlen hsign hcancel hrhs hnorm
  · intro h
    exact ⟨⟨⟨⟨h.length_eq, h.sign⟩, fun v _ => h.cancels v⟩, h.rhs_nonneg⟩, h.normalized⟩

/-- What a strict inequality with a multiplier contributes to `strictWeight`. -/
def Sense.strictPart (s : Sense) (m : Rat) : Rat :=
  match s with
  | gt => m
  | lt => -m
  | _ => 0

theorem sum_smul_valueOver_eq_zero {ws : List (Inequality V × Rat)} (x : V → Λ)
    (hkeys : ∀ w ∈ ws, w.1.unknowns.Nodup)
    (hcancel : ∀ v, Rational.total (ws.map fun w => w.2 * w.1.coeff v) = 0) :
    (ws.map fun w => w.2 • w.1.valueOver x).sum = 0 := by
  let S : Finset V := (ws.flatMap fun w => w.1.unknowns).toFinset
  have hsum : ∀ us : List (Inequality V × Rat), (∀ u ∈ us, u ∈ ws) →
      (us.map fun w => w.2 • w.1.valueOver x).sum =
        ∑ v ∈ S, Rational.total (us.map fun w => w.2 * w.1.coeff v) • x v := by
    intro us
    induction us with
    | nil => simp [Rational.total]
    | cons u us ih =>
      intro hus
      have hu : u ∈ ws := hus u (by simp)
      have hS : ∀ v ∈ u.1.unknowns, v ∈ S := fun v hv =>
        List.mem_toFinset.2 (List.mem_flatMap.2 ⟨u, hu, hv⟩)
      rw [List.map_cons, List.sum_cons, ih fun w hw => hus w (by simp [hw]),
        Inequality.valueOver_eq_sum (hkeys u hu) x hS, Finset.smul_sum, ← Finset.sum_add_distrib]
      apply Finset.sum_congr rfl
      intro v _
      simp only [List.map_cons, Rational.total, add_smul, mul_smul]
  rw [hsum ws fun _ h => h]
  apply Finset.sum_eq_zero
  intro v _
  rw [hcancel, zero_smul]

variable [LinearOrder Λ] [IsOrderedAddMonoid Λ] [PosSMulStrictMono ℚ Λ]

/-- An inequality that holds, times a multiplier of the right sign, bounds its right side by its left
side; strictly so if it is strict and the multiplier is not zero. -/
theorem smul_le_of_signOk {s : Sense} {m : Rat} {p q : Λ} (hm : signOk s m = true)
    (h : s.Compares p q) :
    0 ≤ s.strictPart m ∧ m • q ≤ m • p ∧ (0 < s.strictPart m → m • q < m • p) := by
  cases s <;> simp only [signOk, decide_eq_true_eq, Sense.Compares, Sense.strictPart] at hm h ⊢
  · exact ⟨le_rfl, smul_le_smul_of_nonpos_left h hm, fun h => absurd h (lt_irrefl _)⟩
  · refine ⟨by linarith, smul_le_smul_of_nonpos_left h.le hm, fun hpos => ?_⟩
    exact smul_lt_smul_of_neg_left h (by linarith)
  · exact ⟨le_rfl, smul_le_smul_of_nonneg_left h hm, fun h => absurd h (lt_irrefl _)⟩
  · exact ⟨hm, smul_le_smul_of_nonneg_left h.le hm, fun hpos => smul_lt_smul_of_pos_left h hpos⟩
  · exact ⟨le_rfl, by rw [h], fun h => absurd h (lt_irrefl _)⟩

omit [DecidableEq V] in
/-- The same for a whole list of inequalities between given left and right sides. -/
theorem sum_smul_le {ws : List (Inequality V × Rat)} {f g : Inequality V → Λ}
    (hsign : ∀ w ∈ ws, signOk w.1.sense w.2 = true)
    (hholds : ∀ w ∈ ws, w.1.sense.Compares (f w.1) (g w.1)) :
    0 ≤ strictWeight ws ∧
      (ws.map fun w => w.2 • g w.1).sum ≤ (ws.map fun w => w.2 • f w.1).sum ∧
      (0 < strictWeight ws →
        (ws.map fun w => w.2 • g w.1).sum < (ws.map fun w => w.2 • f w.1).sum) := by
  induction ws with
  | nil => simp [strictWeight, Rational.total]
  | cons w ws ih =>
    obtain ⟨hpart, hle, hlt⟩ := smul_le_of_signOk (hsign w (by simp)) (hholds w (by simp))
    obtain ⟨hparts, hles, hlts⟩ := ih (fun u hu => hsign u (by simp [hu]))
      (fun u hu => hholds u (by simp [hu]))
    have hstrict : strictWeight (w :: ws) = w.1.sense.strictPart w.2 + strictWeight ws := by
      cases hs : w.1.sense <;> simp [strictWeight, Rational.total, Sense.strictPart, hs]
    simp only [hstrict, List.map_cons, List.sum_cons]
    refine ⟨by linarith, add_le_add hle hles, fun hpos => ?_⟩
    by_cases h : 0 < w.1.sense.strictPart w.2
    · exact add_lt_add_of_lt_of_le (hlt h) hles
    · exact add_lt_add_of_le_of_lt hle (hlts (by linarith))

/-- **Refuted inequalities with zero on the right have no common point**, whatever ordered vector space
its coordinates are in. -/
theorem Refutes.not_compares_zero {is : List (Inequality V)} {ms : List Rat} (h : Refutes is ms)
    (hkeys : ∀ i ∈ is, i.unknowns.Nodup) (hrhs : ∀ i ∈ is, i.rhs = 0) (x : V → Λ) :
    ¬ ∀ i ∈ is, i.sense.Compares (i.valueOver x) 0 := by
  intro hholds
  have hmem : ∀ w ∈ is.zip ms, w.1 ∈ is := fun w hw => (List.of_mem_zip hw).1
  obtain ⟨-, -, hlt⟩ := sum_smul_le (f := fun i => i.valueOver x) (g := fun _ => 0)
    h.sign fun w hw => hholds w.1 (hmem w hw)
  rw [sum_smul_valueOver_eq_zero x (fun w hw => hkeys w.1 (hmem w hw)) h.cancels] at hlt
  have hzero : weightedRhs (is.zip ms) = 0 := by
    unfold weightedRhs
    rw [total_zip_eq_dot fun i : Inequality V => i.rhs, dot_comm]
    exact dot_eq_zero (by simpa using hrhs) ms
  have hstrict : 0 < strictWeight (is.zip ms) := by
    have := h.normalized
    rw [hzero] at this
    linarith
  exact absurd (hlt hstrict) (by simp)

end Module

section Field

variable {K : Type} [Field K] [LinearOrder K] [IsStrictOrderedRing K]

omit [DecidableEq V] in
theorem sum_smul_rhs (ws : List (Inequality V × Rat)) :
    (ws.map fun w => w.2 • (w.1.rhs : K)).sum = (weightedRhs ws : K) := by
  simp only [weightedRhs, Rat.smul_def]
  induction ws with
  | nil => simp [Rational.total]
  | cons w ws ih => simp [Rational.total, ih]

/-- **Refuted inequalities have no common point**, whatever ordered field its coordinates are in. -/
theorem Refutes.not_holdsIn {is : List (Inequality V)} {ms : List Rat} (h : Refutes is ms)
    (hkeys : ∀ i ∈ is, i.unknowns.Nodup) (x : V → K) : ¬ ∀ i ∈ is, i.HoldsIn x := by
  intro hholds
  have hpos : PosSMulStrictMono ℚ K := ⟨fun q hq a b hab => by
    have hq' : (0 : K) < q := by exact_mod_cast hq
    simpa only [Rat.smul_def] using mul_lt_mul_of_pos_left hab hq'⟩
  have hmem : ∀ w ∈ is.zip ms, w.1 ∈ is := fun w hw => (List.of_mem_zip hw).1
  obtain ⟨-, hle, hlt⟩ := sum_smul_le (f := fun i => i.valueOver x) (g := fun i => (i.rhs : K))
    h.sign fun w hw => by
      rw [← Inequality.valueIn_eq_valueOver]
      exact hholds w.1 (hmem w hw)
  rw [sum_smul_valueOver_eq_zero x (fun w hw => hkeys w.1 (hmem w hw)) h.cancels,
    sum_smul_rhs] at hle hlt
  have hrhs : weightedRhs (is.zip ms) = 0 := by
    have hle' : weightedRhs (is.zip ms) ≤ 0 := by exact_mod_cast hle
    exact le_antisymm hle' h.rhs_nonneg
  have hstrict : 0 < strictWeight (is.zip ms) := by
    have := h.normalized
    linarith
  have := hlt hstrict
  rw [hrhs, Rat.cast_zero] at this
  exact lt_irrefl _ this

end Field

/-- **Weights that are found become multipliers that refute the inequalities**, provided the rows were
made with the coefficients of the inequalities. -/
theorem refutes_of_decideRows {vars : List V} {coeff : Inequality V → V → Rat}
    {is : List (Inequality V)} {ws : List Rat}
    (h : decideRows vars.length (toRows vars coeff is) = .weights ws)
    (hcoeff : ∀ v ∈ Inequality.allUnknowns is, v ∈ vars ∧ ∀ i ∈ is, coeff i v = i.coeff v) :
    Refutes is (normalizeMultipliers is (toMultipliers is ws)) := by
  obtain ⟨hlen, hcancel, s, hnonneg, hequal, hstrict, hfalse⟩ := weights_of_decideRows h
  -- `-b` is what the right sides leave, and `t` what the strict inequalities add to it.
  let b := dot ws (is.map fun i => i.sense.turn * i.rhs)
  let t := dot ws (is.map (·.sense.strictness))
  have hterm : ∀ k, 0 ≤ ws.getD k 0 * (is.map (·.sense.strictness)).getD k 0 := by
    intro k
    rw [List.getD_eq_getElem?_getD (l := is.map _), List.getElem?_map]
    cases hi : is[k]? with
    | none => simp
    | some i =>
      by_cases hs : i.sense = .eq
      · simp [hs, Sense.strictness]
      · have hw := hnonneg k i hi hs
        have hst : 0 ≤ i.sense.strictness := by cases i.sense <;> simp [Sense.strictness]
        simpa using mul_nonneg hw hst
  have ht : 0 ≤ t := dot_nonneg hterm
  -- Either the sum is positive, or every inequality that is no equation has weight zero.
  have hsum : 0 ≤ -b / (-b + t) ∧ -b + t ≠ 0 ∧
      (0 < -b + t ∨ ∀ k i, is[k]? = some i → i.sense ≠ .eq → ws.getD k 0 = 0) := by
    cases s with
    | equal =>
      have hb : b ≠ 0 := fun hb => hfalse hb.symm
      have hzero := hequal rfl
      have ht0 : t = 0 := dot_eq_zero_of_getD fun k => by
        rw [List.getD_eq_getElem?_getD (l := is.map _), List.getElem?_map]
        cases hi : is[k]? with
        | none => simp
        | some i =>
          by_cases hs : i.sense = .eq
          · simp [hs, Sense.strictness]
          · rw [hzero k i hi hs, zero_mul]
      rw [ht0, add_zero, div_self (neg_ne_zero.2 hb)]
      exact ⟨zero_le_one, neg_ne_zero.2 hb, .inr hzero⟩
    | weak =>
      have hb : b < 0 := not_le.1 hfalse
      have hpos : 0 < -b + t := by linarith
      exact ⟨div_nonneg (by linarith) hpos.le, hpos.ne', .inl hpos⟩
    | strict =>
      have hb : b ≤ 0 := not_lt.1 hfalse
      obtain ⟨k, i, hi, hst, hw⟩ := hstrict rfl
      have htpos : 0 < t := by
        refine dot_pos hterm (k := k) ?_
        rw [List.getD_eq_getElem?_getD (l := is.map _), List.getElem?_map, hi]
        simpa [hst] using hw
      have hpos : 0 < -b + t := by linarith
      exact ⟨div_nonneg (by linarith) hpos.le, hpos.ne', .inl hpos⟩
  obtain ⟨hquot, hne, hsign⟩ := hsum
  have htotal : normalizeMultipliers is (toMultipliers is ws) =
      (toMultipliers is ws).map (· / (-b + t)) := by
    unfold normalizeMultipliers weighted
    rw [weightedRhs_toMultipliers, strictWeight_toMultipliers]
  have hdiv : ∀ f : Inequality V → Rat,
      Rational.total ((is.zip (normalizeMultipliers is (toMultipliers is ws))).map
        fun w => w.2 * f w.1) = -dot ws (is.map fun i => i.sense.turn * f i) / (-b + t) := by
    intro f
    rw [total_zip_eq_dot, htotal, dot_map_div, dot_toMultipliers]
  have hrhs : weightedRhs (is.zip (normalizeMultipliers is (toMultipliers is ws))) =
      -b / (-b + t) := hdiv (·.rhs)
  have hstr : strictWeight (is.zip (normalizeMultipliers is (toMultipliers is ws))) =
      t / (-b + t) := by
    rw [strictWeight_eq_dot, htotal, dot_map_div, ← strictWeight_eq_dot,
      strictWeight_toMultipliers]
  refine .of_unknowns ?_ (fun w hw => ?_) (fun v hv => ?_) ?_ ?_
  · rw [htotal, List.length_map, length_toMultipliers hlen]
  · obtain ⟨k, hk⟩ := List.mem_iff_getElem?.1 hw
    obtain ⟨hi, hm⟩ := List.getElem?_zip_eq_some.1 hk
    have hklen : k < ws.length := by
      rw [hlen]
      exact (List.getElem?_eq_some_iff.1 hi).1
    have hws : ws[k]? = some (ws.getD k 0) := by
      rw [List.getD_eq_getElem?_getD, List.getElem?_eq_getElem hklen]
      rfl
    rw [htotal, List.getElem?_map, getElem?_toMultipliers hi hws, Option.map_some,
      Option.some.injEq] at hm
    rw [← hm]
    apply signOk_turn
    intro heq
    rcases hsign with hpos | hzero
    · exact div_nonneg (hnonneg k _ hi heq) hpos.le
    · rw [hzero k _ hi heq, zero_div]
  · obtain ⟨hmem, hsame⟩ := hcoeff v hv
    have hmap : (is.map fun i => i.sense.turn * i.coeff v) =
        is.map fun i => i.sense.turn * coeff i v := by
      apply List.map_congr_left
      intro i hi
      rw [hsame i hi]
    rw [hdiv (·.coeff v), hmap, hcancel v hmem, neg_zero, zero_div]
  · rw [hrhs]
    exact hquot
  · rw [hrhs, hstr, ← add_div, div_self hne]

end Linear
end Majorant
