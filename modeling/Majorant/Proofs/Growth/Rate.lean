import Mathlib.Algebra.Order.Ring.Archimedean
import Mathlib.GroupTheory.DivisibleHull
import Mathlib.Tactic.FieldSimp
import Mathlib.Tactic.Linarith
import Mathlib.Tactic.Positivity

/-!
# Rates of growth

Positive elements of an ordered field that bound each other up to constants have the same *rate*.  Rates are
vectors over the rational numbers: products of elements become sums, and powers multiples.
-/

namespace Majorant
namespace Growth

variable {K : Type} [Field K] [LinearOrder K] [IsStrictOrderedRing K]

/-- The first element is at most a constant times the second one. -/
def Dominated (x y : K) : Prop := ∃ n : ℕ, x ≤ n * y

/-- Rates of growth: classes of elements that bound each other up to constants, and the quotients of such
classes by whole numbers. -/
abbrev Rate (K : Type) [Field K] [LinearOrder K] [IsStrictOrderedRing K] : Type :=
  DivisibleHull (AddUnits (ArchimedeanClass K))

noncomputable def growthClass (x : K) (hx : x ≠ 0) : AddUnits (ArchimedeanClass K) where
  val := .mk x
  neg := .mk x⁻¹
  val_neg := by rw [← ArchimedeanClass.mk_mul, mul_inv_cancel₀ hx, ArchimedeanClass.mk_one]
  neg_val := by rw [← ArchimedeanClass.mk_mul, inv_mul_cancel₀ hx, ArchimedeanClass.mk_one]

/-- **The rate of an element**; large elements have large rates. -/
noncomputable def rate (x : K) : Rate K :=
  if hx : x = 0 then 0 else -((growthClass x hx : AddUnits (ArchimedeanClass K)) : Rate K)

variable {x y : K}

theorem rate_of_ne_zero (hx : x ≠ 0) :
    rate x = -((growthClass x hx : AddUnits (ArchimedeanClass K)) : Rate K) := dif_neg hx

/-- **Rates compare as elements dominate each other.** -/
theorem rate_le_iff (hx : 0 < x) (hy : 0 < y) : rate x ≤ rate y ↔ Dominated x y := by
  rw [rate_of_ne_zero hx.ne', rate_of_ne_zero hy.ne', neg_le_neg_iff, DivisibleHull.mk_le_mk,
    PNat.val_ofNat, one_smul, one_smul, ← AddUnits.val_le_val]
  change ArchimedeanClass.mk y ≤ ArchimedeanClass.mk x ↔ _
  rw [ArchimedeanClass.mk_le_mk, abs_of_pos hx, abs_of_pos hy]
  simp only [nsmul_eq_mul, Dominated]

theorem rate_mono (hx : 0 < x) (hxy : x ≤ y) : rate x ≤ rate y :=
  (rate_le_iff hx (hx.trans_le hxy)).2 ⟨1, by simpa using hxy⟩

theorem rate_mul (hx : x ≠ 0) (hy : y ≠ 0) : rate (x * y) = rate x + rate y := by
  have hclass : growthClass (x * y) (mul_ne_zero hx hy) = growthClass x hx + growthClass y hy :=
    AddUnits.ext (ArchimedeanClass.mk_mul x y)
  rw [rate_of_ne_zero hx, rate_of_ne_zero hy, rate_of_ne_zero (mul_ne_zero hx hy), hclass,
    DivisibleHull.coe_add, neg_add]

@[simp]
theorem rate_one : rate (1 : K) = 0 := by
  have h : rate (1 * 1 : K) = rate 1 + rate 1 := rate_mul one_ne_zero one_ne_zero
  rw [mul_one] at h
  exact left_eq_add.1 h

theorem rate_pow (hx : x ≠ 0) (n : ℕ) : rate (x ^ n) = n • rate x := by
  induction n with
  | zero => simp
  | succ n ih => rw [pow_succ, rate_mul (pow_ne_zero n hx) hx, ih, succ_nsmul]

theorem rate_zpow (hx : x ≠ 0) (n : ℤ) : rate (x ^ n) = n • rate x := by
  have hinv : rate x⁻¹ = -rate x := by
    refine eq_neg_of_add_eq_zero_left ?_
    rw [← rate_mul (inv_ne_zero hx) hx, inv_mul_cancel₀ hx, rate_one]
  cases n with
  | ofNat n => rw [Int.ofNat_eq_natCast, zpow_natCast, rate_pow hx, natCast_zsmul]
  | negSucc n =>
    rw [zpow_negSucc, ← inv_pow, rate_pow (inv_ne_zero hx), hinv, negSucc_zsmul, neg_nsmul]

theorem rate_prod {xs : List K} (h : ∀ x ∈ xs, 0 < x) : rate xs.prod = (xs.map rate).sum := by
  induction xs with
  | nil => simp
  | cons x xs ih =>
    obtain ⟨hx, hxs⟩ := List.forall_mem_cons.1 h
    rw [List.prod_cons, rate_mul hx.ne' (List.prod_pos hxs).ne', ih hxs, List.map_cons, List.sum_cons]

theorem rate_add (hx : 0 < x) (hy : 0 < y) : rate (x + y) = max (rate x) (rate y) := by
  have hle : ∀ {a b : K}, 0 < a → a ≤ b → rate (a + b) ≤ rate b := by
    intro a b ha hab
    have hb : 0 < b := ha.trans_le hab
    refine (rate_le_iff (add_pos ha hb) hb).2 ⟨2, ?_⟩
    push_cast
    linarith
  apply le_antisymm
  · rcases le_total x y with hxy | hxy
    · exact (hle hx hxy).trans (le_max_right _ _)
    · rw [add_comm]
      exact (hle hy hxy).trans (le_max_left _ _)
  · exact max_le (rate_mono hx (by linarith)) (rate_mono hy (by linarith))

def HasRoots (K : Type) [Field K] [LinearOrder K] : Prop :=
  ∀ x : K, 0 < x → ∀ n : ℕ, n ≠ 0 → ∃ y, 0 < y ∧ y ^ n = x

open Classical in
/-- The positive root of an element, or zero if there is none. -/
noncomputable def root (n : ℕ) (x : K) : K :=
  if h : ∃ y, 0 < y ∧ y ^ n = x then h.choose else 0

noncomputable def ratPower (x : K) (q : ℚ) : K :=
  if q.den = 1 then x ^ q.num else root q.den (x ^ q.num)

omit [IsStrictOrderedRing K] in
theorem ratPower_of_den_eq_one {q : ℚ} (hq : q.den = 1) : ratPower x q = x ^ q.num :=
  if_pos hq

theorem ratPower_zero {q : ℚ} (hq : q.den ≠ 1) : ratPower (0 : K) q = 0 := by
  have hnum : q.num ≠ 0 := by
    intro hnum
    rw [Rat.num_eq_zero.1 hnum] at hq
    exact hq rfl
  rw [ratPower, if_neg hq, zero_zpow _ hnum, root, dif_neg]
  rintro ⟨y, hy, hpow⟩
  exact (pow_pos hy q.den).ne' hpow

theorem ratPower_spec (hroots : HasRoots K) (hx : 0 < x) (q : ℚ) :
    0 < ratPower x q ∧ ratPower x q ^ q.den = x ^ q.num := by
  have hpow : 0 < x ^ q.num := zpow_pos hx _
  unfold ratPower
  by_cases hq : q.den = 1
  · rw [if_pos hq, hq, pow_one]
    exact ⟨hpow, rfl⟩
  · have hroot := hroots _ hpow q.den q.den_ne_zero
    rw [if_neg hq, root, dif_pos hroot]
    exact hroot.choose_spec

theorem eq_ratPower (hroots : HasRoots K) (hx : 0 < x) {q : ℚ} (hy : 0 < y)
    (hpow : y ^ q.den = x ^ q.num) : y = ratPower x q := by
  obtain ⟨hpos, hspec⟩ := ratPower_spec hroots hx q
  exact (pow_left_inj₀ hy.le hpos.le q.den_ne_zero).1 (hpow.trans hspec.symm)

theorem rate_ratPower (hroots : HasRoots K) (hx : 0 < x) (q : ℚ) :
    rate (ratPower x q) = q • rate x := by
  obtain ⟨hpos, hspec⟩ := ratPower_spec hroots hx q
  have hden : (q.den : ℚ) ≠ 0 := by exact_mod_cast q.den_ne_zero
  refine smul_right_injective (Rate K) hden ?_
  calc (q.den : ℚ) • rate (ratPower x q)
      = q.den • rate (ratPower x q) := Nat.cast_smul_eq_nsmul ℚ _ _
    _ = q.num • rate x := by rw [← rate_pow hpos.ne', hspec, rate_zpow hx.ne']
    _ = (q.num : ℚ) • rate x := (Int.cast_smul_eq_zsmul ℚ _ _).symm
    _ = (q.den : ℚ) • q • rate x := by rw [← mul_smul, mul_comm, Rat.mul_den_eq_num]

end Growth
end Majorant
