import Majorant.Proofs.Magnitude.Degree
import Majorant.Proofs.Real.Truth
import Mathlib.Analysis.SpecialFunctions.Pow.Asymptotics

/-!
# Exponents of functions

A positive function of a large number has an exponent if it grows like a power, up to factors that grow more
slowly than every power.  The exponent is the limit of the quotient of logarithms.
-/

namespace Majorant
namespace Growth
open Filter Topology Magnitude

/-- **The exponent of a function** that is positive for all numbers from one on. -/
structure HasExponent (f : ℝ → ℝ) (p : ℚ) : Prop where
  pos : ∀ x, 1 ≤ x → 0 < f x
  tendsto : Tendsto (fun x => Real.log (f x) / Real.log x) atTop (𝓝 (p : ℝ))

namespace HasExponent

variable {f g : ℝ → ℝ} {p q : ℚ}

theorem unique (hp : HasExponent f p) (hq : HasExponent f q) : p = q := by
  exact_mod_cast tendsto_nhds_unique hp.tendsto hq.tendsto

theorem congr_log {u : ℝ → ℝ} (hpos : ∀ x, 1 ≤ x → 0 < f x) (hu : Tendsto u atTop (𝓝 (p : ℝ)))
    (heq : ∀ x, 1 < x → Real.log (f x) / Real.log x = u x) : HasExponent f p := by
  refine ⟨hpos, hu.congr' ?_⟩
  filter_upwards [eventually_gt_atTop 1] with x hx
  exact (heq x hx).symm

theorem const {c : ℝ} (hc : 0 < c) : HasExponent (fun _ => c) 0 := by
  refine ⟨fun _ _ => hc, ?_⟩
  rw [Rat.cast_zero]
  exact Real.tendsto_log_atTop.const_div_atTop (Real.log c)

theorem self_rpow (p : ℚ) : HasExponent (fun x => x ^ (p : ℝ)) p := by
  refine congr_log (fun x hx => Real.rpow_pos_of_pos (one_pos.trans_le hx) _) tendsto_const_nhds fun x hx => ?_
  rw [Real.log_rpow (one_pos.trans hx), mul_div_cancel_right₀ _ (Real.log_pos hx).ne']

theorem mul (hf : HasExponent f p) (hg : HasExponent g q) : HasExponent (fun x => f x * g x) (p + q) := by
  refine congr_log (fun x hx => mul_pos (hf.pos x hx) (hg.pos x hx)) (u := fun x =>
    Real.log (f x) / Real.log x + Real.log (g x) / Real.log x) ?_ fun x hx => ?_
  · rw [Rat.cast_add]
    exact hf.tendsto.add hg.tendsto
  · rw [Real.log_mul (hf.pos x hx.le).ne' (hg.pos x hx.le).ne', add_div]

theorem rpow (hf : HasExponent f p) (q : ℚ) : HasExponent (fun x => f x ^ (q : ℝ)) (q * p) := by
  refine congr_log (fun x hx => Real.rpow_pos_of_pos (hf.pos x hx) _) (u := fun x =>
    q * (Real.log (f x) / Real.log x)) ?_ fun x hx => ?_
  · rw [Rat.cast_mul]
    exact hf.tendsto.const_mul _
  · rw [Real.log_rpow (hf.pos x hx.le), mul_div_assoc]

theorem inv (hf : HasExponent f p) : HasExponent (fun x => (f x)⁻¹) (-p) := by
  refine congr_log (fun x hx => inv_pos.2 (hf.pos x hx)) (u := fun x =>
    -(Real.log (f x) / Real.log x)) ?_ fun x hx => ?_
  · rw [Rat.cast_neg]
    exact hf.tendsto.neg
  · rw [Real.log_inv, neg_div]

theorem div (hf : HasExponent f p) (hg : HasExponent g q) : HasExponent (fun x => f x / g x) (p - q) := by
  simp only [div_eq_mul_inv, sub_eq_add_neg]
  exact hf.mul hg.inv

theorem max (hf : HasExponent f p) (hg : HasExponent g q) :
    HasExponent (fun x => Max.max (f x) (g x)) (Max.max p q) := by
  refine congr_log (fun x hx => lt_max_of_lt_left (hf.pos x hx)) (u := fun x =>
    Max.max (Real.log (f x) / Real.log x) (Real.log (g x) / Real.log x)) ?_ fun x hx => ?_
  · rw [Rat.cast_max]
    exact hf.tendsto.max hg.tendsto
  · rw [max_div_div_right (Real.log_pos hx).le]
    congr 1
    exact Real.strictMonoOn_log.monotoneOn.map_max (hf.pos x hx.le) (hg.pos x hx.le)

/-- **A constant factor does not count.** -/
theorem of_le_of_le (hf : HasExponent f p) (hle : ∀ x, 1 ≤ x → f x ≤ g x)
    (hge : ∀ x, 1 ≤ x → g x ≤ 2 * f x) : HasExponent g p := by
  have hpos : ∀ x, 1 ≤ x → 0 < g x := fun x hx => (hf.pos x hx).trans_le (hle x hx)
  have hupper : HasExponent (fun x => 2 * f x) p := by
    simpa using (const two_pos).mul hf
  refine ⟨hpos, tendsto_of_tendsto_of_tendsto_of_le_of_le' hf.tendsto hupper.tendsto ?_ ?_⟩
  · filter_upwards [eventually_gt_atTop 1] with x hx
    have hlog := Real.log_le_log (hf.pos x hx.le) (hle x hx.le)
    exact div_le_div_of_nonneg_right hlog (Real.log_pos hx).le
  · filter_upwards [eventually_gt_atTop 1] with x hx
    have hlog := Real.log_le_log (hpos x hx.le) (hge x hx.le)
    exact div_le_div_of_nonneg_right hlog (Real.log_pos hx).le

theorem congr (hf : HasExponent f p) (heq : ∀ x, 1 ≤ x → f x = g x) : HasExponent g p := by
  refine hf.of_le_of_le (fun x hx => (heq x hx).le) fun x hx => ?_
  have hpos := hf.pos x hx
  rw [← heq x hx]
  linarith

theorem add (hf : HasExponent f p) (hg : HasExponent g q) :
    HasExponent (fun x => f x + g x) (Max.max p q) := by
  refine (hf.max hg).of_le_of_le (fun x hx => ?_) fun x hx => ?_
  · exact max_le_add_of_nonneg (hf.pos x hx).le (hg.pos x hx).le
  · rw [two_mul]
    exact add_le_add (le_max_left _ _) (le_max_right _ _)

variable {α : Type*} {as : List α} {φ : α → ℝ → ℝ} {e : α → ℚ}

theorem list_prod (has : ∀ a ∈ as, HasExponent (φ a) (e a)) :
    HasExponent (fun x => (as.map fun a => φ a x).prod) (as.map e).sum := by
  induction as with
  | nil => exact const one_pos
  | cons a as ih =>
    obtain ⟨ha, hrest⟩ := List.forall_mem_cons.1 has
    simp only [List.map_cons, List.prod_cons, List.sum_cons]
    exact ha.mul (ih hrest)

/-- An operation on several functions, done one by one, that takes the larger exponent each time. -/
theorem list_extreme {F : List ℝ → ℝ} {G : ℝ → ℝ → ℝ} (hone : ∀ x, F [x] = x)
    (hcons : ∀ x xs, xs ≠ [] → F (x :: xs) = G x (F xs))
    (hG : ∀ {f g p q}, HasExponent f p → HasExponent g q →
      HasExponent (fun x => G (f x) (g x)) (Max.max p q))
    (hne : as ≠ []) (has : ∀ a ∈ as, HasExponent (φ a) (e a)) :
    HasExponent (fun x => F (as.map fun a => φ a x)) ((as.map e).max?.getD 0) := by
  induction as with
  | nil => exact absurd rfl hne
  | cons a as ih =>
    obtain ⟨ha, hrest⟩ := List.forall_mem_cons.1 has
    by_cases hnil : as = []
    · subst hnil
      simpa [hone] using ha
    · have hmap : as.map e ≠ [] := by simpa using hnil
      obtain ⟨m, hm⟩ := Option.ne_none_iff_exists'.1 (mt List.max?_eq_none_iff.1 hmap)
      have hmax : ((a :: as).map e).max?.getD 0 = Max.max (e a) ((as.map e).max?.getD 0) := by
        rw [List.map_cons, List.max?_cons, hm]
        rfl
      have hvalue : ∀ x, F ((a :: as).map fun b => φ b x) = G (φ a x) (F (as.map fun b => φ b x)) :=
        fun x => hcons _ _ (by simpa using hnil)
      rw [hmax]
      simp only [hvalue]
      exact hG ha (ih hnil hrest)

theorem list_sum (hne : as ≠ []) (has : ∀ a ∈ as, HasExponent (φ a) (e a)) :
    HasExponent (fun x => (as.map fun a => φ a x).sum) ((as.map e).max?.getD 0) :=
  list_extreme (G := (· + ·)) (fun x => by simp) (fun x xs _ => List.sum_cons) add hne has

theorem greatestOf_cons {x : ℝ} {xs : List ℝ} (hne : xs ≠ []) :
    greatestOf (x :: xs) = Max.max x (greatestOf xs) := by
  cases xs with
  | nil => exact absurd rfl hne
  | cons y ys => exact List.foldl_assoc

theorem list_max (hne : as ≠ []) (has : ∀ a ∈ as, HasExponent (φ a) (e a)) :
    HasExponent (fun x => greatestOf (as.map fun a => φ a x)) ((as.map e).max?.getD 0) :=
  list_extreme (G := Max.max) (fun _ => rfl) (fun _ _ => greatestOf_cons) max hne has

end HasExponent

/-- A whole number next to a power, or the reciprocal of one if the exponent is negative. -/
noncomputable def rationalPower (p : ℚ) (x : ℝ) : ℝ :=
  if 0 ≤ p then ⌈x ^ (p : ℝ)⌉₊ else (⌈x ^ ((-p : ℚ) : ℝ)⌉₊ : ℝ)⁻¹

theorem hasExponent_ceil {p : ℚ} (hp : 0 ≤ p) : HasExponent (fun x => (⌈x ^ (p : ℝ)⌉₊ : ℝ)) p := by
  refine (HasExponent.self_rpow p).of_le_of_le (fun x _ => Nat.le_ceil _) fun x hx => ?_
  have hone : 1 ≤ x ^ (p : ℝ) := Real.one_le_rpow hx (by exact_mod_cast hp)
  have hceil := (Nat.ceil_lt_add_one (zero_le_one.trans hone)).le
  linarith

theorem hasExponent_rationalPower (p : ℚ) : HasExponent (rationalPower p) p := by
  unfold rationalPower
  split_ifs with hp
  · exact hasExponent_ceil hp
  · have hneg : 0 ≤ -p := by linarith
    simpa using (hasExponent_ceil hneg).inv

theorem exists_rat_rationalPower (p : ℚ) (x : ℝ) : ∃ q : ℚ, rationalPower p x = q := by
  unfold rationalPower
  split_ifs
  · exact ⟨⌈x ^ (p : ℝ)⌉₊, by simp⟩
  · exact ⟨(⌈x ^ ((-p : ℚ) : ℝ)⌉₊ : ℚ)⁻¹, by simp⟩

theorem exists_int_rationalPower {p : ℚ} (hp : 0 ≤ p) (x : ℝ) : ∃ n : ℤ, rationalPower p x = n := by
  unfold rationalPower
  rw [if_pos hp]
  exact ⟨⌈x ^ (p : ℝ)⌉₊, by simp⟩

/-- **A number of the kind of a positive variable** grows with its exponent. -/
theorem admits_rationalPower {v : Variable} (hv : (Term.var v).is .positive = true) {p : ℚ}
    (hp : v.kind = .posInt → 0 ≤ p) {x : ℝ} (hx : 1 ≤ x) : v.kind.Admits (rationalPower p x) := by
  have hpos := (hasExponent_rationalPower p).pos x hx
  rw [Term.is, Term.facts_var] at hv
  cases hkind : v.kind with
  | posInt => exact ⟨exists_int_rationalPower (hp hkind) x, hpos⟩
  | posRat => exact ⟨exists_rat_rationalPower p x, hpos⟩
  | posReal => exact ⟨True.intro, hpos⟩
  | _ =>
    rw [hkind] at hv
    exact absurd hv (by decide)

end Growth
end Majorant
