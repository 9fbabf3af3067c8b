import Majorant.Proofs.Magnitude.Recognition
import Majorant.Proofs.Real.LinearComparison

/-!
# Fixed and bounded quantities in families of valuations

A family of valuations lets the variables depend on a parameter.
-/

namespace Majorant
namespace Term
open Magnitude Regime

theorem exists_common_bound {ι : Type*} {f : Term → ι → ℝ} {as : List Term}
    (h : ∀ a ∈ as, ∃ M, ∀ i, |f a i| ≤ M) : ∃ M, 0 ≤ M ∧ ∀ i, ∀ a ∈ as, |f a i| ≤ M := by
  induction as with
  | nil => exact ⟨0, le_refl 0, fun i => nofun⟩
  | cons a as ih =>
    obtain ⟨⟨M, hM⟩, has⟩ := List.forall_mem_cons.1 h
    obtain ⟨N, hN, hall⟩ := ih has
    refine ⟨max M N, hN.trans (le_max_right M N), fun i => List.forall_mem_cons.2 ⟨?_, fun b hb => ?_⟩⟩
    · exact (hM i).trans (le_max_left M N)
    · exact (hall i b hb).trans (le_max_right M N)

theorem abs_sum_le {xs : List ℝ} {M : ℝ} (h : ∀ x ∈ xs, |x| ≤ M) : |xs.sum| ≤ xs.length * M := by
  induction xs with
  | nil => simp
  | cons x xs ih =>
    obtain ⟨hx, hxs⟩ := List.forall_mem_cons.1 h
    calc |(x :: xs).sum| ≤ |x| + |xs.sum| := by
          rw [List.sum_cons]
          exact abs_add_le x xs.sum
      _ ≤ M + xs.length * M := add_le_add hx (ih hxs)
      _ = (x :: xs).length * M := by
          push_cast [List.length_cons]
          ring

theorem abs_prod_le {xs : List ℝ} {M : ℝ} (hM : 0 ≤ M) (h : ∀ x ∈ xs, |x| ≤ M) :
    |xs.prod| ≤ M ^ xs.length := by
  induction xs with
  | nil => simp
  | cons x xs ih =>
    obtain ⟨hx, hxs⟩ := List.forall_mem_cons.1 h
    rw [List.prod_cons, abs_mul, List.length_cons, pow_succ']
    exact mul_le_mul hx (ih hxs) (abs_nonneg _) hM

theorem abs_rpow_le {x y M N : ℝ} (hx : |x| ≤ M) (hy : 0 ≤ y) (hyN : |y| ≤ N) :
    |x ^ y| ≤ max 1 M ^ N := by
  calc |x ^ y| ≤ |x| ^ y := Real.abs_rpow_le_abs_rpow x y
    _ ≤ max 1 M ^ y := Real.rpow_le_rpow (abs_nonneg x) (hx.trans (le_max_right 1 M)) hy
    _ ≤ max 1 M ^ N :=
        Real.rpow_le_rpow_of_exponent_le (le_max_left 1 M) ((le_abs_self y).trans hyN)

/-- **Terms that cannot be negative by the way they are composed**, from linear forms that are said to be
nonnegative. -/
inductive EvidentlyNonneg : Term → Prop
  | linear {t : Term} (hlinear : t.isLinear = true) (hnonneg : t.is .nonnegative = true) : EvidentlyNonneg t
  | abs (a : Term) : EvidentlyNonneg (app .abs [a])
  | add {as : List Term} (has : ∀ a ∈ as, EvidentlyNonneg a) : EvidentlyNonneg (app .add as)
  | mul {as : List Term} (has : ∀ a ∈ as, EvidentlyNonneg a) : EvidentlyNonneg (app .mul as)
  | max {as : List Term} {a : Term} (ha : a ∈ as) (hnonneg : EvidentlyNonneg a) :
      EvidentlyNonneg (app .max as)
  | min {as : List Term} (hne : as ≠ []) (has : ∀ a ∈ as, EvidentlyNonneg a) :
      EvidentlyNonneg (app .min as)
  | pow {b : Term} (hb : EvidentlyNonneg b) (e : Term) : EvidentlyNonneg (app .pow [b, e])
  | evenPow (b : Term) (n : ℕ) : EvidentlyNonneg (app .pow [b, num (2 * n)])

section Signs

variable {σ : Valuation} {t : Term} (hfits : ∀ v : Variable, v.kind.isNumeric = true → v.kind.Admits (σ v))

include hfits

/-- A linear form that is said to be nonnegative is so at numbers of the right kinds. -/
theorem nonneg_of_isLinear (hlinear : t.isLinear = true) (hnonneg : t.is .nonnegative = true) :
    0 ≤ t.val σ := by
  let w : World Unit := ⟨σ, hfits, fun _ => (), fun _ => True⟩
  exact (allows_facts (w := w) hlinear).of_is hnonneg

/-- **What is composed of nonnegative parts is nonnegative** at numbers of the right kinds. -/
theorem EvidentlyNonneg.nonneg (ht : EvidentlyNonneg t) : 0 ≤ t.val σ := by
  induction ht with
  | linear hlinear hnonneg => exact nonneg_of_isLinear hfits hlinear hnonneg
  | abs a =>
    rw [val_abs]
    exact abs_nonneg _
  | add _ ih =>
    rw [val_add]
    exact List.sum_nonneg (List.forall_mem_map.2 ih)
  | mul _ ih =>
    rw [val_mul]
    exact List.prod_nonneg (List.forall_mem_map.2 ih)
  | @max as a ha _ ih =>
    have hmem : a.val σ ∈ as.map (val σ) := List.mem_map_of_mem ha
    rw [val_max]
    exact ih.trans ((isExtremal_greatestOf (List.ne_nil_of_mem hmem)).1 _ hmem)
  | min hne _ ih =>
    rw [val_min]
    exact List.forall_mem_map.2 ih _ (isExtremal_leastOf (by simpa using hne)).2
  | pow _ e ih =>
    rw [val_pow]
    exact Real.rpow_nonneg ih _
  | evenPow b n =>
    have hexponent : ((2 * n : ℚ) : ℝ) = ((2 * n : ℕ) : ℝ) := by push_cast; ring
    rw [val_pow, val_num, hexponent, Real.rpow_natCast]
    exact (even_two_mul n).pow_nonneg _

end Signs

variable {ι : Type*} (ρ : ι → Valuation) (hyps : List Term)

/-- The value of a term is the same in the whole family. -/
def Constant (t : Term) : Prop := ∀ i j, t.val (ρ i) = t.val (ρ j)

/-- The absolute value of a term has an upper bound over the family. -/
def Limited (t : Term) : Prop := ∃ M, ∀ i, |t.val (ρ i)| ≤ M

/-- **The family respects the kinds of the variables and the marks**: what is marked and denotes a number
throughout has the same value, or bounded values. -/
structure RespectsMarks : Prop where
  fits : ∀ i (v : Variable), v.kind.isNumeric = true → v.kind.Admits (ρ i v)
  fixed : ∀ e, app .fixed [e] ∈ hyps → (∀ i, e.Denotes (ρ i)) → Constant ρ e
  bounded : ∀ e, app .bounded [e] ∈ hyps → (∀ i, e.Denotes (ρ i)) → Limited ρ e

/-- **The answers about exponents are right**: an exponent in a term that is said to be nonnegative is so.
This need not be asked of an exponent that is composed of nonnegative parts. -/
def ExponentsRight (t : Term) : Prop :=
  ∀ b e, Occurs (app .pow [b, e]) t → e.is .nonnegative = true → ¬ EvidentlyNonneg e →
    ∀ i, 0 ≤ e.val (ρ i)

variable {ρ hyps} {t : Term} {h : Head} {as : List Term}

theorem ExponentsRight.of_mem (ht : ExponentsRight ρ (app h as)) {a : Term} (ha : a ∈ as) :
    ExponentsRight ρ a :=
  fun b e hoccurs => ht b e (.arg ha hoccurs)

theorem exponentsRight_num (q : ℚ) : ExponentsRight ρ (num q) := fun _ _ hoccurs => nomatch hoccurs

theorem exponentsRight_var (v : Variable) : ExponentsRight ρ (var v) :=
  fun _ _ hoccurs => nomatch hoccurs

theorem exponentsRight_app (hh : h ≠ .pow) (has : ∀ a ∈ as, ExponentsRight ρ a) :
    ExponentsRight ρ (app h as) := by
  rintro b e (_ | ⟨ha, hoccurs⟩)
  · exact absurd rfl hh
  · exact has _ ha b e hoccurs

theorem exponentsRight_pow {b e : Term} (hevident : e.is .nonnegative = true → EvidentlyNonneg e)
    (hb : ExponentsRight ρ b) (he : ExponentsRight ρ e) : ExponentsRight ρ (app .pow [b, e]) := by
  rintro b' e' (_ | ⟨ha, hoccurs⟩) hnonneg hvague
  · exact absurd (hevident hnonneg) hvague
  · have hparts : ∀ a ∈ [b, e], ExponentsRight ρ a :=
      List.forall_mem_cons.2 ⟨hb, List.forall_mem_singleton.2 he⟩
    exact hparts _ ha b' e' hoccurs hnonneg hvague

theorem ExponentsRight.nonneg {b e : Term} (hright : ExponentsRight ρ (app .pow [b, e]))
    (hρ : RespectsMarks ρ hyps) (hnonneg : e.is .nonnegative = true) (i : ι) : 0 ≤ e.val (ρ i) := by
  by_cases hevident : EvidentlyNonneg e
  · exact hevident.nonneg (hρ.fits i)
  · exact hright b e .refl hnonneg hevident i

theorem val_eq_of_isNumber (ht : t.isNumber = true) (σ τ : Valuation) : t.val σ = t.val τ := by
  induction t using args_induction with
  | step t ih =>
    cases t with
    | var v => cases ht
    | app h as =>
      rw [isNumber, Bool.and_eq_true, isNumberList_iff] at ht
      have hmap : as.map (val σ) = as.map (val τ) :=
        List.map_congr_left fun a ha => ih a ha (ht.2 a ha)
      rw [val_app, val_app, hmap]
    | lit l => cases l <;> rfl
    | _ => rfl

theorem not_denotes_of_isTwoValued {σ : Valuation} (ht : isTwoValued t = true) : ¬ t.Denotes σ := by
  intro hdenotes
  unfold isTwoValued at ht
  split at ht
  · exact hdenotes
  · next v =>
    rw [denotes_var, beq_iff_eq.1 ht] at hdenotes
    cases hdenotes
  · exact ((denotes_app _ _).1 hdenotes).2
  · exact ((denotes_app _ _).1 hdenotes).2
  · exact ((denotes_app _ _).1 hdenotes).2
  · exact ((denotes_app _ _).1 hdenotes).2
  · cases ht

theorem Constant.limited (ht : Constant ρ t) : Limited ρ t := by
  cases isEmpty_or_nonempty ι with
  | inl _ => exact ⟨0, isEmptyElim⟩
  | inr hne =>
    obtain ⟨i⟩ := hne
    exact ⟨|t.val (ρ i)|, fun j => by rw [ht j i]⟩

/-- **What there is a reason to call fixed has the same value in the whole family.** -/
theorem constant_of_fixedBy (hρ : RespectsMarks ρ hyps) (ht : FixedBy hyps t)
    (hdenotes : ∀ i, t.Denotes (ρ i)) : Constant ρ t := by
  induction ht with
  | number hnumber => exact fun i j => val_eq_of_isNumber hnumber (ρ i) (ρ j)
  | marked hmarked => exact hρ.fixed _ hmarked hdenotes
  | truth b => exact fun i j => rfl
  | parts _ _ ih =>
    intro i j
    rw [val_app, val_app, List.map_congr_left fun a ha => ih a ha (fun i => ?_) i j]
    exact ((denotes_app _ _).1 (hdenotes i)).1 a ha

theorem limited_app (hkeeps : keepsBounded h = true) (happlies : ∀ i, (app h as).Denotes (ρ i))
    (has : ∀ a ∈ as, Limited ρ a) [Nonempty ι] : Limited ρ (app h as) := by
  obtain ⟨M, hM, hbound⟩ := exists_common_bound has
  have hvalues : ∀ i, ∀ x ∈ as.map (val (ρ i)), |x| ≤ M := fun i => List.forall_mem_map.2 (hbound i)
  have hhead : ∀ i, h.AppliesTo (as.map (val (ρ i))) := fun i => ((denotes_app _ _).1 (happlies i)).2
  obtain ⟨i₀⟩ := ‹Nonempty ι›
  cases h with
  | add =>
    refine ⟨as.length * M, fun i => ?_⟩
    rw [val_add]
    simpa using abs_sum_le (hvalues i)
  | mul =>
    refine ⟨M ^ as.length, fun i => ?_⟩
    rw [val_mul]
    simpa using abs_prod_le hM (hvalues i)
  | abs =>
    refine ⟨M, fun i => ?_⟩
    cases as with
    | nil => exact (hhead i).elim
    | cons a as =>
      cases as with
      | nil => simpa using hvalues i
      | cons => exact (hhead i).elim
  | max =>
    refine ⟨M, fun i => hvalues i _ ?_⟩
    rw [val_max]
    exact (isExtremal_greatestOf (hhead i)).2
  | min =>
    refine ⟨M, fun i => hvalues i _ ?_⟩
    rw [val_min]
    exact (isExtremal_leastOf (hhead i)).2
  | theta | orderMul | orderMax | orderMin => exact (hhead i₀).elim
  | _ => cases hkeeps

/-- **What there is a reason to call bounded has bounded values in the family.** -/
theorem limited_of_boundedBy (hρ : RespectsMarks ρ hyps) (ht : BoundedBy hyps t)
    (hdenotes : ∀ i, t.Denotes (ρ i)) (hright : ExponentsRight ρ t) : Limited ρ t := by
  cases isEmpty_or_nonempty ι with
  | inl _ => exact ⟨0, isEmptyElim⟩
  | inr hne => ?_
  induction ht with
  | number hnumber => exact Constant.limited fun i j => val_eq_of_isNumber hnumber (ρ i) (ρ j)
  | marked hmarked =>
    rcases hmarked with hfixed | hbounded
    · exact (hρ.fixed _ hfixed hdenotes).limited
    · exact hρ.bounded _ hbounded hdenotes
  | @twoValued t htwo =>
    obtain ⟨i⟩ := hne
    exact absurd (hdenotes i) (not_denotes_of_isTwoValued htwo)
  | parts hkeeps _ ih =>
    refine limited_app hkeeps hdenotes fun a ha => ih a ha (fun i => ?_) (hright.of_mem ha)
    exact ((denotes_app _ _).1 (hdenotes i)).1 a ha
  | @power h b e hpower _ _ hnonneg hb he =>
    rcases hpower with rfl | rfl
    · have hparts : ∀ i, b.Denotes (ρ i) ∧ e.Denotes (ρ i) := fun i =>
        ((denotes_pow b e).1 (hdenotes i)).1
      obtain ⟨M, hM⟩ := hb (fun i => (hparts i).1) (hright.of_mem (by simp))
      obtain ⟨N, hN⟩ := he (fun i => (hparts i).2) (hright.of_mem (by simp))
      refine ⟨max 1 M ^ N, fun i => ?_⟩
      rw [val_pow]
      exact abs_rpow_le (hM i) (hright.nonneg hρ hnonneg i) (hN i)
    · obtain ⟨i⟩ := hne
      exact ((denotes_app _ _).1 (hdenotes i)).2.elim

/-- **Recognition is sound.**  In every family that respects the kinds and the marks, what is recognised as
fixed has the same value throughout and what is recognised as bounded has an upper bound; and more
hypotheses lead to more terms that are recognised. -/
theorem recognition_sound (hρ : RespectsMarks ρ hyps) (hdenotes : ∀ i, t.Denotes (ρ i))
    (hright : ExponentsRight ρ t) :
    (isFixed hyps t = true → ∀ i j, t.val (ρ i) = t.val (ρ j)) ∧
    (isBounded hyps t = true → ∃ M, ∀ i, |t.val (ρ i)| ≤ M) ∧
    ∀ hyps', hyps ⊆ hyps' → ∀ u, (isFixed hyps u = true → isFixed hyps' u = true) ∧
      (isBounded hyps u = true → isBounded hyps' u = true) := by
  refine ⟨fun hfixed => ?_, fun hbounded => ?_, fun hyps' hsub u => ⟨fun hu => ?_, fun hu => ?_⟩⟩
  · exact constant_of_fixedBy hρ ((isFixed_iff_fixedBy t).1 hfixed) hdenotes
  · exact limited_of_boundedBy hρ ((isBounded_iff_boundedBy t).1 hbounded) hdenotes hright
  · rw [isFixed_iff_fixedBy] at hu ⊢
    exact hu.mono hsub
  · rw [isBounded_iff_boundedBy] at hu ⊢
    exact hu.mono hsub

abbrev growing : Variable := ⟨"n", .posReal⟩

abbrev shrinking : Variable := ⟨"x", .real⟩

/-- The worlds in which one variable is `k + 1`, another one its reciprocal, and every other one is one. -/
noncomputable def reciprocals (k : ℕ) : World Unit :=
  (World.ones.update growing (k + 1) ⟨trivial, k.cast_add_one_pos⟩).update shrinking (k + 1)⁻¹
    ⟨trivial, trivial⟩

theorem reciprocals_growing (k : ℕ) : (reciprocals k).value growing = k + 1 := by
  simp [reciprocals, World.update, growing, shrinking]

theorem reciprocals_shrinking (k : ℕ) : (reciprocals k).value shrinking = (k + 1 : ℝ)⁻¹ := by
  simp [reciprocals, World.update]

/-- The product `n x` is marked as fixed and `x` as bounded.  Then `(n x) ^ -1 + 3` is recognised as fixed
and `x ^ (1 + y)`, for a nonnegative fixed `y`, as bounded. -/
theorem reciprocals_recognised :
    let product := app .mul [var growing, var shrinking]
    let y : Variable := ⟨"y", .nonnegReal⟩
    let marks := [app .fixed [product], app .bounded [var shrinking], app .fixed [var y]]
    let quotient := app .add [num 3, app .pow [product, num (-1)]]
    let power := app .pow [var shrinking, app .add [num 1, var y]]
    (isFixed marks quotient = true ∧
        ∀ i j, quotient.val (reciprocals i).value = quotient.val (reciprocals j).value) ∧
      isBounded marks power = true ∧ ∃ M, ∀ k, |power.val (reciprocals k).value| ≤ M := by
  intro product y marks quotient power
  have hproduct : ∀ k, product.val (reciprocals k).value = 1 := by
    intro k
    have hne : (k : ℝ) + 1 ≠ 0 := by positivity
    simp only [product, val_mul, List.map_cons, List.map_nil, val_var, reciprocals_growing,
      reciprocals_shrinking, List.prod_cons, List.prod_nil, mul_one]
    exact mul_inv_cancel₀ hne
  have hy : ∀ k, (reciprocals k).value y = 1 := by
    intro k
    simp [reciprocals, World.update, World.ones, y]
  have hpositive : ∀ k : ℕ, 0 < ((k : ℝ) + 1)⁻¹ := fun k => by positivity
  have hmarks : RespectsMarks (fun k => (reciprocals k).value) marks := by
    refine ⟨fun k => (reciprocals k).fits, fun e he _ i j => ?_, fun e he _ => ⟨1, fun k => ?_⟩⟩
    · simp only [marks, List.mem_cons, app.injEq, List.cons.injEq, and_true, true_and, reduceCtorEq,
        false_and, List.not_mem_nil, or_false, false_or] at he
      rcases he with rfl | rfl
      · rw [hproduct, hproduct]
      · rw [val_var, val_var, hy, hy]
    · simp only [marks, List.mem_cons, app.injEq, List.cons.injEq, and_true, true_and, reduceCtorEq,
        false_and, List.not_mem_nil, or_false, false_or] at he
      show |e.val (reciprocals k).value| ≤ 1
      rw [he, val_var, reciprocals_shrinking, abs_of_pos (hpositive k)]
      exact inv_le_one_of_one_le₀ (by simp)
  have hquotient : ∀ k, quotient.Denotes (reciprocals k).value := by
    intro k
    have hpower : PowerDefined (product.val (reciprocals k).value) (-1) :=
      .inl (by rw [hproduct]; exact one_pos)
    have hdenotes : product.Denotes (reciprocals k).value := by simp [product, Kind.isNumeric]
    simpa [quotient] using ⟨hdenotes, hpower⟩
  have hpower : ∀ k, power.Denotes (reciprocals k).value := by
    intro k
    simp [power, PowerDefined, reciprocals_shrinking, hpositive, Kind.isNumeric, y]
  refine ⟨⟨by decide +kernel, ?_⟩, by decide +kernel, ?_⟩
  · refine (recognition_sound hmarks hquotient ?_).1 (by decide +kernel)
    refine exponentsRight_app (by decide) (List.forall_mem_cons.2 ⟨exponentsRight_num 3, ?_⟩)
    refine List.forall_mem_singleton.2 (exponentsRight_pow ?_ ?_ (exponentsRight_num (-1)))
    · exact fun hnonneg => absurd hnonneg (by decide +kernel)
    refine exponentsRight_app (by decide) (List.forall_mem_cons.2 ⟨exponentsRight_var _, ?_⟩)
    exact List.forall_mem_singleton.2 (exponentsRight_var _)
  · refine (recognition_sound hmarks hpower ?_).2.1 (by decide +kernel)
    refine exponentsRight_pow (.linear rfl) (exponentsRight_var _) ?_
    refine exponentsRight_app (by decide) (List.forall_mem_cons.2 ⟨exponentsRight_num 1, ?_⟩)
    exact List.forall_mem_singleton.2 (exponentsRight_var _)

end Term
end Majorant
