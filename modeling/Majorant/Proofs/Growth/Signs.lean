import Majorant.Proofs.Growth.Regime

/-!
# Signs of quantities

Only quantities that are said to be positive have an order of magnitude.
-/

namespace Majorant

namespace Term

theorem nonneg_of_num {q : ℚ} (h : (num q).is .nonnegative = true) : 0 ≤ q := by
  rw [num_is_iff] at h
  by_contra hneg
  have hnum : ¬ 0 < q.num := by
    rw [Rat.num_pos]
    exact fun hpos => hneg hpos.le
  have hzero : q ≠ 0 := fun hzero => hneg hzero.ge
  -- a number that is negative falls into one of the negative classes
  revert h
  unfold ValueClass.ofRat
  simp only [hzero, gt_iff_lt, hnum, if_false]
  split_ifs <;> decide

end Term

namespace Regime
open Growth Term Magnitude

variable {K : Type} [Field K] [LinearOrder K] {ρ : Regime K} {t : Term} {as : List Term} {h : Head}

/-- A term occurs in another one. -/
inductive Occurs (u : Term) : Term → Prop
  | refl : Occurs u u
  | arg {h : Head} {as : List Term} {a : Term} (ha : a ∈ as) (hu : Occurs u a) : Occurs u (app h as)

theorem forall_not_occurs_app_iff {ι : Type} {u : ι → Term} (hu : ∀ i h as, u i ≠ app h as) :
    (∀ i, ¬ Occurs (u i) (app h as)) ↔ ∀ a ∈ as, ∀ i, ¬ Occurs (u i) a := by
  refine ⟨fun hnone a ha i hoccurs => hnone i (.arg ha hoccurs), fun hnone i hoccurs => ?_⟩
  generalize heq : app h as = t at hoccurs
  cases hoccurs with
  | refl => exact hu i h as heq.symm
  | arg ha hoccurs =>
    cases heq
    exact hnone _ ha i hoccurs

/-- **The answers about signs are right**: what is said to be positive in a term, is so. -/
def SignsRight (ρ : Regime K) (t : Term) : Prop :=
  ∀ u, Occurs u t → ρ.Valued u → u.is .positive = true → 0 < ρ.val u

theorem SignsRight.of_mem (hs : ρ.SignsRight (app h as)) {a : Term} (ha : a ∈ as) : ρ.SignsRight a :=
  fun u hu => hs u (.arg ha hu)

theorem SignsRight.pos (hs : ρ.SignsRight t) (ht : ρ.Valued t) (hpos : t.is .positive = true) :
    0 < ρ.val t := hs t .refl ht hpos

theorem signsRight_app (hself : ρ.Valued (app h as) → 0 < ρ.val (app h as))
    (has : ∀ a ∈ as, ρ.SignsRight a) : ρ.SignsRight (app h as) := by
  rintro u (_ | ⟨ha, hu⟩) hvalued
  · exact fun _ => hself hvalued
  · exact has _ ha u hu hvalued

variable [IsStrictOrderedRing K]

theorem signsRight_num (q : ℚ) : ρ.SignsRight (num q) := by
  rintro u (_ | _) - hpositive
  rw [val_num]
  exact_mod_cast num_is_positive.1 hpositive

theorem signsRight_var (v : Variable) : ρ.SignsRight (var v) := by
  rintro u (_ | _) - hpositive
  have hfits := ρ.fits v
  rw [Term.is, facts_var] at hpositive
  rw [val_var]
  cases hkind : v.kind <;> rw [hkind] at hfits hpositive <;> first
    | exact hfits
    | exact one_pos.trans_le hfits
    | exact absurd hpositive (by decide)

/-- **Quantities composed of positive numbers and variables** by sums, products, rational powers and
extrema. -/
inductive Posynomial : Term → Prop
  | num {q : ℚ} (hq : 0 < q) : Posynomial (num q)
  | var {v : Variable} (hv : (var v).is .positive = true) : Posynomial (var v)
  | add {as : List Term} (hne : as ≠ []) (has : ∀ a ∈ as, Posynomial a) : Posynomial (app .add as)
  | mul {as : List Term} (has : ∀ a ∈ as, Posynomial a) : Posynomial (app .mul as)
  | pow {b : Term} (hb : Posynomial b) (q : ℚ) : Posynomial (app .pow [b, num q])
  | max {as : List Term} (hne : as ≠ []) (has : ∀ a ∈ as, Posynomial a) : Posynomial (app .max as)
  | min {as : List Term} (hne : as ≠ []) (has : ∀ a ∈ as, Posynomial a) : Posynomial (app .min as)

namespace Posynomial

theorem pos (hroots : HasRoots K) (ht : Posynomial t) : 0 < ρ.val t := by
  have hmap : ∀ {as : List Term}, (∀ a ∈ as, 0 < ρ.val a) → ∀ x ∈ as.map ρ.val, 0 < x :=
    fun has => List.forall_mem_map.2 has
  induction ht with
  | num hq =>
    rw [val_num]
    exact_mod_cast hq
  | @var v hv =>
    have hreal : v.kind.isReal = true := by
      rw [Term.is, facts_var] at hv
      revert hv
      cases v.kind <;> decide
    exact (signsRight_var v).pos (.var hreal) hv
  | add hne _ ih =>
    rw [val_add]
    exact List.sum_pos _ (hmap ih) (by simpa using hne)
  | mul _ ih =>
    rw [val_mul]
    exact List.prod_pos (hmap ih)
  | pow _ q ih =>
    rw [val_pow]
    exact (ratPower_spec hroots ih q).1
  | max hne _ ih => exact hmap ih _ (isExtremal_max hne).2
  | min hne _ ih => exact hmap ih _ (isExtremal_min hne).2

/-- **The answers about the signs of such quantities are right** in every regime. -/
theorem signsRight (hroots : HasRoots K) (ht : Posynomial t) : ρ.SignsRight t := by
  have hpos := ht.pos (ρ := ρ) hroots
  induction ht with
  | num => exact signsRight_num _
  | var => exact signsRight_var _
  | add _ has ih => exact signsRight_app (fun _ => hpos) fun a ha => ih a ha ((has a ha).pos hroots)
  | mul has ih => exact signsRight_app (fun _ => hpos) fun a ha => ih a ha ((has a ha).pos hroots)
  | pow hb q ih =>
    refine signsRight_app (fun _ => hpos) (List.forall_mem_cons.2 ⟨ih (hb.pos hroots), ?_⟩)
    exact List.forall_mem_singleton.2 (signsRight_num q)
  | max _ has ih => exact signsRight_app (fun _ => hpos) fun a ha => ih a ha ((has a ha).pos hroots)
  | min _ has ih => exact signsRight_app (fun _ => hpos) fun a ha => ih a ha ((has a ha).pos hroots)

end Posynomial

end Regime
end Majorant
