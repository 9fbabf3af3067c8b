import Majorant.Proofs.Term.Sum
import Mathlib.Analysis.SpecialFunctions.Pow.Real

/-!
# Real values of terms

A valuation gives every variable a real number.  A term *denotes* a number there if its variables are
numerical, nothing is divided by zero, no root is taken of a negative number, and only arithmetic on exact
numbers occurs.
-/

namespace Majorant

/-- A real number for each variable. -/
abbrev Valuation := Variable → ℝ

def Kind.isNumeric : Kind → Bool
  | prop | order => false
  | _ => true

noncomputable def greatestOf : List ℝ → ℝ
  | [] => 0
  | x :: xs => xs.foldl max x

noncomputable def leastOf : List ℝ → ℝ
  | [] => 0
  | x :: xs => xs.foldl min x

/-- A power that is a real number: of a positive number, of zero with an exponent that is not negative,
or with a whole exponent. -/
def PowerDefined (x y : ℝ) : Prop := 0 < x ∨ (x = 0 ∧ 0 ≤ y) ∨ (x ≠ 0 ∧ ∃ n : ℤ, y = n)

namespace Head

noncomputable def combine : Head → List ℝ → ℝ
  | add, xs => xs.sum
  | mul, xs => xs.prod
  | pow, [x, y] => x ^ y
  | abs, [x] => |x|
  | max, xs => greatestOf xs
  | min, xs => leastOf xs
  | _, _ => 0

def AppliesTo : Head → List ℝ → Prop
  | add, _ => True
  | mul, _ => True
  | pow, [x, y] => PowerDefined x y
  | abs, [_] => True
  | max, xs => xs ≠ []
  | min, xs => xs ≠ []
  | _, _ => False

end Head

namespace Term

variable (ρ : Valuation)

mutual

noncomputable def val : Term → ℝ
  | num q => q
  | lit (.int n) => n
  | lit (.ratio q) => q
  | var v => ρ v
  | app h as => h.combine (vals as)
  | _ => 0

noncomputable def vals : List Term → List ℝ
  | [] => []
  | a :: as => val a :: vals as

end

mutual

/-- **A term denotes a real number.** -/
def Denotes : Term → Prop
  | num _ => True
  | lit (.int _) => True
  | lit (.ratio _) => True
  | var v => v.kind.isNumeric = true
  | app h as => DenoteAll as ∧ h.AppliesTo (vals ρ as)
  | _ => False

def DenoteAll : List Term → Prop
  | [] => True
  | a :: as => Denotes a ∧ DenoteAll as

end

variable {ρ}

theorem vals_eq_map (ts : List Term) : vals ρ ts = ts.map (val ρ) := by
  induction ts with
  | nil => simp [vals]
  | cons t ts ih => simp [vals, ih]

theorem denoteAll_iff (ts : List Term) : DenoteAll ρ ts ↔ ∀ t ∈ ts, t.Denotes ρ := by
  induction ts with
  | nil => simp [DenoteAll]
  | cons t ts ih => simp [DenoteAll, ih]

theorem val_app (h : Head) (as : List Term) :
    (app h as).val ρ = h.combine (as.map (val ρ)) := by
  rw [val, vals_eq_map]

theorem denotes_app (h : Head) (as : List Term) :
    (app h as).Denotes ρ ↔ (∀ a ∈ as, a.Denotes ρ) ∧ h.AppliesTo (as.map (val ρ)) := by
  rw [Denotes, denoteAll_iff, vals_eq_map]

@[simp]
theorem val_num (q : Rat) : (num q).val ρ = q := rfl

@[simp]
theorem val_var (v : Variable) : (var v).val ρ = ρ v := rfl

@[simp]
theorem val_add (as : List Term) : (app .add as).val ρ = (as.map (val ρ)).sum := val_app .add as

@[simp]
theorem val_mul (as : List Term) : (app .mul as).val ρ = (as.map (val ρ)).prod := val_app .mul as

@[simp]
theorem val_pow (b e : Term) : (app .pow [b, e]).val ρ = b.val ρ ^ e.val ρ := val_app .pow [b, e]

@[simp]
theorem val_abs (a : Term) : (app .abs [a]).val ρ = |a.val ρ| := val_app .abs [a]

@[simp]
theorem val_max (as : List Term) : (app .max as).val ρ = greatestOf (as.map (val ρ)) :=
  val_app .max as

@[simp]
theorem val_min (as : List Term) : (app .min as).val ρ = leastOf (as.map (val ρ)) :=
  val_app .min as

@[simp]
theorem denotes_num (q : Rat) : (num q).Denotes ρ := trivial

@[simp]
theorem denotes_var (v : Variable) : (var v).Denotes ρ ↔ v.kind.isNumeric = true :=
  Iff.rfl

@[simp]
theorem denotes_add (as : List Term) : (app .add as).Denotes ρ ↔ ∀ a ∈ as, a.Denotes ρ :=
  (denotes_app .add as).trans (and_iff_left trivial)

@[simp]
theorem denotes_mul (as : List Term) : (app .mul as).Denotes ρ ↔ ∀ a ∈ as, a.Denotes ρ :=
  (denotes_app .mul as).trans (and_iff_left trivial)

@[simp]
theorem denotes_pow (b e : Term) :
    (app .pow [b, e]).Denotes ρ ↔
      (b.Denotes ρ ∧ e.Denotes ρ) ∧ PowerDefined (b.val ρ) (e.val ρ) := by
  rw [denotes_app]
  simp [Head.AppliesTo]

@[simp]
theorem denotes_abs (a : Term) : (app .abs [a]).Denotes ρ ↔ a.Denotes ρ := by
  rw [denotes_app]
  simp [Head.AppliesTo]

@[simp]
theorem denotes_max (as : List Term) :
    (app .max as).Denotes ρ ↔ (∀ a ∈ as, a.Denotes ρ) ∧ as ≠ [] := by
  rw [denotes_app]
  simp [Head.AppliesTo]

theorem not_denotes_special (s : Special) : ¬ (special s).Denotes ρ := by
  simp [Denotes]

@[simp]
theorem val_zero : zero.val ρ = 0 := by simp [zero]

@[simp]
theorem val_one : one.val ρ = 1 := by simp [one]

theorem inherited_denotes : Inherited (Denotes ρ) where
  num := denotes_num
  add := denotes_add
  mul := denotes_mul
  finite := not_denotes_special

theorem val_splitCoeff (t : Term) : t.val ρ = t.splitCoeff.1 * t.splitCoeff.2.val ρ := by
  unfold splitCoeff
  split
  · simp
  · split <;> simp
  · simp

theorem val_withCoeff (c : Rat) (ts : List Term) :
    (withCoeff c ts).val ρ = c * (ts.map (val ρ)).prod := by
  unfold withCoeff
  split
  · next hc =>
    subst hc
    split <;> simp
  · split <;> simp

theorem val_scaleSummand (c : Rat) (t : Term) : (scaleSummand c t).val ρ = c * t.val ρ := by
  unfold scaleSummand
  split
  · simp
  · rw [val_withCoeff]
    simp [mul_assoc]
  · rw [val_withCoeff, val_mul]
  · rw [val_withCoeff]
    simp

noncomputable def combination (ρ : Valuation) (cs : List (Term × Rat)) : ℝ :=
  (cs.map fun p => (p.2 : ℝ) * p.1.val ρ).sum

theorem sum_map_val_summands (t : Term) : (t.summands.map (val ρ)).sum = t.val ρ := by
  unfold summands
  split <;> simp

theorem val_ofSummands (ts : List Term) : (ofSummands ts).val ρ = (ts.map (val ρ)).sum := by
  unfold ofSummands
  split <;> simp

theorem combination_gatherSummand {cs : List (Term × Rat)} (h : (keys cs).Nodup) (t : Term) :
    combination ρ (gatherSummand cs t) = combination ρ cs + t.val ρ := by
  rw [val_splitCoeff t, gatherSummand_eq]
  refine sum_map_putEntry h rfl fun c _ => ?_
  push_cast
  exact add_mul _ _ _

theorem combination_foldl_gatherSummand {cs : List (Term × Rat)} (h : (keys cs).Nodup)
    (ts : List Term) :
    combination ρ (ts.foldl gatherSummand cs) = combination ρ cs + (ts.map (val ρ)).sum := by
  induction ts generalizing cs with
  | nil => simp
  | cons t ts ih =>
    rw [List.foldl_cons, ih (nodup_gatherSummand h t), combination_gatherSummand h]
    simp [add_assoc]

theorem combination_filter_ne_zero (cs : List (Term × Rat)) :
    combination ρ (cs.filter fun p => p.2 ≠ 0) = combination ρ cs := by
  refine sum_map_filter fun p _ hp => ?_
  have hzero : p.2 = 0 := by simpa using hp
  simp [hzero]

theorem constantOf_of_isSymbolic {t : Term} (h : t.isSymbolic = true) : t.constantOf = 0 := by
  cases t with
  | num q => simp [isSymbolic] at h
  | _ => rfl

theorem val_of_not_isSymbolic {t : Term} (h : ¬ t.isSymbolic = true) :
    t.val ρ = t.constantOf := by
  cases t with
  | num q => exact val_num q
  | _ => simp [isSymbolic] at h

theorem foldl_constantOf_add_sum (ts : List Term) (c : Rat) :
    ((ts.foldl (fun c t => c + t.constantOf) c : Rat) : ℝ) +
      ((ts.filter isSymbolic).map (val ρ)).sum = c + (ts.map (val ρ)).sum := by
  induction ts generalizing c with
  | nil => simp
  | cons t ts ih =>
    rw [List.foldl_cons, List.filter_cons, List.map_cons, List.sum_cons]
    by_cases h : t.isSymbolic = true
    · rw [if_pos h, constantOf_of_isSymbolic h, add_zero, List.map_cons, List.sum_cons,
        add_left_comm, ih]
      ring
    · rw [if_neg h, ih, val_of_not_isSymbolic h]
      push_cast
      ring

theorem combination_eq_sum_map_scaleSummand (cs : List (Term × Rat)) :
    ((cs.map fun p => scaleSummand p.2 p.1).map (val ρ)).sum = combination ρ cs := by
  unfold combination
  rw [List.map_map]
  congr 1
  apply List.map_congr_left
  intro p _
  exact val_scaleSummand p.2 p.1

theorem sum_map_val_sortArgs (ts : List Term) :
    ((sortArgs ts).map (val ρ)).sum = (ts.map (val ρ)).sum :=
  ((sortBy_perm _ ts).map (val ρ)).sum_eq

theorem constantTerm_add_combination (ts : List Term) :
    (constantTerm ts : ℝ) + combination ρ (gathered ts) = (ts.map (val ρ)).sum := by
  unfold constantTerm gathered
  rw [combination_filter_ne_zero,
    combination_foldl_gatherSummand (show (keys []).Nodup from List.nodup_nil)]
  simpa [combination] using foldl_constantOf_add_sum (ρ := ρ) ts 0

theorem val_sumFinite_gathered (ts : List Term) :
    (sumFinite ts).val ρ = constantTerm ts + combination ρ (gathered ts) := by
  have hconst : ∀ (c : Rat) (us : List Term),
      ((if c = 0 then us else num c :: us).map (val ρ)).sum = c + (us.map (val ρ)).sum := by
    intro c us
    by_cases hc : c = 0 <;> simp [hc]
  unfold sumFinite
  rw [val_ofSummands, hconst, sum_map_val_sortArgs, combination_eq_sum_map_scaleSummand]

theorem val_sumFinite (ts : List Term) : (sumFinite ts).val ρ = (ts.map (val ρ)).sum := by
  rw [val_sumFinite_gathered, constantTerm_add_combination]

theorem val_sum {ts : List Term} (h : ∀ t ∈ ts, t.Denotes ρ) :
    (sum ts).val ρ = (ts.map (val ρ)).sum := by
  rw [inherited_denotes.sum_eq_sumFinite h, val_sumFinite]
  clear h
  induction ts with
  | nil => rfl
  | cons t ts ih => simp [sum_map_val_summands, ih]

/-- **A number times a term has the value of the product.** -/
theorem val_scale (c : Rat) {t : Term} (h : t.Denotes ρ) : (scale c t).val ρ = c * t.val ρ := by
  unfold scale
  split
  · next hc =>
    subst hc
    simp
  · split
    · exact absurd h (not_denotes_special _)
    · exact absurd h (not_denotes_special _)
    · exact absurd h (not_denotes_special _)
    · exact absurd h (not_denotes_special _)
    · next as _ =>
      split
      · next hc => simp [hc]
      · split
        · rw [denotes_add] at h
          rw [val_sum, val_add, List.map_map, ← List.sum_map_mul_left]
          · congr 1
            apply List.map_congr_left
            intro a _
            exact val_scaleSummand c a
          · intro s hs
            obtain ⟨a, ha, rfl⟩ := List.mem_map.1 hs
            exact inherited_denotes.scaleSummand c (h a ha)
        · rw [val_withCoeff]
          simp
    · split
      · next hc => simp [hc]
      · exact val_scaleSummand c _

theorem val_neg {t : Term} (h : t.Denotes ρ) : t.neg.val ρ = -t.val ρ := by
  unfold neg
  rw [val_scale (-1) h]
  push_cast
  ring

/-- **A difference has the value of the difference.** -/
theorem val_sub {a b : Term} (ha : a.Denotes ρ) (hb : b.Denotes ρ) :
    (sub a b).val ρ = a.val ρ - b.val ρ := by
  unfold sub
  rw [val_sum (inherited_denotes.pair ha hb)]
  simp [val_neg hb, sub_eq_add_neg]

end Term
end Majorant
