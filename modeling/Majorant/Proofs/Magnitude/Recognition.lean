import Majorant.Proofs.Growth.Signs
import Majorant.Proofs.Magnitude.Bounded

/-!
# How fixed and bounded terms are recognised

A term is recognised as fixed, or as bounded, for a reason, and more hypotheses give more reasons.  What is
recognised as fixed is recognised as bounded, unless a power is *exposed* whose exponent is not known to be
nonnegative.
-/

namespace Majorant
namespace Magnitude
open Term Regime

variable {hyps hyps' as ts : List Term} {t : Term} {h : Head}

/-- **The reasons to be fixed.** -/
inductive FixedBy (hyps : List Term) : Term → Prop
  | number {t : Term} (hnumber : t.isNumber = true) : FixedBy hyps t
  | marked {t : Term} (hmarked : app .fixed [t] ∈ hyps) : FixedBy hyps t
  | truth (b : Bool) : FixedBy hyps (truth b)
  | parts {h : Head} {as : List Term} (hkeeps : keepsFixed h = true)
      (has : ∀ a ∈ as, FixedBy hyps a) : FixedBy hyps (app h as)

/-- **The reasons to be bounded.** -/
inductive BoundedBy (hyps : List Term) : Term → Prop
  | number {t : Term} (hnumber : t.isNumber = true) : BoundedBy hyps t
  | marked {t : Term} (hmarked : app .fixed [t] ∈ hyps ∨ app .bounded [t] ∈ hyps) : BoundedBy hyps t
  | twoValued {t : Term} (htwo : isTwoValued t = true) : BoundedBy hyps t
  | parts {h : Head} {as : List Term} (hkeeps : keepsBounded h = true)
      (has : ∀ a ∈ as, BoundedBy hyps a) : BoundedBy hyps (app h as)
  | power {h : Head} {b e : Term} (hpower : h = .pow ∨ h = .orderPow) (hb : BoundedBy hyps b)
      (he : BoundedBy hyps e) (hnonneg : e.is .nonnegative = true) : BoundedBy hyps (app h [b, e])

theorem markedFixed_iff : markedFixed hyps t = true ↔ app .fixed [t] ∈ hyps := List.contains_iff_mem

theorem markedBounded_iff :
    markedBounded hyps t = true ↔ app .fixed [t] ∈ hyps ∨ app .bounded [t] ∈ hyps := by
  rw [markedBounded, Bool.or_eq_true, List.contains_iff_mem, List.contains_iff_mem]

theorem isFixed_app_iff : isFixed hyps (app h as) = true ↔
    ((app h as).isNumber = true ∨ app .fixed [app h as] ∈ hyps) ∨
      keepsFixed h = true ∧ ∀ a ∈ as, isFixed hyps a = true := by
  rw [isFixed, Bool.or_eq_true, Bool.or_eq_true, Bool.and_eq_true, markedFixed_iff, areFixed_iff]

theorem isBounded_app_iff : isBounded hyps (app h as) = true ↔
    (((app h as).isNumber = true ∨ (app .fixed [app h as] ∈ hyps ∨ app .bounded [app h as] ∈ hyps)) ∨
      isTwoValued (app h as) = true) ∨ (keepsBounded h = true ∧ ∀ a ∈ as, isBounded hyps a = true) ∨
      ((h = .pow ∨ h = .orderPow) ∧ ∀ a ∈ as, isBounded hyps a = true) ∧
        ∃ b e, as = [b, e] ∧ e.is .nonnegative = true := by
  simp only [← areBounded_iff, ← markedBounded_iff]
  unfold isBounded
  simp only [Bool.or_eq_true, Bool.and_eq_true, beq_iff_eq, or_assoc]
  split
  · simp
  · next hne =>
    have hnone : ¬ ∃ b e, as = [b, e] ∧ e.is .nonnegative = true :=
      fun ⟨b, e, heq, _⟩ => hne b e heq
    simp only [hnone, Bool.false_eq_true]

/-- **The test for fixed terms finds those for which there is a reason.** -/
theorem isFixed_iff_fixedBy (t : Term) : isFixed hyps t = true ↔ FixedBy hyps t := by
  constructor
  · induction t using args_induction with
    | step t ih =>
      intro hfixed
      cases t with
      | truth b => exact .truth b
      | app h as =>
        rcases isFixed_app_iff.1 hfixed with (hnumber | hmarked) | ⟨hkeeps, has⟩
        · exact .number hnumber
        · exact .marked hmarked
        · exact .parts hkeeps fun a ha => ih a ha (has a ha)
      | _ =>
        simp only [isFixed, Bool.or_eq_true, markedFixed_iff] at hfixed
        exact hfixed.elim .number .marked
  · intro hfixed
    induction hfixed with
    | number hnumber =>
      unfold isFixed
      split <;> simp [hnumber]
    | marked hmarked =>
      unfold isFixed
      split <;> simp [markedFixed_iff.2 hmarked]
    | truth b => simp [isFixed]
    | parts hkeeps _ ih => exact isFixed_app_iff.2 (.inr ⟨hkeeps, ih⟩)

/-- **The test for bounded terms finds those for which there is a reason.** -/
theorem isBounded_iff_boundedBy (t : Term) : isBounded hyps t = true ↔ BoundedBy hyps t := by
  constructor
  · induction t using args_induction with
    | step t ih =>
      intro hbounded
      cases t with
      | app h as =>
        rcases isBounded_app_iff.1 hbounded with
          ((hnumber | hmarked) | htwo) | ⟨hkeeps, has⟩ | ⟨⟨hpower, has⟩, b, e, rfl, hnonneg⟩
        · exact .number hnumber
        · exact .marked hmarked
        · exact .twoValued htwo
        · exact .parts hkeeps fun a ha => ih a ha (has a ha)
        · have hparts : ∀ a ∈ [b, e], BoundedBy hyps a := fun a ha => ih a ha (has a ha)
          exact .power hpower (hparts b (by simp)) (hparts e (by simp)) hnonneg
      | _ =>
        simp only [isBounded, Bool.or_eq_true, markedBounded_iff] at hbounded
        rcases hbounded with (hnumber | hmarked) | htwo
        · exact .number hnumber
        · exact .marked hmarked
        · exact .twoValued htwo
  · intro hbounded
    induction hbounded with
    | number hnumber =>
      unfold isBounded
      split <;> simp [hnumber]
    | marked hmarked =>
      unfold isBounded
      split <;> simp [markedBounded_iff.2 hmarked]
    | twoValued htwo =>
      unfold isBounded
      split <;> simp [htwo]
    | parts hkeeps _ ih => exact isBounded_app_iff.2 (.inr (.inl ⟨hkeeps, ih⟩))
    | power hpower _ _ hnonneg hb he =>
      refine isBounded_app_iff.2 (.inr (.inr ⟨⟨hpower, ?_⟩, _, _, rfl, hnonneg⟩))
      exact List.forall_mem_cons.2 ⟨hb, List.forall_mem_singleton.2 he⟩

theorem FixedBy.mono (hsub : hyps ⊆ hyps') (ht : FixedBy hyps t) : FixedBy hyps' t := by
  induction ht with
  | number hnumber => exact .number hnumber
  | marked hmarked => exact .marked (hsub hmarked)
  | truth b => exact .truth b
  | parts hkeeps _ ih => exact .parts hkeeps ih

theorem BoundedBy.mono (hsub : hyps ⊆ hyps') (ht : BoundedBy hyps t) : BoundedBy hyps' t := by
  induction ht with
  | number hnumber => exact .number hnumber
  | marked hmarked => exact .marked (hmarked.imp (@hsub _) (@hsub _))
  | twoValued htwo => exact .twoValued htwo
  | parts hkeeps _ ih => exact .parts hkeeps ih
  | power hpower _ _ hnonneg hb he => exact .power hpower hb he hnonneg

/-- The term is settled as it stands: it is a number, or it is marked. -/
def Settled (hyps : List Term) (t : Term) : Prop :=
  t.isNumber = true ∨ app .fixed [t] ∈ hyps ∨ app .bounded [t] ∈ hyps

instance (hyps : List Term) (t : Term) : Decidable (Settled hyps t) :=
  inferInstanceAs (Decidable (_ ∨ _ ∨ _))

/-- **A part with some property is exposed** in a term if nothing on the way to it, itself included, is
settled. -/
inductive Exposes (hyps : List Term) (P : Term → Prop) : Term → Prop
  | here {t : Term} (hopen : ¬ Settled hyps t) (ht : P t) : Exposes hyps P t
  | part {h : Head} {as : List Term} {a : Term} (hopen : ¬ Settled hyps (app h as)) (ha : a ∈ as)
      (hpart : Exposes hyps P a) : Exposes hyps P (app h as)

/-- Comparisons. -/
inductive IsComparison : Term → Prop
  | intro (r : Rel) (as : List Term) : IsComparison (app (.rel r) as)

/-- **Powers whose exponent is not known to be nonnegative.** -/
inductive VaguePower : Term → Prop
  | intro {h : Head} {as : List Term} (hpower : h = .pow ∨ h = .orderPow)
      (hexponent : ∀ b e, as = [b, e] → e.is .nonnegative = false) : VaguePower (app h as)

theorem BoundedBy.of_settled (ht : Settled hyps t) : BoundedBy hyps t := ht.elim .number .marked

theorem keepsBounded_of_keepsFixed (hkeeps : keepsFixed h = true) :
    keepsBounded h = true ∨ (h = .pow ∨ h = .orderPow) ∨ ∃ r, h = .rel r := by
  cases h <;> simp_all [keepsFixed, keepsBounded]

/-- **What is fixed is bounded** as long as neither a comparison nor a power with an exponent of unknown
sign is exposed. -/
theorem FixedBy.boundedBy (ht : FixedBy hyps t) (hcomparison : ¬ Exposes hyps IsComparison t)
    (hpower : ¬ Exposes hyps VaguePower t) : BoundedBy hyps t := by
  induction ht with
  | number hnumber => exact .number hnumber
  | marked hmarked => exact .marked (.inl hmarked)
  | truth b => exact .twoValued rfl
  | @parts h as hkeeps _ ih =>
    by_cases hsettled : Settled hyps (app h as)
    · exact .of_settled hsettled
    -- a part that is exposed in an argument is exposed in the whole
    have has : ∀ a ∈ as, BoundedBy hyps a := fun a ha =>
      ih a ha (mt (.part hsettled ha) hcomparison) (mt (.part hsettled ha) hpower)
    rcases keepsBounded_of_keepsFixed hkeeps with hbounded | hhead | ⟨r, rfl⟩
    · exact .parts hbounded has
    · have hexponent : ∃ b e, as = [b, e] ∧ e.is .nonnegative = true := by
        by_contra hnone
        refine hpower (.here hsettled (.intro hhead fun b e heq => ?_))
        exact Bool.eq_false_iff.2 fun hnonneg => hnone ⟨b, e, heq, hnonneg⟩
      obtain ⟨b, e, rfl, hnonneg⟩ := hexponent
      exact .power hhead (has b (by simp)) (has e (by simp)) hnonneg
    · exact absurd (.here hsettled (.intro r as)) hcomparison

theorem not_isTwoValued_of_keepsFixed (hkeeps : keepsFixed h = true) :
    ¬ isTwoValued (app h as) = true := by
  cases h <;> simp_all [keepsFixed, isTwoValued]

theorem FixedBy.of_not_settled (ht : FixedBy hyps (app h as)) (hopen : ¬ Settled hyps (app h as)) :
    keepsFixed h = true ∧ ∀ a ∈ as, FixedBy hyps a := by
  cases ht with
  | number hnumber => exact absurd (.inl hnumber) hopen
  | marked hmarked => exact absurd (.inr (.inl hmarked)) hopen
  | parts hkeeps has => exact ⟨hkeeps, has⟩

/-- The parts of a term that is bounded and fixed, but not settled, are bounded; an exponent is known to be
nonnegative. -/
theorem BoundedBy.of_not_settled (ht : BoundedBy hyps (app h as)) (hopen : ¬ Settled hyps (app h as))
    (hkeeps : keepsFixed h = true) : (∀ a ∈ as, BoundedBy hyps a) ∧
      (h = .pow ∨ h = .orderPow → ∃ b e, as = [b, e] ∧ e.is .nonnegative = true) := by
  cases ht with
  | number hnumber => exact absurd (.inl hnumber) hopen
  | marked hmarked => exact absurd (.inr hmarked) hopen
  | twoValued htwo => exact absurd htwo (not_isTwoValued_of_keepsFixed hkeeps)
  | parts hbounded has =>
    refine ⟨has, ?_⟩
    rintro (rfl | rfl) <;> cases hbounded
  | power _ hb he hnonneg =>
    exact ⟨List.forall_mem_cons.2 ⟨hb, List.forall_mem_singleton.2 he⟩, fun _ => ⟨_, _, rfl, hnonneg⟩⟩

/-- **No power with an exponent of unknown sign is exposed** in what is fixed and bounded. -/
theorem BoundedBy.not_exposes (hbounded : BoundedBy hyps t) (hfixed : FixedBy hyps t) :
    ¬ Exposes hyps VaguePower t := by
  intro hexposes
  induction hexposes with
  | here hopen ht =>
    obtain ⟨hpower, hexponent⟩ := ht
    obtain ⟨hkeeps, -⟩ := hfixed.of_not_settled hopen
    obtain ⟨b, e, heq, hnonneg⟩ := (hbounded.of_not_settled hopen hkeeps).2 hpower
    exact absurd hnonneg (Bool.eq_false_iff.1 (hexponent b e heq))
  | part hopen ha _ ih =>
    obtain ⟨hkeeps, has⟩ := hfixed.of_not_settled hopen
    exact ih ((hbounded.of_not_settled hopen hkeeps).1 _ ha) (has _ ha)

end Magnitude

namespace Term
open Magnitude Regime

variable {ρ : Valuation} {hyps : List Term} {t : Term}

theorem Denotes.not_exposes_comparison (ht : t.Denotes ρ) : ¬ Exposes hyps IsComparison t := by
  intro hexposes
  induction hexposes with
  | here _ hcomparison =>
    obtain ⟨r, as⟩ := hcomparison
    exact ((denotes_app _ _).1 ht).2
  | part _ ha _ ih => exact ih (((denotes_app _ _).1 ht).1 _ ha)

theorem Denotes.not_occurs_special (ht : t.Denotes ρ) (s : Special) : ¬ Occurs (special s) t := by
  intro hoccurs
  induction hoccurs with
  | refl => exact not_denotes_special s ht
  | arg ha _ ih => exact ih (((denotes_app _ _).1 ht).1 _ ha)

end Term

namespace Magnitude
open Term Regime

variable {hyps as : List Term} {t : Term} {h : Head}

/-- No hypothesis marks a sum or a product. -/
def MarksNoCombination (hyps : List Term) : Prop :=
  ∀ h as, h = .add ∨ h = .mul → ¬ (app .fixed [app h as] ∈ hyps ∨ app .bounded [app h as] ∈ hyps)

theorem boundedBy_combination_iff (hmarks : MarksNoCombination hyps) (hh : h = .add ∨ h = .mul) :
    BoundedBy hyps (app h as) ↔ ∀ a ∈ as, BoundedBy hyps a := by
  have hquantity : h.isQuantity = true := by rcases hh with rfl | rfl <;> rfl
  have hkeeps : keepsBounded h = true := by rcases hh with rfl | rfl <;> rfl
  refine ⟨fun ht => ?_, .parts hkeeps⟩
  cases ht with
  | number hnumber => exact fun a ha => .number ((isNumber_app hquantity).1 hnumber a ha)
  | marked hmarked => exact absurd hmarked (hmarks h as hh)
  | twoValued htwo => rcases hh with rfl | rfl <;> cases htwo
  | parts _ has => exact has
  | power hpower => rcases hh with rfl | rfl <;> simp at hpower

theorem inherited_boundedBy (hmarks : MarksNoCombination hyps) :
    Inherited fun t => BoundedBy hyps t ∧ ∀ s, ¬ Occurs (special s) t := by
  have hcombination : ∀ (h : Head) (as : List Term), h = .add ∨ h = .mul →
      ((BoundedBy hyps (app h as) ∧ ∀ s, ¬ Occurs (special s) (app h as)) ↔
        ∀ a ∈ as, BoundedBy hyps a ∧ ∀ s, ¬ Occurs (special s) a) := by
    intro h as hh
    rw [boundedBy_combination_iff hmarks hh, forall_not_occurs_app_iff (u := special) nofun,
      ← forall₂_and]
  exact {
    num := fun q => ⟨.number rfl, fun s hs => nomatch hs⟩
    add := fun as => hcombination .add as (.inl rfl)
    mul := fun as => hcombination .mul as (.inr rfl)
    finite := fun s hs => hs.2 s .refl }

/-- A term that is recognised as bounded, or as fixed with nothing exposed that could grow. -/
def Tamed (hyps : List Term) (t : Term) : Prop :=
  isBounded hyps t = true ∨
    isFixed hyps t = true ∧ ¬ Exposes hyps IsComparison t ∧ ¬ Exposes hyps VaguePower t

theorem Tamed.boundedBy (ht : Tamed hyps t) : BoundedBy hyps t := by
  rcases ht with hbounded | ⟨hfixed, hcomparison, hpower⟩
  · exact (isBounded_iff_boundedBy t).1 hbounded
  · exact ((isFixed_iff_fixedBy t).1 hfixed).boundedBy hcomparison hpower

/-- **What is recognised as fixed is recognised as bounded** exactly when no power with an exponent of
unknown sign is exposed in it, comparisons apart.  Sums and products of what is tamed are recognised as
bounded as they stand, and sums also when they are evaluated, if no sum or product is marked. -/
theorem isBounded_of_isFixed_iff (hyps : List Term) :
    (∀ e, isFixed hyps e = true → ¬ Exposes hyps IsComparison e →
      (isBounded hyps e = true ↔ ¬ Exposes hyps VaguePower e)) ∧
    (∀ h as, h = .add ∨ h = .mul → (∀ a ∈ as, Tamed hyps a) → isBounded hyps (app h as) = true) ∧
    (MarksNoCombination hyps → ∀ ts, (∀ t ∈ ts, Tamed hyps t ∧ ∀ s, ¬ Occurs (special s) t) →
      isBounded hyps (Term.sum ts) = true) := by
  refine ⟨fun e he hcomparison => ?_, fun h as hh has => ?_, fun hmarks ts hts => ?_⟩
  · rw [isFixed_iff_fixedBy] at he
    rw [isBounded_iff_boundedBy]
    exact ⟨fun hbounded => hbounded.not_exposes he, he.boundedBy hcomparison⟩
  · have hkeeps : keepsBounded h = true := by rcases hh with rfl | rfl <;> rfl
    rw [isBounded_iff_boundedBy]
    exact .parts hkeeps fun a ha => (has a ha).boundedBy
  · rw [isBounded_iff_boundedBy]
    exact ((inherited_boundedBy hmarks).sum fun t ht => ⟨(hts t ht).1.boundedBy, (hts t ht).2⟩).1

abbrev markedVar (name : String) : Term := var ⟨name, .real⟩

/-- The reciprocal of a fixed number is fixed and not recognised as bounded.  A bounded sum to which a fixed
number is added is spread out, so that the mark is lost. -/
theorem reciprocal_of_fixed :
    let x := markedVar "x"
    let y := markedVar "y"
    let z := markedVar "z"
    let reciprocal := app .pow [x, num (-1)]
    let marks := [app .bounded [app .add [x, y]], app .fixed [z]]
    (isFixed [app .fixed [x]] reciprocal = true ∧ isBounded [app .fixed [x]] reciprocal = false) ∧
      isBounded marks (app .add [x, y]) = true ∧ isFixed marks z = true ∧
        isBounded marks (Term.sum [app .add [x, y], z]) = false := by
  decide +kernel

/-- With `x` fixed and `y` bounded, `3 x ^ 2` is bounded, and so are its product and its sum with `y`; the
reciprocal of `x` is not recognised as bounded. -/
theorem square_of_fixed_bounded :
    let x := markedVar "x"
    let y := markedVar "y"
    let marks := [app .fixed [x], app .bounded [y]]
    let square := app .mul [num 3, app .pow [x, num 2]]
    (isFixed marks square = true ∧ ¬ Exposes marks VaguePower square) ∧
      ¬ isBounded marks (app .pow [x, num (-1)]) = true ∧ isBounded marks (app .mul [square, y]) = true ∧
        isBounded marks (Term.sum [y, square]) = true := by
  intro x y marks square
  have hfixed : isFixed marks square = true := by decide +kernel
  have hdenotes : square.Denotes fun _ => 1 := by simp [square, x, PowerDefined, Kind.isNumeric]
  have hy : y.Denotes fun _ => 1 := rfl
  have hreciprocal : (app .pow [x, num (-1)]).Denotes fun _ => 1 := by
    simp [x, PowerDefined, Kind.isNumeric]
  have hcovered : ¬ Exposes marks VaguePower square :=
    ((isBounded_of_isFixed_iff marks).1 square hfixed hdenotes.not_exposes_comparison).1
      (by decide +kernel)
  have htamed : Tamed marks square := .inr ⟨hfixed, hdenotes.not_exposes_comparison, hcovered⟩
  have hbounded : Tamed marks y := .inl (by decide +kernel)
  refine ⟨⟨hfixed, hcovered⟩, ?_, ?_, ?_⟩
  · rw [(isBounded_of_isFixed_iff marks).1 _ (by decide +kernel) hreciprocal.not_exposes_comparison,
      not_not]
    refine .here (by decide +kernel) (.intro (.inl rfl) fun b e heq => ?_)
    cases heq
    decide +kernel
  · refine (isBounded_of_isFixed_iff marks).2.1 .mul _ (.inr rfl) ?_
    exact List.forall_mem_cons.2 ⟨htamed, List.forall_mem_singleton.2 hbounded⟩
  · refine (isBounded_of_isFixed_iff marks).2.2 ?_ _ ?_
    · rintro h as (rfl | rfl) <;> simp [marks, x, y]
    · refine List.forall_mem_cons.2 ⟨⟨hbounded, hy.not_occurs_special⟩, ?_⟩
      exact List.forall_mem_singleton.2 ⟨htamed, hdenotes.not_occurs_special⟩

end Magnitude
end Majorant
