import Majorant.Proofs.Magnitude.Interaction
import Majorant.Proofs.Magnitude.Quotient

/-!
# Linear forms of orders of magnitude

The linear form of an order, however it is nested, has the exponent of the order as its total.
-/

namespace Majorant
namespace Magnitude
open Term

/-- **Orders nested in any way**: order variables and magnitudes, with products, rational powers and
extrema of at least one order. -/
inductive Nested : Term → Prop
  | order {v : Variable} (hv : v.kind = .order) : Nested (var v)
  | theta {t : Term} (ht : t.evades = false) : Nested (app .theta [t])
  | product {as : List Term} (has : ∀ a ∈ as, Nested a) : Nested (app .orderMul as)
  | power {b : Term} (hb : Nested b) (q : ℚ) : Nested (app .orderPow [b, num q])
  | extremum {h : Head} {as : List Term} (hh : h = .orderMax ∨ h = .orderMin) (hne : as ≠ [])
      (has : ∀ a ∈ as, Nested a) : Nested (app h as)

namespace Nested

variable {h : Head} {t a b : Term} {as : List Term} {r : Rel}

theorem isOrder (ht : Nested t) : t.isOrder = true := by
  cases ht with
  | order hv => simp [Term.isOrder, hv]
  | extremum hh => rcases hh with rfl | rfl <;> rfl
  | _ => rfl

theorem evades (ht : Nested t) : t.evades = false := by
  induction ht with
  | order => rfl
  | theta ht => simp [Term.evades, evadesList, ht]
  | product _ ih => exact Composed.evadesList_eq_false ih
  | power _ q ih => simp [Term.evades, evadesList, ih]
  | extremum hh _ _ ih => rcases hh with rfl | rfl <;> exact Composed.evadesList_eq_false ih

theorem args (hh : h = .orderMax ∨ h = .orderMin) (ht : Nested (app h as)) :
    as ≠ [] ∧ ∀ a ∈ as, Nested a := by
  cases ht with
  | extremum _ hne has => exact ⟨hne, has⟩
  | _ => rcases hh with hh | hh <;> cases hh

/-- **Evaluating an extremum** keeps its exponent. -/
theorem extremum_spread (hh : h = .orderMax ∨ h = .orderMin) (ht : Nested (app h as)) (x : Term → ℚ) :
    Nested (Magnitude.extremum h (spread h as)) ∧
      exponent x (Magnitude.extremum h (spread h as)) = exponent x (app h as) := by
  obtain ⟨hne, has⟩ := ht.args hh
  have hinner : ∀ a ∈ as, ∀ bs, a = app h bs → bs ≠ [] ∧ ∀ b ∈ bs, Nested b :=
    fun a ha bs heq => (heq ▸ has a ha).args hh
  have hnonempty : ∀ a ∈ as, ∀ bs, a = app h bs → bs ≠ [] := fun a ha bs heq =>
    (hinner a ha bs heq).1
  have hspread : ∀ u ∈ (spread h as).eraseDups, Nested u := by
    intro u hu
    obtain ⟨a, ha, hu⟩ := mem_spread.1 (List.mem_eraseDups.1 hu)
    by_cases hsame : ∃ bs, a = app h bs
    · obtain ⟨bs, rfl⟩ := hsame
      rw [spread_same] at hu
      exact (hinner _ ha bs rfl).2 u hu
    · rw [spread_of_plain fun c hc bs heq =>
        hsame ⟨bs, (List.mem_singleton.1 hc).symm.trans heq⟩] at hu
      exact List.mem_singleton.1 hu ▸ has a ha
  have hextremes : Extremes h (exponent x) := fun bs hbs => isExtremal_exponent hh hbs x
  refine ⟨?_, (hextremes.extremum_spread hne hnonempty).unique (hextremes as hne)⟩
  obtain ⟨u, hu⟩ := List.exists_mem_of_ne_nil _ (spread_ne_nil hne hnonempty)
  unfold Magnitude.extremum
  split
  · next heq => exact hspread _ (heq ▸ List.mem_singleton_self _)
  · exact .extremum hh (List.ne_nil_of_mem (List.mem_eraseDups.2 hu)) hspread

theorem sizing (x : Term → ℚ) : Sizing Nested (exponent x) where
  isOrder := isOrder
  evades := evades
  ofLiteral ht := by cases ht <;> rfl
  unit := .theta rfl
  size_unit := by rw [Magnitude.unit, one, exponent]
  product := .product
  of_product ht := by
    cases ht with
    | product has => exact has
    | extremum hh => simp at hh
  size_product _ := by rw [exponent, exponents_eq_map]
  power q hb := .power hb q
  of_power ht := by
    cases ht with
    | power hb q => exact ⟨_, q, rfl, hb⟩
    | extremum hh => simp at hh
  size_power q _ := by rw [exponent, smul_eq_mul]
  join ht := ht.extremum_spread (.inl rfl) x
  meet ht := ht.extremum_spread (.inr rfl) x

theorem toInequality_eq (ha : Nested a) (hb : Nested b) (hr : r ≠ .ne) :
    toInequality (app (.rel r) [a, b]) = pure (some (comparison r a b)) := by
  simp only [toInequality, asRel?]
  rw [(sizing 0).div_eq ha hb, pure_bind]
  cases r <;> first | rfl | exact absurd rfl hr

theorem holdsAt_comparison_iff (ha : Nested a) (hb : Nested b) (hr : r ≠ .ne) (x : Term → ℚ) :
    (comparison r a b).holdsAt (exponent x) = true ↔ r.Compares (exponent x a) (exponent x b) := by
  obtain ⟨s, hs⟩ : ∃ s, senseOf? r = some s := by
    cases r <;> first | exact ⟨_, rfl⟩ | exact absurd rfl hr
  obtain ⟨hquotient, hdifference⟩ := (sizing x).quotient ha hb
  have hvalue : (comparison r a b).valueIn (exponent x) = exponent x (quotient a b) := by
    rw [← ((sizing x).eq_weigh hquotient).2]
    simp [Linear.Inequality.valueIn, comparison, weigh]
  rw [Linear.Inequality.holdsAt_iff, Linear.Inequality.HoldsIn, hvalue, hdifference,
    ← Rel.compares_sub, ← Rel.compares_of_senseOf hs]
  simp [comparison, hs]

end Nested

/-- A base of a linear form: neither the unit, nor a product, nor a rational power. -/
def IsAtomic (k : Term) : Prop :=
  k ≠ unit ∧ (∀ as, k ≠ app .orderMul as) ∧ ∀ b q, k ≠ app .orderPow [b, num q]

mutual

theorem isAtomic_of_mem (t : Term) : ∀ k ∈ keys (monomials t), IsAtomic k := by
  intro k hk
  unfold monomials at hk
  by_cases hunit : t = unit
  · rw [if_pos hunit] at hk
    cases hk
  rw [if_neg hunit] at hk
  split at hk
  · exact isAtomic_of_mem_list _ k hk
  · rw [keys_map_mul] at hk
    exact isAtomic_of_mem _ k hk
  · next hmul hpow =>
    rw [List.mem_singleton.1 hk]
    exact ⟨hunit, hmul, hpow⟩

theorem isAtomic_of_mem_list (ts : List Term) : ∀ k ∈ keys (monomialsList ts), IsAtomic k := by
  cases ts with
  | nil => exact List.forall_mem_nil _
  | cons t ts =>
    intro k hk
    exact (mem_keys_foldl_addExponent hk).elim (isAtomic_of_mem t k) (isAtomic_of_mem_list ts k)

end

/-- **Linear forms keep the meaning**: the form of an order has atomic bases and its total is the
exponent, and that of a comparison has no constant and holds exactly when the exponents compare. -/
theorem linearForm_faithful :
    (∀ t, Nested t → (∀ m ∈ monomials t, IsAtomic m.1) ∧
      ∀ x, exponent x t = ((monomials t).map fun m => m.2 * exponent x m.1).sum) ∧
    ∀ (r : Rel) (a b : Term), r ≠ .ne → Nested a → Nested b →
      ∃ i, toInequality (app (.rel r) [a, b]) = pure (some i) ∧ i.rhs = 0 ∧
        ∀ x, i.holdsAt (exponent x) = true ↔ r.Compares (exponent x a) (exponent x b) := by
  refine ⟨fun t ht => ⟨fun m hm => ?_, fun x => ((Nested.sizing x).eq_weigh ht).2.symm⟩, ?_⟩
  · exact isAtomic_of_mem t m.1 (List.mem_map_of_mem hm)
  · intro r a b hr ha hb
    exact ⟨comparison r a b, ha.toInequality_eq hb hr, rfl, ha.holdsAt_comparison_iff hb hr⟩

/-- A maximum within a maximum, and factors that cancel only once the powers are multiplied out. -/
theorem linearForm_faithful_cancelling :
    let a := var ⟨"A", .order⟩
    let m := app .orderMax [a, app .orderMax [a, var ⟨"B", .order⟩]]
    let n := app .theta [var ⟨"n", .posInt⟩]
    let s := app .orderPow [app .orderMul [app .orderPow [a, num 4], n], num (1 / 2)]
    let t := app .orderMul [app .orderMul [a, m], app .orderPow [m, num (-1)], a]
    (Nested s ∧ Nested t) ∧
      (∀ x, exponent x t = ((monomials t).map fun m => m.2 * exponent x m.1).sum) ∧
      ∃ i, toInequality (app (.rel .lt) [s, t]) = pure (some i) ∧ i.rhs = 0 ∧
        ∀ x, i.holdsAt (exponent x) = true ↔ exponent x s < exponent x t := by
  intro a m n s t
  have ha : Nested a := .order rfl
  have hm : Nested m := by
    refine .extremum (.inl rfl) (List.cons_ne_nil _ _) (List.forall_mem_cons.2 ⟨ha, ?_⟩)
    refine List.forall_mem_singleton.2 (.extremum (.inl rfl) (List.cons_ne_nil _ _) ?_)
    exact List.forall_mem_cons.2 ⟨ha, List.forall_mem_singleton.2 (.order rfl)⟩
  have hs : Nested s := by
    refine .power (.product (List.forall_mem_cons.2 ⟨ha.power 4, ?_⟩)) _
    exact List.forall_mem_singleton.2 (.theta rfl)
  have ht : Nested t := by
    refine .product (List.forall_mem_cons.2 ⟨.product ?_, ?_⟩)
    · exact List.forall_mem_cons.2 ⟨ha, List.forall_mem_singleton.2 hm⟩
    · exact List.forall_mem_cons.2 ⟨hm.power (-1), List.forall_mem_singleton.2 ha⟩
  exact ⟨⟨hs, ht⟩, (linearForm_faithful.1 t ht).2,
    linearForm_faithful.2 .lt s t (by decide) hs ht⟩

end Magnitude
end Majorant
