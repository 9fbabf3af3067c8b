import Majorant.Proofs.Simplifier.Faithful
import Majorant.Tactic.Run
import Mathlib.Data.List.NodupEquivFin

/-!
# Interactions of magnitudes

Frequencies that add up to zero have magnitudes of which no single one is the largest: the largest
one is attained twice.
-/

namespace Majorant
open Term

namespace Magnitude

section Twice

variable {K : Type} [LinearOrder K] {xs ys : List K} {x : K}

/-- **The largest value is attained twice**, at different positions. -/
def AttainedTwice (xs : List K) : Prop :=
  ∃ (i j : Nat) (x : K), i ≠ j ∧ xs[i]? = some x ∧ xs[j]? = some x ∧ ∀ y ∈ xs, y ≤ x

/-- The largest value is attained twice exactly when **one value is the largest of the others**. -/
theorem attainedTwice_iff_eraseIdx :
    AttainedTwice xs ↔ ∃ (i : Nat) (x : K), xs[i]? = some x ∧ IsExtremal .le (xs.eraseIdx i) x := by
  constructor
  · rintro ⟨i, j, x, hij, hi, hj, hall⟩
    refine ⟨i, x, hi, fun y hy => hall y (List.mem_of_mem_eraseIdx hy), ?_⟩
    exact List.mem_eraseIdx_iff_getElem?.2 ⟨j, hij.symm, hj⟩
  · rintro ⟨i, x, hi, hall, hmem⟩
    obtain ⟨j, hji, hj⟩ := List.mem_eraseIdx_iff_getElem?.1 hmem
    refine ⟨i, j, x, hji.symm, hi, hj, fun y hy => ?_⟩
    obtain ⟨k, hk⟩ := List.mem_iff_getElem?.1 hy
    by_cases hki : k = i
    · subst hki
      cases hi.symm.trans hk
      exact le_refl x
    · exact hall y (List.mem_eraseIdx_iff_getElem?.2 ⟨k, hki, hk⟩)

theorem two_le_count_iff :
    2 ≤ xs.count x ↔ ∃ i j : Nat, i ≠ j ∧ xs[i]? = some x ∧ xs[j]? = some x := by
  rw [← List.duplicate_iff_two_le_count, List.duplicate_iff_exists_distinct_get]
  constructor
  · rintro ⟨n, m, hlt, hn, hm⟩
    refine ⟨n, m, by omega, ?_, ?_⟩
    · rw [hn]
      exact List.getElem?_eq_getElem n.isLt
    · rw [hm]
      exact List.getElem?_eq_getElem m.isLt
  · rintro ⟨i, j, hij, hi, hj⟩
    obtain ⟨hilt, hi⟩ := List.getElem?_eq_some_iff.1 hi
    obtain ⟨hjlt, hj⟩ := List.getElem?_eq_some_iff.1 hj
    rcases Nat.lt_or_gt_of_ne hij with hlt | hlt
    · exact ⟨⟨i, hilt⟩, ⟨j, hjlt⟩, hlt, hi.symm, hj.symm⟩
    · exact ⟨⟨j, hjlt⟩, ⟨i, hilt⟩, hlt, hj.symm, hi.symm⟩

theorem attainedTwice_iff_count :
    AttainedTwice xs ↔ ∃ x ∈ xs, 2 ≤ xs.count x ∧ ∀ y ∈ xs, y ≤ x := by
  simp only [two_le_count_iff]
  constructor
  · rintro ⟨i, j, x, hij, hi, hj, hall⟩
    exact ⟨x, List.mem_of_getElem? hi, ⟨i, j, hij, hi, hj⟩, hall⟩
  · rintro ⟨x, -, ⟨i, j, hij, hi, hj⟩, hall⟩
    exact ⟨i, j, x, hij, hi, hj, hall⟩

instance (xs : List K) : Decidable (AttainedTwice xs) :=
  decidable_of_iff _ attainedTwice_iff_count.symm

/-- **The order of the values does not matter.** -/
theorem attainedTwice_perm (h : xs.Perm ys) : AttainedTwice xs ↔ AttainedTwice ys := by
  rw [attainedTwice_iff_count, attainedTwice_iff_count]
  simp only [h.count_eq, h.mem_iff]

theorem attainedTwice_pair {x y : K} : AttainedTwice [x, y] ↔ x = y := by
  rw [attainedTwice_iff_eraseIdx]
  constructor
  · rintro ⟨_ | _ | i, z, hz, -, hmem⟩
    · cases hz
      exact List.mem_singleton.1 hmem
    · cases hz
      exact (List.mem_singleton.1 hmem).symm
    · cases hz
  · rintro rfl
    exact ⟨0, x, rfl, isExtremal_singleton .orderMax x⟩

end Twice

mutual

/-- **The exponent of an order** composed of atoms, for given exponents of these.  Every order that is no
product, power or extremum is an atom, except that of a number. -/
def exponent (e : Term → ℚ) : Term → ℚ
  | app .theta [num _] => 0
  | app .orderMul as => (exponents e as).sum
  | app .orderPow [b, num q] => q * exponent e b
  | app .orderMax as => (exponents e as).max?.getD 0
  | app .orderMin as => (exponents e as).min?.getD 0
  | t => e t

def exponents (e : Term → ℚ) : List Term → List ℚ
  | [] => []
  | t :: ts => exponent e t :: exponents e ts

end

theorem exponents_eq_map (e : Term → ℚ) (ts : List Term) : exponents e ts = ts.map (exponent e) := by
  induction ts with
  | nil => rfl
  | cons t ts ih => rw [exponents, ih, List.map_cons]

theorem isExtremal_exponent {h : Head} {as : List Term} (hh : h = .orderMax ∨ h = .orderMin)
    (hne : as ≠ []) (e : Term → ℚ) :
    IsExtremal (side h) (as.map (exponent e)) (exponent e (app h as)) := by
  have hne' : as.map (exponent e) ≠ [] := by simpa using hne
  rcases hh with rfl | rfl
  · rw [exponent, exponents_eq_map]
    exact isExtremal_max? hne' 0
  · rw [exponent, exponents_eq_map]
    exact isExtremal_min? hne' 0

variable {a b : Term} {as : List Term}

theorem interaction_pair (ha : a.isOrder = true ∧ a.evades = false)
    (hb : b.isOrder = true ∧ b.evades = false) :
    interaction [a, b] = pure (if a = b then top else app (.rel .eq) [a, b]) := by
  rw [interaction, asymp, theta_of_isOrder ha.1 ha.2, theta_of_isOrder hb.1 hb.2, pure_bind, pure_bind,
    Statement.relate_eq_of_isOrder ha.1 hb.1]

/-- **The forms of the statement**: an equation of two magnitudes, or a statement that is kept whole. -/
theorem interaction_forms (hlength : 2 ≤ as.length)
    (has : ∀ a ∈ as, a.isOrder = true ∧ a.evades = false) :
    (∃ a b, as = [a, b] ∧ a.isOrder = true ∧
      interaction as = pure (if a = b then top else app (.rel .eq) [a, b])) ∨
    3 ≤ as.length ∧ interaction as = pure (app .littlewoodPaley as) := by
  match as with
  | [] | [_] => simp at hlength
  | [a, b] =>
    have ha := has a (by simp)
    exact .inl ⟨a, b, rfl, ha.1, interaction_pair ha (has b (by simp))⟩
  | a :: b :: c :: cs =>
    refine .inr ⟨by simp, ?_⟩
    rw [interaction, mapM_theta_of_isOrder has, pure_bind]
    all_goals simp

theorem exists_interaction (hlength : 2 ≤ as.length)
    (has : ∀ a ∈ as, a.isOrder = true ∧ a.evades = false) : ∃ t, (interaction as).result = .ok t := by
  rcases interaction_forms hlength has with ⟨a, b, -, -, heq⟩ | ⟨-, heq⟩
  · exact ⟨_, by rw [heq, Outcome.result_pure]⟩
  · exact ⟨_, by rw [heq, Outcome.result_pure]⟩

end Magnitude

theorem Statement.disjuncts_interaction {as ts : List Term}
    (hts : (Magnitude.interactionCases as).result = .ok ts) :
    (Statement.disjuncts (app .littlewoodPaley as)).result = .ok (some ts) :=
  Outcome.result_bind_eq_ok.2 ⟨ts, hts, rfl⟩

theorem Tactic.splitCases_result {s : Proof.State} {hyp : String} {t : Term} {ts : List Term}
    (hget : s.context.get? hyp = some t) (hsplit : (Statement.disjuncts t).result = .ok (some ts)) :
    ((Tactic.splitCases hyp).run s).result = .ok (ts.map (s.put hyp)) := by
  change (splitCasesOf hyp s).result = _
  rw [splitCasesOf, hget]
  dsimp only
  rw [Outcome.result_bind_of_ok hsplit]
  rfl

namespace World
open Magnitude Statement

variable {M : Type} {w : World M} {t : Term} {as ts : List Term}

/-- **A statement as it is used**: if it splits into cases, one of them holds. -/
def HoldsInUse (w : World M) [LinearOrder M] (t : Term) : Prop :=
  (∃ ts, (disjuncts t).result = .ok (some ts) ∧ ∃ u ∈ ts, w.Holds u) ∨
    ((disjuncts t).result = .ok none ∧ w.Holds t)

variable [LinearOrder M]

theorem holdsInUse_of_some (h : (disjuncts t).result = .ok (some ts)) :
    w.HoldsInUse t ↔ ∃ u ∈ ts, w.Holds u := by
  simp [HoldsInUse, h]

theorem holdsInUse_of_none (h : (disjuncts t).result = .ok none) : w.HoldsInUse t ↔ w.Holds t := by
  simp [HoldsInUse, h]

/-- **An interaction as it is used** says that the largest size is attained twice, in every world in which
sizes treat extrema as such. -/
theorem holdsInUse_interaction (hmeasures : w.Measures) (hlength : 2 ≤ as.length)
    (has : ∀ a ∈ as, a.isOrder = true ∧ a.evades = false)
    (ht : (interaction as).result = .ok t) : w.HoldsInUse t ↔ AttainedTwice (as.map w.size) := by
  rcases interaction_forms hlength has with ⟨a, b, rfl, ha, heq⟩ | ⟨-, heq⟩
  · rw [heq, Outcome.result_pure, Except.ok.injEq] at ht
    subst ht
    rw [List.map_cons, List.map_cons, List.map_nil, attainedTwice_pair]
    by_cases hab : a = b
    · subst hab
      rw [if_pos rfl, holdsInUse_of_none rfl]
      simp [top]
    · rw [if_neg hab, holdsInUse_of_none rfl, holds_rel, relates_of_isOrder_left ha]
      rfl
  · rw [heq, Outcome.result_pure, Except.ok.injEq] at ht
    subst ht
    obtain ⟨ts, hts, hcases⟩ := interactionCases_spec hmeasures hlength has
    rw [holdsInUse_of_some (disjuncts_interaction hts), hcases, Calculus.holds_interaction hmeasures,
      attainedTwice_iff_eraseIdx]

/-- The world with exponents of orders as sizes, for given exponents of the atoms. -/
def scaled (w : World M) (e : Term → ℚ) : World ℚ where
  value := w.value
  fits := w.fits
  size := exponent e
  marks t := (∃ as, t = app .littlewoodPaley as ∧ ∃ (i : Nat) (a : Term), as[i]? = some a ∧
    IsExtremal .le ((as.eraseIdx i).map (exponent e)) (exponent e a)) ∨
    ((∀ as, t ≠ app .littlewoodPaley as) ∧ w.marks t)

omit [LinearOrder M] in
theorem measures_scaled (w : World M) (e : Term → ℚ) : (w.scaled e).Measures where
  extreme hh hne := isExtremal_exponent hh hne e
  interaction as := by
    constructor
    · rintro (⟨bs, heq, hcase⟩ | ⟨hne, -⟩)
      · cases heq
        exact hcase
      · exact absurd rfl (hne as)
    · exact fun hcase => .inl ⟨as, rfl, hcase⟩

end World

namespace Magnitude
open Statement Proof

/-- **The largest magnitude is attained twice.**  The statement about at least two orders of magnitude can
always be made.  As it is used, it holds for given exponents of the atoms exactly when the largest of the
exponents of the orders is attained at two different positions, and a permutation of the orders gives a
statement that holds for the same exponents.

The statement about two orders does not split into cases.  The statement about more of them is kept whole,
and splits into as many cases; to split a hypothesis of this form leaves one state for each of them. -/
theorem largest_attained_twice {as : List Term} (hlength : 2 ≤ as.length)
    (has : ∀ a ∈ as, a.isOrder = true ∧ a.evades = false) :
    ∃ t, (interaction as).result = .ok t ∧
      (∀ {M : Type} (w : World M) (e : Term → ℚ),
        (w.scaled e).HoldsInUse t ↔ AttainedTwice (as.map (exponent e))) ∧
      (∀ bs : List Term, bs.Perm as → ∃ u, (interaction bs).result = .ok u ∧
        ∀ {M : Type} (w : World M) (e : Term → ℚ),
          (w.scaled e).HoldsInUse u ↔ (w.scaled e).HoldsInUse t) ∧
      (as.length = 2 → (disjuncts t).result = .ok none) ∧
      (3 ≤ as.length → t = app .littlewoodPaley as ∧
        ∃ ts, (disjuncts t).result = .ok (some ts) ∧ ts.length = as.length ∧
          ∀ (s : State) (hyp : String), s.context.get? hyp = some t →
            ((Tactic.splitCases hyp).run s).result = .ok (ts.map (s.put hyp))) := by
  obtain ⟨t, ht⟩ := exists_interaction hlength has
  have huse : ∀ {M : Type} (w : World M) (e : Term → ℚ),
      (w.scaled e).HoldsInUse t ↔ AttainedTwice (as.map (exponent e)) :=
    fun w e => World.holdsInUse_interaction (w.measures_scaled e) hlength has ht
  refine ⟨t, ht, huse, fun bs hperm => ?_, fun htwo => ?_, fun hthree => ?_⟩
  · have hbs : ∀ b ∈ bs, b.isOrder = true ∧ b.evades = false := fun b hb => has b (hperm.mem_iff.1 hb)
    have hlength' : 2 ≤ bs.length := by rwa [hperm.length_eq]
    obtain ⟨u, hu⟩ := exists_interaction hlength' hbs
    refine ⟨u, hu, fun w e => ?_⟩
    rw [World.holdsInUse_interaction (w.measures_scaled e) hlength' hbs hu, huse]
    exact attainedTwice_perm (hperm.map _)
  · rcases interaction_forms hlength has with ⟨a, b, -, -, heq⟩ | ⟨hthree, -⟩
    · rw [heq, Outcome.result_pure, Except.ok.injEq] at ht
      subst ht
      split <;> rfl
    · omega
  · rcases interaction_forms hlength has with ⟨a, b, rfl, -⟩ | ⟨-, heq⟩
    · simp at hthree
    · rw [heq, Outcome.result_pure, Except.ok.injEq] at ht
      subst ht
      obtain ⟨ts, hts, -⟩ := World.interactionCases_spec (World.ones.measures_scaled 0) hlength has
      refine ⟨rfl, ts, disjuncts_interaction hts, ?_, fun s hyp hget => ?_⟩
      · simpa using (Outcome.result_mapM_eq_ok.1 hts).length_eq.symm
      · exact Tactic.splitCases_result hget (disjuncts_interaction hts)

/-- Of two magnitudes, the first one is given twice.  The statement holds if it is the larger one, and fails
if it is the smaller one. -/
theorem repeated_attained_twice :
    ∃ t, (interaction [var ⟨"A", .order⟩, var ⟨"A", .order⟩, var ⟨"B", .order⟩]).result = .ok t ∧
      (World.ones.scaled fun t => if t = var ⟨"A", .order⟩ then 2 else 1).HoldsInUse t ∧
      ¬ (World.ones.scaled fun t => if t = var ⟨"A", .order⟩ then 1 else 2).HoldsInUse t := by
  have horders : ∀ a ∈ [var ⟨"A", .order⟩, var ⟨"A", .order⟩, var ⟨"B", .order⟩],
      a.isOrder = true ∧ a.evades = false := by decide
  obtain ⟨t, ht, huse, -⟩ := largest_attained_twice (by decide) horders
  refine ⟨t, ht, (huse _ _).2 ?_, fun hholds => ?_⟩
  · decide
  · have htwice := (huse _ _).1 hholds
    revert htwice
    decide

end Magnitude
end Majorant
