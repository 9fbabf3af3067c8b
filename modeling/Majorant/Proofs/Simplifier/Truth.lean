import Majorant.Proofs.Simplifier.Faithful
import Majorant.Proofs.Tactic.Logic

/-!
# What the simplifier returns holds where its goal does

The steps of the simplifier are put together: the immediate consequences of the hypotheses, their replacement
by truth values and the recursive reduction.
-/

namespace Majorant
open Term Proof Simplifier

namespace Faithful

variable {ι : Type*} [Nonempty ι] {M : Type} [LinearOrder M] {worlds : ι → World M} {V : Vocabulary}
  {t : Term} {hyps : List Term}

/-- **What the simplifier returns** for a statement says the same. -/
theorem yields_simplify (hV : Faithful worlds V) (hhyps : ∀ k ∈ hyps, V.Hypothesis k)
    (hhold : ∀ i, ∀ k ∈ hyps, (worlds i).Holds k) (htop : top ∉ hyps) (ht : V.Sentence t) :
    (simplify false hyps t).Yields fun u =>
      V.Sentence u ∧ ∀ i, ((worlds i).Holds u ↔ (worlds i).Holds t) := by
  have hset : ∀ {k}, k ∈ hyps.eraseDups ↔ k ∈ hyps := List.mem_eraseDups
  have hdups : ∀ k ∈ hyps.eraseDups, V.Hypothesis k := fun k hk => hhyps k (hset.1 hk)
  have hholds : ∀ i, ∀ k ∈ hyps.eraseDups, (worlds i).Holds k := fun i k hk => hhold i k (hset.1 hk)
  have hfree : top ∉ hyps.eraseDups := fun hmem => htop (hset.1 hmem)
  have hread : ∀ i, ∀ k ∈ hyps.eraseDups, (worlds i).Interprets k := by
    intro i k hk
    rcases hdups k hk with hdeclared | hsentence
    · obtain ⟨as, rfl⟩ := exists_of_isDeclaration hdeclared
      exact .marker rfl as
    · exact hV.readable hsentence i
  unfold simplify
  split
  · cases ht
  · exact Outcome.yields_pure ⟨ht, fun _ => Iff.rfl⟩
  simp only [Bool.false_eq_true, if_false, pure_bind]
  refine Outcome.yields_bind_of_result fun follows hfollows => ?_
  cases follows with
  | true =>
    refine Outcome.yields_bind fun _ => Outcome.yields_pure ⟨.truth true, fun i => ?_⟩
    exact iff_of_true rfl (World.holds_of_test (hread i) (hV.readable ht i) hfollows (hholds i))
  | false =>
    refine Outcome.yields_bind_of_result fun o ho => ?_
    obtain ⟨o', ho', hopposite⟩ := ht.exists_not
    cases ho.symm.trans ho'
    refine Outcome.yields_bind_of_result fun fails hfails => ?_
    cases fails with
    | true =>
      refine Outcome.yields_bind fun _ => Outcome.yields_pure ⟨.truth false, fun i => ?_⟩
      have hnot := World.holds_of_test (hread i) (hV.readable hopposite i) hfails (hholds i)
      exact iff_of_false nofun ((World.says_not (hV.readable ht i) ho).2.1 hnot)
    | false =>
      refine Outcome.Yields.bind (hV.retains_absorb hdups hholds _ t) fun g hg => ?_
      refine Outcome.Yields.bind (hV.retains_reduce hdups hholds hfree g) fun u hu => ?_
      refine Outcome.yields_bind fun same => ?_
      obtain ⟨hmade, hiff⟩ := (hg.trans hu).sentence ht
      have hresult : (pure u : Outcome Term).Yields fun u =>
          V.Sentence u ∧ ∀ i, ((worlds i).Holds u ↔ (worlds i).Holds t) :=
        Outcome.yields_pure ⟨hmade, fun i => hiff i trivial⟩
      split
      · exact Outcome.yields_bind fun _ => hresult
      · exact hresult

end Faithful

/-- Orders that are put together from variables by maxima and minima. -/
inductive Term.Lattice : Term → Prop
  | var {v : Variable} (hv : v.kind = .order) : Lattice (var v)
  | extremum {h : Head} {as : List Term} (hh : h = .orderMax ∨ h = .orderMin) (hne : as ≠ [])
      (has : ∀ a ∈ as, Lattice a) : Lattice (app h as)

namespace Term.Lattice

variable {h : Head} {t u : Term} {ts : List Term}

theorem isOrder (ht : Lattice t) : t.isOrder = true := by
  cases ht with
  | var hv => simp [Term.isOrder, hv]
  | extremum hh => rcases hh with rfl | rfl <;> rfl

theorem arithmetic (ht : Lattice t) : Arithmetic t := by
  induction ht with
  | var hv => exact .var (by simp [hv])
  | extremum hh _ _ ih => rcases hh with rfl | rfl <;> exact .app rfl ih

theorem cases_app (ht : Lattice (app h ts)) :
    (h = .orderMax ∨ h = .orderMin) ∧ ts ≠ [] ∧ ∀ t ∈ ts, Lattice t := by
  cases ht with
  | extremum hh hne has => exact ⟨hh, hne, has⟩

theorem extremum_eraseDups (hh : h = .orderMax ∨ h = .orderMin) (hne : ts ≠ [])
    (hts : ∀ t ∈ ts, Lattice t) : Lattice (Magnitude.extremum h ts) := by
  have hmem : ∀ {u}, u ∈ ts.eraseDups ↔ u ∈ ts := List.mem_eraseDups
  unfold Magnitude.extremum
  split
  · next u heq => exact hts u (hmem.1 (by rw [heq]; exact List.mem_singleton_self u))
  · obtain ⟨u, hu⟩ := List.exists_mem_of_ne_nil ts hne
    exact .extremum hh (List.ne_nil_of_mem (hmem.2 hu)) fun u hu => hts u (hmem.1 hu)

theorem nested_ne_nil (hts : ∀ t ∈ ts, Lattice t) : ∀ t ∈ ts, ∀ as, t = app h as → as ≠ [] := by
  rintro _ ht as rfl
  exact (hts _ ht).cases_app.2.1

theorem of_mem_spread (hts : ∀ t ∈ ts, Lattice t) : ∀ u ∈ Magnitude.spread h ts, Lattice u := by
  intro u hu
  obtain ⟨t, ht, hu⟩ := Magnitude.mem_spread.1 hu
  by_cases hnested : ∃ as, t = app h as
  · obtain ⟨as, rfl⟩ := hnested
    rw [Magnitude.spread_same] at hu
    exact (hts _ ht).cases_app.2.2 u hu
  · rw [Magnitude.spread_of_plain fun v hv bs heq =>
      hnested ⟨bs, (List.mem_singleton.1 hv).symm.trans heq⟩] at hu
    rw [List.mem_singleton.1 hu]
    exact hts t ht

theorem extremal_eq (name : String) (hne : ts ≠ []) (hts : ∀ t ∈ ts, Lattice t) :
    Magnitude.extremal h name ts = pure (Magnitude.extremum h ts) := by
  unfold Magnitude.extremal
  rw [Magnitude.mapM_theta_of_isOrder fun t ht => ⟨(hts t ht).isOrder, (hts t ht).arithmetic.evades⟩,
    pure_bind]
  cases ts with
  | nil => exact absurd rfl hne
  | cons => rfl

theorem apply_eq (hh : h = .orderMax ∨ h = .orderMin) (hne : ts ≠ []) (hts : ∀ t ∈ ts, Lattice t) :
    Evaluation.apply h ts = pure (Magnitude.extremum h ts) := by
  rcases hh with rfl | rfl
  · exact extremal_eq "OrderMax" hne hts
  · exact extremal_eq "OrderMin" hne hts

theorem settle_eq (hh : h = .orderMax ∨ h = .orderMin) (hne : ts ≠ []) (hts : ∀ t ∈ ts, Lattice t) :
    Evaluation.settle (app h ts) = pure (Magnitude.extremum h (Magnitude.spread h ts)) := by
  have hspread : Magnitude.spread h ts ≠ [] := Magnitude.spread_ne_nil hne (nested_ne_nil hts)
  rcases hh with rfl | rfl
  · exact extremal_eq "OrderMax" hspread (of_mem_spread hts)
  · exact extremal_eq "OrderMin" hspread (of_mem_spread hts)

variable {M : Type} [LinearOrder M] {w : World M}

theorem extremes_size (hmeasures : w.Measures) (hh : h = .orderMax ∨ h = .orderMin) :
    Magnitude.Extremes h w.size := fun _ hne => hmeasures.extreme hh hne

/-- **Evaluated extrema have the right size.** -/
theorem size_extremum (hmeasures : w.Measures) (hh : h = .orderMax ∨ h = .orderMin) (hne : ts ≠ []) :
    w.size (Magnitude.extremum h ts) = w.size (app h ts) :=
  ((extremes_size hmeasures hh).extremum hne).unique (extremes_size hmeasures hh ts hne)

theorem size_extremum_spread (hmeasures : w.Measures) (hh : h = .orderMax ∨ h = .orderMin)
    (hne : ts ≠ []) (hts : ∀ t ∈ ts, Lattice t) :
    w.size (Magnitude.extremum h (Magnitude.spread h ts)) = w.size (app h ts) :=
  ((extremes_size hmeasures hh).extremum_spread hne (nested_ne_nil hts)).unique
    (extremes_size hmeasures hh ts hne)

end Term.Lattice

/-- The numbers `x` and `y` and the larger one of them, and all orders from maxima and minima. -/
def pairsAndLattices : Vocabulary
  | .number, t => t = var ⟨"x", .real⟩ ∨ t = var ⟨"y", .real⟩ ∨
      t = app .max [var ⟨"x", .real⟩, var ⟨"y", .real⟩]
  | .order, t => t.Lattice

section Pairs

variable {M : Type} [LinearOrder M] {a b t : Term}

theorem denotes_pairsAndLattices {ρ : Valuation} (ht : pairsAndLattices .number t) : t.Denotes ρ := by
  rcases ht with rfl | rfl | rfl
  · exact (denotes_var _).2 rfl
  · exact (denotes_var _).2 rfl
  · exact (denotes_max _).2 ⟨by simp [Kind.isNumeric], by simp⟩

theorem settles_pairsAndLattices {w : World M} (ha : pairsAndLattices .number a)
    (hb : pairsAndLattices .number b) : w.Settles a b := by
  by_cases heq : a = b
  · subst heq
    refine World.settles_self (denotes_pairsAndLattices ha) fun r => ?_
    rcases ha with rfl | rfl | rfl <;> cases r <;> with_unfolding_all rfl
  · refine World.settles_of_kept ⟨denotes_pairsAndLattices ha, denotes_pairsAndLattices hb⟩ fun r => ?_
    rcases ha with rfl | rfl | rfl <;> rcases hb with rfl | rfl | rfl <;>
      first | exact absurd rfl heq | (cases r <;> with_unfolding_all rfl)

theorem exists_max_pairsAndLattices (ha : pairsAndLattices .number a)
    (hb : pairsAndLattices .number b) : ∃ u, (Evaluation.apply .max [a, b]).result = .ok u ∧
      pairsAndLattices .number u ∧ ∀ ρ, u.val ρ = (app .max [a, b]).val ρ := by
  by_cases heq : a = b
  · subst heq
    refine ⟨a, ?_, ha, fun ρ => by simp [greatestOf]⟩
    rcases ha with rfl | rfl | rfl <;> with_unfolding_all rfl
  · refine ⟨_, ?_, .inr (.inr rfl), fun ρ => ?_⟩
    · rcases ha with rfl | rfl | rfl <;> rcases hb with rfl | rfl | rfl <;>
        first | exact absurd rfl heq | with_unfolding_all rfl
    · rcases ha with rfl | rfl | rfl <;> rcases hb with rfl | rfl | rfl <;>
        first | exact absurd rfl heq | simp [greatestOf, max_comm]

theorem ne_nil_of_forall₂ {α β : Type*} {R : α → β → Prop} {xs : List α} {ys : List β}
    (h : List.Forall₂ R xs ys) (hne : xs ≠ []) : ys ≠ [] := by
  rintro rfl
  exact hne (List.forall₂_nil_right_iff.1 h)

/-- **Evaluation is faithful** on two numbers and the larger one of them, and on orders from maxima and
minima. -/
theorem faithful_pairsAndLattices {ι : Type*} {worlds : ι → World M}
    (hmeasures : ∀ i, (worlds i).Measures) : Faithful worlds pairsAndLattices where
  measures := hmeasures
  arithmetic := by
    rintro (_ | _) t ht
    · rcases ht with rfl | rfl | rfl
      · exact .var (by decide)
      · exact .var (by decide)
      · exact .app rfl (List.forall_mem_cons.2
          ⟨.var (by decide), List.forall_mem_singleton.2 (.var (by decide))⟩)
    · exact Lattice.arithmetic ht
  denotes ht _ := denotes_pairsAndLattices ht
  argument := by
    rintro h as a (ht | ht | ht) ha <;> cases ht
    rcases List.mem_pair.1 ha with rfl | rfl
    · exact .inl rfl
    · exact .inr (.inl rfl)
  isOrder := Lattice.isOrder
  part := by
    intro t a ht ha
    cases ht with
    | var => cases ha
    | extremum hh _ has => rcases hh with rfl | rfl <;> exact (has a ha).isOrder
  size_congr := by
    intro h as bs ht hbs i
    obtain ⟨hh, hne, has⟩ := Lattice.cases_app ht
    obtain ⟨-, hsizes⟩ := Stands.orders hbs has
    have hextreme := (hmeasures i).extreme hh (ne_nil_of_forall₂ hbs hne)
    rw [hsizes i] at hextreme
    exact hextreme.unique ((hmeasures i).extreme hh hne)
  constant ht := by
    rcases (Lattice.cases_app ht).1 with hh | hh <;> cases hh
  relate := by
    intro r a b c ha hb hc i
    obtain ⟨d, hd, hsays⟩ := settles_pairsAndLattices (w := worlds i) ha hb r
    cases hc.symm.trans hd
    exact hsays.2
  apply := by
    rintro (_ | _) h as bs u ht hbs hu
    · rcases ht with ht | ht | ht <;> cases ht
      obtain ⟨a, b, rfl, hstands, hstands'⟩ := forall₂_pair.1 hbs
      obtain ⟨v, hv, hrole, hval⟩ := exists_max_pairsAndLattices
        (hstands.quantity (ρ := .number) (.inl rfl)).1
        (hstands'.quantity (ρ := .number) (.inr (.inl rfl))).1
      cases hu.symm.trans hv
      exact ⟨hrole, fun i => hval _⟩
    · obtain ⟨hh, hne, has⟩ := Lattice.cases_app ht
      obtain ⟨horders, -⟩ := Stands.orders hbs has
      have hne' := ne_nil_of_forall₂ hbs hne
      rw [Lattice.apply_eq hh hne' horders] at hu
      cases hu
      exact ⟨.extremum_eraseDups hh hne' horders, fun i => Lattice.size_extremum (hmeasures i) hh hne'⟩
  drop := by
    rintro (_ | _) h as c u ht hc hne - hu
    · rcases ht with ht | ht | ht <;> cases ht
      rcases List.mem_pair.1 hc with rfl | rfl
      · have hmade : (Evaluation.apply .max [var ⟨"y", .real⟩]).result = .ok (var ⟨"y", .real⟩) := by
          with_unfolding_all rfl
        cases hu.symm.trans hmade
        exact ⟨.inr (.inl rfl), fun i => by simp [World.Same, greatestOf]⟩
      · have hmade : (Evaluation.apply .max [var ⟨"x", .real⟩]).result = .ok (var ⟨"x", .real⟩) := by
          with_unfolding_all rfl
        cases hu.symm.trans hmade
        exact ⟨.inl rfl, fun i => by simp [World.Same, greatestOf]⟩
    · obtain ⟨hh, -, has⟩ := Lattice.cases_app ht
      have hrest : ∀ a ∈ as.erase c, Lattice a := fun a ha => has a (List.mem_of_mem_erase ha)
      rw [Lattice.apply_eq hh hne hrest] at hu
      cases hu
      exact ⟨.extremum_eraseDups hh hne hrest, fun i => Lattice.size_extremum (hmeasures i) hh hne⟩
  settle := by
    rintro (_ | _) t u ht hu
    · have hsettle : (Evaluation.settle t).result = .ok t := by
        rcases ht with rfl | rfl | rfl <;> with_unfolding_all rfl
      cases hu.symm.trans hsettle
      exact ⟨ht, fun i => .refl _ _ _⟩
    · cases ht with
      | var hv =>
        cases hu
        exact ⟨.var hv, fun i => .refl _ _ _⟩
      | extremum hh hne has =>
        rw [Lattice.settle_eq hh hne has] at hu
        cases hu
        exact ⟨.extremum_eraseDups hh (Magnitude.spread_ne_nil hne (Lattice.nested_ne_nil has))
          (Lattice.of_mem_spread has), fun i => Lattice.size_extremum_spread (hmeasures i) hh hne has⟩

end Pairs

namespace Simplifier

/-- **What the simplifier returns holds where its goal does.**  Let the hypotheses, and the goal, be
declarations and statements over a vocabulary, the literal truth left out of the hypotheses, and let
evaluation be faithful in the worlds in which the hypotheses hold.  In whichever order they are listed,
what is returned is again a declaration or a statement over the vocabulary, and it holds in each of these
worlds if and only if the goal does. -/
theorem simplify_keeps_truth {ι : Type*} {M : Type} [LinearOrder M] {worlds : ι → World M}
    {V : Vocabulary} {hyps order : List Term} {goal r : Term}
    (hV : Faithful (fun i : models worlds hyps => worlds i) V)
    (hhyps : ∀ k ∈ hyps, V.Hypothesis k) (htop : top ∉ hyps) (hgoal : V.Hypothesis goal)
    (horder : ∀ k, k ∈ order ↔ k ∈ hyps) (hr : (simplify false order goal).result = .ok r) :
    ∀ i ∈ models worlds hyps, V.Hypothesis r ∧ ((worlds i).Holds r ↔ (worlds i).Holds goal) := by
  intro i hi
  have hnonempty : Nonempty (models worlds hyps) := ⟨⟨i, hi⟩⟩
  rcases hgoal with hdeclared | hsentence
  · obtain ⟨as, rfl⟩ := exists_of_isDeclaration hdeclared
    cases hr
    exact ⟨.inl rfl, Iff.rfl⟩
  · have hall := hV.yields_simplify (fun k hk => hhyps k ((horder k).1 hk))
      (fun j k hk => j.2 k ((horder k).1 hk)) (fun hmem => htop ((horder top).1 hmem)) hsentence
    obtain ⟨hmade, hiff⟩ := hall r hr
    exact ⟨.inr hmade, hiff ⟨i, hi⟩⟩

/-- Two numbers that do not exceed each other, and an order that does not exceed another one. -/
def bothWays : List Term :=
  [var ⟨"P", .prop⟩, app (.rel .le) [var ⟨"x", .real⟩, var ⟨"y", .real⟩],
    app (.rel .le) [var ⟨"y", .real⟩, var ⟨"x", .real⟩],
    app (.rel .le) [var ⟨"A", .order⟩, var ⟨"B", .order⟩]]

/-- The larger number differs from the second one, or the smaller order lies below the second one. -/
def eitherDiffers : Term :=
  app .or [app .and [var ⟨"P", .prop⟩, app (.rel .ne) [app .max [var ⟨"x", .real⟩, var ⟨"y", .real⟩],
      var ⟨"y", .real⟩]],
    app (.rel .lt) [app .orderMin [var ⟨"A", .order⟩, var ⟨"B", .order⟩], var ⟨"B", .order⟩]]

theorem ones_mem_models_bothWays :
    (World.ones, 0) ∈ models (fun i : World Unit × (Variable → ℚ) => i.1.graded i.2) bothWays := by
  have hnumbers : ∀ name name', (World.ones.graded 0).Relates .le (var ⟨name, .real⟩)
      (var ⟨name', .real⟩) := by
    intro name name'
    rw [World.relates_of_numbers ⟨(denotes_var _).2 rfl, (denotes_var _).2 rfl⟩]
    exact le_refl (1 : ℝ)
  have horders : (World.ones.graded 0).Relates .le (var ⟨"A", .order⟩) (var ⟨"B", .order⟩) := by
    rw [World.relates_of_isOrder_left rfl]
    exact le_refl (0 : ℚ)
  refine List.forall_mem_cons.2 ⟨trivial, List.forall_mem_cons.2 ⟨hnumbers _ _,
    List.forall_mem_cons.2 ⟨hnumbers _ _, List.forall_mem_singleton.2 horders⟩⟩⟩

/-- With the first hypothesis about the numbers before the second one, the first alternative is seen to
fail; with the second one before the first, it is not. -/
theorem eitherDiffers_simplified :
    (∃ i, i ∈ models (fun i : World Unit × (Variable → ℚ) => i.1.graded i.2) bothWays) ∧
    ∀ i ∈ models (fun i : World Unit × (Variable → ℚ) => i.1.graded i.2) bothWays,
      ((i.1.graded i.2).Holds (app (.rel .lt) [var ⟨"A", .order⟩, var ⟨"B", .order⟩]) ↔
        (i.1.graded i.2).Holds eitherDiffers) ∧
      ((i.1.graded i.2).Holds (app .or [app (.rel .lt) [var ⟨"A", .order⟩, var ⟨"B", .order⟩],
          app (.rel .ne) [var ⟨"x", .real⟩, var ⟨"y", .real⟩]]) ↔
        (i.1.graded i.2).Holds eitherDiffers) := by
  have hx : pairsAndLattices .number (var ⟨"x", .real⟩) := .inl rfl
  have hy : pairsAndLattices .number (var ⟨"y", .real⟩) := .inr (.inl rfl)
  have hmax : pairsAndLattices .number (app .max [var ⟨"x", .real⟩, var ⟨"y", .real⟩]) :=
    .inr (.inr rfl)
  have hA : pairsAndLattices .order (var ⟨"A", .order⟩) := .var rfl
  have hB : pairsAndLattices .order (var ⟨"B", .order⟩) := .var rfl
  have hmin : pairsAndLattices .order (app .orderMin [var ⟨"A", .order⟩, var ⟨"B", .order⟩]) :=
    .extremum (.inr rfl) (by simp)
      (List.forall_mem_cons.2 ⟨hA, List.forall_mem_singleton.2 hB⟩)
  have hP : pairsAndLattices.Sentence (var ⟨"P", .prop⟩) := .proposition rfl
  have hhyps : ∀ k ∈ bothWays, pairsAndLattices.Hypothesis k :=
    List.forall_mem_cons.2 ⟨.inr hP, List.forall_mem_cons.2 ⟨.inr (.rel hx hy),
      List.forall_mem_cons.2 ⟨.inr (.rel hy hx), List.forall_mem_singleton.2 (.inr (.rel hA hB))⟩⟩⟩
  have hgoal : pairsAndLattices.Hypothesis eitherDiffers :=
    .inr (.or (List.forall_mem_cons.2 ⟨.and (List.forall_mem_cons.2
      ⟨hP, List.forall_mem_singleton.2 (.rel hmax hy)⟩), List.forall_mem_singleton.2 (.rel hmin hB)⟩))
  have hV : Faithful (fun i : models (fun i : World Unit × (Variable → ℚ) => i.1.graded i.2) bothWays =>
      i.1.1.graded i.1.2) pairsAndLattices :=
    faithful_pairsAndLattices fun i => World.measures_graded i.1.1 i.1.2
  have hforward : (simplify false bothWays eitherDiffers).result =
      .ok (app (.rel .lt) [var ⟨"A", .order⟩, var ⟨"B", .order⟩]) := by
    with_unfolding_all rfl
  have hbackward : (simplify false bothWays.reverse eitherDiffers).result =
      .ok (app .or [app (.rel .lt) [var ⟨"A", .order⟩, var ⟨"B", .order⟩],
        app (.rel .ne) [var ⟨"x", .real⟩, var ⟨"y", .real⟩]]) := by
    with_unfolding_all rfl
  refine ⟨⟨_, ones_mem_models_bothWays⟩, fun i hi => ⟨?_, ?_⟩⟩
  · exact (simplify_keeps_truth hV hhyps (by decide) hgoal (fun _ => Iff.rfl) hforward i hi).2
  · exact (simplify_keeps_truth hV hhyps (by decide) hgoal (fun _ => List.mem_reverse) hbackward i hi).2

end Simplifier
end Majorant
