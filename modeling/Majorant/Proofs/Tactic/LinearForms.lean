import Majorant.Proofs.Real.LinearForm
import Majorant.Proofs.Tactic.Linear

/-!
# Linear arithmetic on linear forms

Every comparison of linear forms gives an inequality between its variables, so a rational point that satisfies
the inequalities of a scenario is an assignment that satisfies the scenario.
-/

namespace Majorant

namespace Operation
open Term

theorem sub_of_isLinear {a b : Term} (ha : a.isLinear = true) (hb : b.isLinear = true) :
    Operation.sub a b = pure (Term.sub a b) := by
  have hneg : Operation.neg b = pure b.neg := by
    unfold Operation.neg
    rw [written?_of_isLinear hb, isOrder_of_isLinear hb, isQuantity_of_isLinear hb,
      evades_of_denotes (ρ := 0) b (denotes_of_isLinear hb)]
    rfl
  have hadd : Evaluation.addAll [a, b.neg] = pure (Term.sub a b) := by
    have hmap : [a, b.neg].mapM ofLiteral = (pure [a, b.neg] : Outcome (List Term)) := by
      rw [List.mapM_cons, List.mapM_cons, ofLiteral_of_isLinear ha,
        ofLiteral_of_isLinear (isLinear_neg hb)]
      rfl
    unfold Evaluation.addAll
    rw [hmap, pure_bind, evadesList_of_denotes (ρ := 0) _
      fun t ht => denotes_of_isLinear (isLinear_pair ha hb t ht)]
    rfl
  unfold Operation.sub orderOnRight
  rw [written?_of_isLinear ha, written?_of_isLinear hb, isOrder_of_isLinear ha,
    isOrder_of_isLinear hb, isQuantity_of_isLinear ha, isQuantity_of_isLinear hb]
  dsimp only
  rw [hneg, pure_bind, hadd]
  rfl

end Operation

namespace Linear

theorem holdsIn_ofRational {i : Inequality Term} {x : Term → ℚ}
    (hvars : ∀ k ∈ i.unknowns, ∃ v, k = Term.var v) :
    i.HoldsIn (Term.val (Term.ofRational fun v => x (.var v))) ↔ i.holdsAt x = true := by
  have hvalue : i.valueIn (Term.val (Term.ofRational fun v => x (.var v))) =
      ((i.valueIn x : ℚ) : ℝ) := by
    unfold Inequality.valueIn
    rw [Rat.cast_list_sum, List.map_map]
    congr 1
    apply List.map_congr_left
    intro p hp
    obtain ⟨v, hv⟩ := hvars p.1 (List.mem_map.2 ⟨p, hp, rfl⟩)
    simp [hv, Term.ofRational]
  rw [Inequality.holdsAt_iff]
  unfold Inequality.HoldsIn
  rw [hvalue]
  cases i.sense <;> simp only [Sense.Compares, Rat.cast_id] <;> norm_cast

end Linear

namespace Tactic
open Term Proof Linear

/-- A rational assignment satisfies a hypothesis: a comparison holds, and a declared variable keeps the
bound of its kind. -/
def SatisfiedBy (q : Variable → ℚ) : Term → Prop
  | app .declared [var v] => v.kind.Bounds (q v)
  | t => t.HoldsAt (ofRational q)

def IsLinearComparison (t : Term) : Prop :=
  ∃ r a b, t = app (.rel r) [a, b] ∧ r ≠ .ne ∧ a.isLinear = true ∧ b.isLinear = true ∧
    sub a b ≠ zero

theorem linearInequality_of_isLinear {r : Rel} {a b : Term} (hr : r ≠ .ne) (ha : a.isLinear = true)
    (hb : b.isLinear = true) (hne : sub a b ≠ zero) :
    ∃ i, linearInequality? (app (.rel r) [a, b]) = pure (some i) ∧
      ∀ k ∈ i.unknowns, k ∈ keys (sub a b).coefficients ∧ ∃ v, k = var v := by
  obtain ⟨s, hs⟩ : ∃ s, Magnitude.senseOf? r = some s := by
    cases r <;> first | exact ⟨_, rfl⟩ | exact absurd rfl hr
  have hkeys := fun k (hk : k ∈ keys (sub a b).coefficients) =>
    mem_keys_coefficients (isLinear_sub ha hb) hne hk
  have hreal : ∀ p ∈ (sub a b).coefficients, p.1.is .real = true := by
    intro p hp
    rcases hkeys p.1 (List.mem_map.2 ⟨p, hp, rfl⟩) with hone | ⟨v, hv, hvar⟩
    · rw [hone]
      exact num_is_real 1
    · rw [hvar]
      exact var_is_real hv
  obtain ⟨i, hi⟩ : ∃ i, differenceInequality? s (sub a b) = some i :=
    ⟨_, differenceInequality?_eq_some.2 ⟨hreal, rfl⟩⟩
  refine ⟨i, ?_, fun k hk => ?_⟩
  · simp only [linearInequality?]
    rw [Operation.sub_of_isLinear ha hb, pure_bind,
      evades_of_denotes (ρ := 0) _ (denotes_of_isLinear (isLinear_sub ha hb)), hs]
    exact congrArg pure hi
  · obtain ⟨-, rfl⟩ := differenceInequality?_eq_some.1 hi
    obtain ⟨p, hp, rfl⟩ := List.mem_map.1 hk
    obtain ⟨hp, hnot⟩ := List.mem_filter.1 hp
    have hmem : p.1 ∈ keys (sub a b).coefficients := List.mem_map.2 ⟨p, hp, rfl⟩
    refine ⟨hmem, ?_⟩
    rcases hkeys p.1 hmem with hone | ⟨v, -, hvar⟩
    · exact absurd hone (by simpa using hnot)
    · exact ⟨v, hvar⟩

def IsLinearScenario (hs : List Term) : Prop :=
  ∀ t ∈ hs, IsLinearComparison t ∨ ∃ v, t = declare v

theorem exists_linearInequalities {hs : List Term} (h : IsLinearScenario hs) :
    ∃ is, (linearInequalities hs).result = .ok is := by
  have hall : ∀ t ∈ hs, ∃ o, (linearInequality? t).result = .ok o := by
    intro t ht
    rcases h t ht with ⟨r, a, b, rfl, hr, ha, hb, hne⟩ | ⟨v, rfl⟩
    · obtain ⟨i, hi, -⟩ := linearInequality_of_isLinear hr ha hb hne
      exact ⟨some i, by rw [hi]; rfl⟩
    · exact ⟨_, rfl⟩
  obtain ⟨os, hos⟩ : ∃ os, (hs.mapM linearInequality?).result = .ok os := by
    simp only [Outcome.result_mapM_eq_ok]
    clear h
    induction hs with
    | nil => exact ⟨[], .nil⟩
    | cons t hs ih =>
      obtain ⟨o, ho⟩ := hall t List.mem_cons_self
      obtain ⟨os, hos⟩ := ih fun u hu => hall u (List.mem_cons_of_mem t hu)
      exact ⟨o :: os, .cons ho hos⟩
  exact ⟨os.filterMap id, Outcome.result_bind_eq_ok.2 ⟨os, hos, rfl⟩⟩

theorem satisfiedBy_of_holdsAt {hs : List Term} (h : IsLinearScenario hs)
    {is : List (Inequality Term)} (his : (linearInequalities hs).result = .ok is) {x : Term → ℚ}
    (hx : ∀ i ∈ is, i.holdsAt x = true) : ∀ t ∈ hs, SatisfiedBy (fun v => x (var v)) t := by
  intro t ht
  rcases h t ht with ⟨r, a, b, rfl, hr, ha, hb, hne⟩ | ⟨v, rfl⟩
  · obtain ⟨i, hi, hvars⟩ := linearInequality_of_isLinear hr ha hb hne
    have hmem : i ∈ is := (mem_of_linearInequalities his).2 ⟨_, ht, by rw [hi]; rfl⟩
    have hholds := (holdsIn_ofRational fun k hk => (hvars k hk).2).2 (hx i hmem)
    exact (holdsIn_iff_of_rel (denotes_of_isLinear ha) (denotes_of_isLinear hb)
      (by rw [hi]; rfl)).1 hholds
  · have hbounds := (linearInequality_declared v (val (ofRational fun v => x (var v)))).1 fun i hi => ?_
    · rwa [val_var] at hbounds
    · have hmem : i ∈ is := (mem_of_linearInequalities his).2 ⟨_, ht, hi⟩
      refine (holdsIn_ofRational fun k hk => ?_).2 (hx i hmem)
      rw [unknowns_of_declaredInequality (by simpa [linearInequality?, declare] using hi)] at hk
      exact ⟨v, List.mem_singleton.1 hk⟩

def Refused (hs : List Term) : Prop :=
  bot ∉ hs ∧ ∃ is, (linearInequalities hs).result = .ok is ∧ ¬ Inequality.Writable Term.text is

/-- **An impossible scenario is refuted, or refused for a name in it.** -/
theorem refuted_or_refused {hs : List Term} (h : IsLinearScenario hs)
    (hnone : ¬ ∃ q, ∀ t ∈ hs, SatisfiedBy q t) : Refuted hs ∨ Refused hs := by
  have hbot : bot ∉ hs := by
    intro hbot
    rcases h bot hbot with ⟨r, a, b, heq, -⟩ | ⟨v, heq⟩ <;> cases heq
  obtain ⟨is, his⟩ := exists_linearInequalities h
  have hkeys : ∀ i ∈ is, i.unknowns.Nodup := by
    intro i hi
    obtain ⟨t, -, ht⟩ := (mem_of_linearInequalities his).1 hi
    exact nodup_of_linearInequality ht
  have hinfeasible : ¬ Inequality.Feasible is := by
    rintro ⟨x, hx⟩
    exact hnone ⟨fun v => x (var v), satisfiedBy_of_holdsAt h his hx⟩
  by_cases hwrite : Inequality.Writable Term.text is
  · obtain ⟨ms, hms, -⟩ := feasibility_of_not_feasible hkeys hwrite hinfeasible
    exact .inl (.inr ⟨is, ms, his, by rw [hms]; rfl⟩)
  · exact .inr ⟨hbot, is, his, hwrite⟩

theorem Refused.not_refuted {hs : List Term} (h : Refused hs) : ¬ Refuted hs := by
  obtain ⟨hbot, is, his, hwrite⟩ := h
  rintro (hmem | ⟨is', ms, his', hms⟩)
  · exact hbot hmem
  · rw [his] at his'
    cases his'
    rw [feasibility_of_not_writable hwrite] at hms
    cases hms

theorem decideScenarios_of_refused {ss : List (List Term)}
    (hall : ∀ hs ∈ ss, Refuted hs ∨ Refused hs) (hsome : ∃ hs ∈ ss, Refused hs) :
    (decideScenarios ss).result = .error .unencodable := by
  induction ss with
  | nil =>
    obtain ⟨hs, hmem, -⟩ := hsome
    cases hmem
  | cons hs ss ih =>
    unfold decideScenarios
    rcases hall hs List.mem_cons_self with hrefuted | ⟨hbot, is, his, hwrite⟩
    · have hrest : (decideScenarios ss).result = .error .unencodable := by
        refine ih (fun u hu => hall u (List.mem_cons_of_mem hs hu)) ?_
        obtain ⟨u, hu, hrefused⟩ := hsome
        rcases List.mem_cons.1 hu with rfl | hu
        · exact absurd hrefuted hrefused.not_refuted
        · exact ⟨u, hu, hrefused⟩
      by_cases hbot : bot ∈ hs
      · rw [if_pos (by simpa using hbot), hrest]
      · obtain ⟨is, ms, his, hms⟩ := hrefuted.resolve_left hbot
        rw [if_neg (by simpa using hbot), Outcome.result_bind_of_ok his,
          Outcome.result_bind_of_ok hms]
        exact Outcome.result_bind_of_error hrest _
    · rw [if_neg (by simpa using hbot), Outcome.result_bind_of_ok his,
        feasibility_of_not_writable hwrite]
      rfl

/-- A comparison of linear forms that cannot be decided on the spot. -/
def IsOpenComparison (t : Term) : Prop :=
  ∃ r a b, t = app (.rel r) [a, b] ∧ a.isLinear = true ∧ b.isLinear = true ∧
    (Statement.relate r a b).result = .ok t

/-- **Linear states**: the goal and the comparisons among the hypotheses are between linear forms.  An
equation to be proved is open whichever way round it is written. -/
structure LinearState (s : State) : Prop where
  goal : IsOpenComparison s.goal
  reversed : ∀ a b, s.goal = app (.rel .eq) [a, b] → IsOpenComparison (app (.rel .eq) [b, a])
  hypotheses : ∀ t ∈ linearHypotheses s, IsOpenComparison t ∨ ∃ v, t = declare v

/-- Some name that occurs in what has to be refuted cannot be written. -/
def Unwritable (s : State) : Prop :=
  ∃ ss, (linearScenarios s).result = .ok ss ∧ ∃ hs ∈ ss, Refused hs

theorem sub_ne_zero_of_relate {r : Rel} {a b : Term} (ha : a.isLinear = true)
    (hb : b.isLinear = true) (h : (Statement.relate r a b).result = .ok (app (.rel r) [a, b])) :
    sub a b ≠ zero :=
  Statement.sub_ne_zero_of_decided ha hb ((Statement.relate_eq_self_iff ha hb r).1 h)

variable {verbose : Bool} {s : State}

theorem LinearState.isLinearScenario (h : LinearState s) : IsLinearScenario (linearHypotheses s) := by
  intro t ht
  rcases h.hypotheses t ht with ⟨r, a, b, rfl, ha, hb, hopen⟩ | hdecl
  · have hr : r ≠ .ne := by
      rintro rfl
      cases (mem_linearHypotheses.1 ht).2
    exact .inl ⟨r, a, b, rfl, hr, ha, hb, sub_ne_zero_of_relate ha hb hopen⟩
  · exact .inr hdecl

/-- A statement that is put in the place of the goal to be refuted: it is dropped as false, or it is a
comparison between the variables of the goal that contradicts the goal. -/
structure IsCounterfactual (s : State) (t : Term) : Prop where
  comparison : t = bot ∨ IsLinearComparison t
  contradicts : ∀ q, t.HoldsAt (ofRational q) → ¬ s.goal.HoldsAt (ofRational q)
  free : ∀ v ∈ t.freeVariables, v ∈ s.goal.freeVariables

theorem isCounterfactual_lt {a b c d : Term} (hgoal : s.goal = app (.rel .eq) [a, b])
    (hsides : c = a ∧ d = b ∨ c = b ∧ d = a) (hc : c.isLinear = true) (hd : d.isLinear = true)
    (hopen : (Statement.relate .eq c d).result = .ok (app (.rel .eq) [c, d])) :
    ∃ t, (Statement.relate .lt c d).result = .ok t ∧ IsCounterfactual s t := by
  refine ⟨_, Statement.relate_of_isLinear hc hd .lt, ?_⟩
  rcases Statement.settle_lt_of_decided_eq hc hd
    ((Statement.relate_eq_self_iff hc hd .eq).1 hopen) with hbot | hlt
  · rw [hbot]
    exact ⟨.inl rfl, fun q h => absurd h not_holdsAt_bot, by simp [bot, freeVariables]⟩
  · rw [hlt]
    refine ⟨.inr ⟨.lt, c, d, rfl, by decide, hc, hd, sub_ne_zero_of_relate hc hd hopen⟩, ?_, ?_⟩
    · intro q hholds hequal
      rw [hgoal] at hequal
      have hlt := (holdsAt_rel.1 hholds).2.2
      have heq := (holdsAt_rel.1 hequal).2.2
      rcases hsides with ⟨rfl, rfl⟩ | ⟨rfl, rfl⟩
      · exact (ne_of_lt hlt) heq
      · exact (ne_of_gt hlt) heq
    · intro v hv
      rw [hgoal]
      rcases hsides with ⟨rfl, rfl⟩ | ⟨rfl, rfl⟩ <;>
        simpa [freeVariables, freeVariablesList, or_comm] using hv

theorem exists_counterfactuals (h : LinearState s) :
    ∃ ts : List Term, (linearScenarios s).result = .ok (ts.map (insertTerm (linearHypotheses s))) ∧
      ∀ t ∈ ts, IsCounterfactual s t := by
  obtain ⟨r, a, b, hgoal, ha, hb, hopen⟩ := h.goal
  rw [hgoal] at hopen
  by_cases hr : r = .eq
  · subst hr
    obtain ⟨_, _, _, heq, -, -, hopen'⟩ := h.reversed a b hgoal
    cases heq
    obtain ⟨below, hbelow, hcbelow⟩ := isCounterfactual_lt hgoal (.inl ⟨rfl, rfl⟩) ha hb hopen
    obtain ⟨above, habove, hcabove⟩ := isCounterfactual_lt hgoal (.inr ⟨rfl, rfl⟩) hb ha hopen'
    refine ⟨[below, above], ?_, ?_⟩
    · rw [linearScenarios_eq hgoal, Outcome.result_bind_of_ok hbelow,
        Outcome.result_bind_of_ok habove]
      rfl
    · intro t ht
      rcases List.mem_cons.1 ht with rfl | ht
      · exact hcbelow
      · rwa [List.mem_singleton.1 ht]
  · refine ⟨[app (.rel r.negate) [a, b]], by rw [linearScenarios_rel (.inl hr) hgoal]; rfl, ?_⟩
    intro t ht
    rw [List.mem_singleton.1 ht]
    refine ⟨.inr ⟨_, a, b, rfl, ?_, ha, hb, sub_ne_zero_of_relate ha hb hopen⟩, ?_, ?_⟩
    · cases r <;> simp [Rel.negate] at hr ⊢
    · intro q hholds
      rw [hgoal]
      exact (holdsAt_negate (denotes_of_isLinear ha) (denotes_of_isLinear hb)).1 hholds
    · intro v hv
      rw [hgoal]
      simpa [freeVariables, freeVariablesList] using hv

theorem isLinearScenario_insert (h : LinearState s) {t : Term} (ht : IsLinearComparison t) :
    IsLinearScenario (insertTerm (linearHypotheses s) t) := by
  intro u hu
  rcases mem_insertTerm.1 hu with hu | rfl
  · exact h.isLinearScenario u hu
  · exact .inl ht

theorem refuted_or_refused_insert (h : LinearState s)
    (hvalid : ∀ q, (∀ t ∈ linearHypotheses s, SatisfiedBy q t) → s.goal.HoldsAt (ofRational q))
    {t : Term} (ht : IsCounterfactual s t) :
    Refuted (insertTerm (linearHypotheses s) t) ∨ Refused (insertTerm (linearHypotheses s) t) := by
  rcases ht.comparison with rfl | hcomparison
  · exact .inl (.inl (mem_insertTerm.2 (.inr rfl)))
  · refine refuted_or_refused (isLinearScenario_insert h hcomparison) ?_
    rintro ⟨q, hq⟩
    have hholds : t.HoldsAt (ofRational q) := by
      have hsat := hq t (mem_insertTerm.2 (.inr rfl))
      obtain ⟨r, a, b, rfl, -⟩ := hcomparison
      exact hsat
    exact ht.contradicts q hholds (hvalid q fun u hu => hq u (mem_insertTerm.2 (.inl hu)))

/-- **A valid goal of a linear state is proved**, unless a name cannot be written. -/
theorem result_linearOf_of_valid (h : LinearState s)
    (hvalid : ∀ q, (∀ t ∈ linearHypotheses s, SatisfiedBy q t) → s.goal.HoldsAt (ofRational q)) :
    (¬ Unwritable s → (linearOf verbose s).result = .ok []) ∧
      (Unwritable s → (linearOf verbose s).result = .error .unencodable) := by
  obtain ⟨ts, hss, hts⟩ := exists_counterfactuals h
  have hall : ∀ hs ∈ ts.map (insertTerm (linearHypotheses s)), Refuted hs ∨ Refused hs := by
    intro hs hmem
    obtain ⟨t, ht, rfl⟩ := List.mem_map.1 hmem
    exact refuted_or_refused_insert h hvalid (hts t ht)
  constructor
  · intro hwrite
    refine linearOf_eq_nil_iff.2 ⟨_, hss, fun hs hmem => ?_⟩
    exact (hall hs hmem).resolve_right fun hrefused => hwrite ⟨_, hss, hs, hmem, hrefused⟩
  · rintro ⟨ss', hss', hsome⟩
    rw [hss] at hss'
    cases hss'
    unfold linearOf
    rw [Outcome.result_bind_of_ok hss]
    exact Outcome.result_bind_of_error (decideScenarios_of_refused hall hsome) _

/-- The variables of a term have names that can be written, and the term denotes a number. -/
def NamesFit (t : Term) : Prop :=
  t.Denotes 0 ∧ ∀ v ∈ t.freeVariables, encodable v.name = true

theorem namesFit_app {g : Head} {as : List Term} (hg : ∀ xs, g.AppliesTo xs) :
    NamesFit (app g as) ↔ ∀ a ∈ as, NamesFit a := by
  unfold NamesFit
  rw [denotes_app]
  simp only [hg, and_true, freeVariables, mem_freeVariablesList]
  constructor
  · exact fun h a ha => ⟨h.1 a ha, fun v hv => h.2 v ⟨a, ha, hv⟩⟩
  · exact fun h => ⟨fun a ha => (h a ha).1, fun v ⟨a, ha, hv⟩ => (h a ha).2 v hv⟩

theorem inherited_namesFit : Inherited NamesFit where
  num := fun q => ⟨denotes_num q, by simp [freeVariables]⟩
  add := fun as => namesFit_app fun _ => True.intro
  mul := fun as => namesFit_app fun _ => True.intro
  finite := fun s h => not_denotes_special s h.1

theorem namesFit_of_mem_keys {t : Term} (h : NamesFit t) {k : Term} (hk : k ∈ keys t.coefficients) :
    NamesFit k := by
  unfold coefficients at hk
  split at hk
  · rw [List.mem_singleton.1 hk]
    exact inherited_namesFit.num 0
  · rcases mem_keys_foldl_gatherSummand hk with hnil | ⟨s, hs, rfl⟩
    · cases hnil
    · exact inherited_namesFit.splitCoeff (inherited_namesFit.mem_summands h hs)

theorem not_refused {hs : List Term} (h : IsLinearScenario hs)
    (hnames : ∀ t ∈ hs, ∀ v ∈ t.freeVariables, encodable v.name = true) : ¬ Refused hs := by
  rintro ⟨-, is, his, hwrite⟩
  refine hwrite fun k hk => ?_
  obtain ⟨i, hi, hki⟩ := mem_allUnknowns.1 hk
  obtain ⟨t, ht, hti⟩ := (mem_of_linearInequalities his).1 hi
  rcases h t ht with ⟨r, a, b, rfl, hr, ha, hb, hne⟩ | ⟨v, rfl⟩
  · obtain ⟨i', hi', hvars⟩ := linearInequality_of_isLinear hr ha hb hne
    rw [hi'] at hti
    cases hti
    have hfit : NamesFit (sub a b) := by
      have hside : ∀ v ∈ a.freeVariables ++ b.freeVariables, encodable v.name = true := by
        intro v hv
        refine hnames _ ht v ?_
        simpa [freeVariables, freeVariablesList] using hv
      exact inherited_namesFit.sub
        ⟨denotes_of_isLinear ha, fun v hv => hside v (List.mem_append_left _ hv)⟩
        ⟨denotes_of_isLinear hb, fun v hv => hside v (List.mem_append_right _ hv)⟩
    obtain ⟨hkey, v, rfl⟩ := hvars k hki
    exact (namesFit_of_mem_keys hfit hkey).2 v (by simp [freeVariables])
  · rw [unknowns_of_declaredInequality (by simpa [linearInequality?, declare] using hti)] at hki
    rw [List.mem_singleton.1 hki]
    exact hnames _ ht v (by simp [declare, freeVariables, freeVariablesList])

theorem not_unwritable (h : LinearState s)
    (hnames : ∀ t ∈ s.goal :: s.context.hypotheses, ∀ v ∈ t.freeVariables,
      encodable v.name = true) : ¬ Unwritable s := by
  rintro ⟨ss, hss, hs, hmem, hrefused⟩
  obtain ⟨ts, hss', hts⟩ := exists_counterfactuals h
  rw [hss'] at hss
  cases hss
  obtain ⟨t, ht, rfl⟩ := List.mem_map.1 hmem
  rcases (hts t ht).comparison with rfl | hcomparison
  · exact hrefused.1 (mem_insertTerm.2 (.inr rfl))
  · refine not_refused (isLinearScenario_insert h hcomparison) (fun u hu v hv => ?_) hrefused
    rcases mem_insertTerm.1 hu with hu | rfl
    · exact hnames u (List.mem_cons_of_mem _ (mem_linearHypotheses.1 hu).1) v hv
    · exact hnames s.goal List.mem_cons_self v ((hts u ht).free v hv)

/-- **Linear arithmetic is sound, and complete on linear states.**  A goal that is proved holds wherever
the hypotheses do, as long as its sides denote numbers and, for an equation, strict comparisons of the
sides are decided rightly.  In a linear state, a goal that holds at every rational assignment which
satisfies the hypotheses is proved, unless a name that occurs in it cannot be written. -/
theorem linear_arithmetic_sound_complete (verbose : Bool) (s : State) :
    ((linearOf verbose s).result = .ok [] → ∀ ρ : Valuation,
      (∀ t ∈ s.context.hypotheses, isLinearHypothesis t = true → t.HoldsAt ρ) →
      (∀ r a b, s.goal = app (.rel r) [a, b] → a.Denotes ρ ∧ b.Denotes ρ) →
      (∀ a b, s.goal = app (.rel .eq) [a, b] → LessRight ρ a b ∧ LessRight ρ b a) →
      s.goal.HoldsAt ρ) ∧
    (LinearState s →
      (∀ q, (∀ t ∈ linearHypotheses s, SatisfiedBy q t) → s.goal.HoldsAt (ofRational q)) →
      ((linearOf verbose s).result = .ok [] ↔ ¬ Unwritable s) ∧
      ((linearOf verbose s).result = .error .unencodable ↔ Unwritable s) ∧
      ((∀ t ∈ s.goal :: s.context.hypotheses, ∀ v ∈ t.freeVariables, encodable v.name = true) →
        ¬ Unwritable s)) := by
  constructor
  · intro h ρ hhyps hgoal hless
    have hhyps' : ∀ t ∈ linearHypotheses s, t.HoldsAt ρ := fun t ht =>
      hhyps t (mem_linearHypotheses.1 ht).1 (mem_linearHypotheses.1 ht).2
    by_cases hrel : ∃ r a b, s.goal = app (.rel r) [a, b]
    · obtain ⟨r, a, b, hrel⟩ := hrel
      obtain ⟨ha, hb⟩ := hgoal r a b hrel
      by_cases hr : r = .eq
      · subst hr
        obtain ⟨hbelow, habove⟩ := hless a b hrel
        exact holdsAt_of_linearOf_eq hrel h hhyps' ha hb hbelow habove
      · exact holdsAt_of_linearOf_rel hr hrel h hhyps' ha hb
    · exact (false_of_linearOf (fun r a b heq => hrel ⟨r, a, b, heq⟩) h hhyps').elim
  · intro hstate hvalid
    obtain ⟨hproved, hrefused⟩ := result_linearOf_of_valid hstate hvalid
    refine ⟨⟨fun h hwrite => ?_, hproved⟩, ⟨fun h => ?_, hrefused⟩, not_unwritable hstate⟩
    · rw [hrefused hwrite] at h
      cases h
    · by_contra hwrite
      rw [hproved hwrite] at h
      cases h

/-- Positive numbers with `x < 2 * y` and `y < 3 * z + 1`, and the goal `x < 7 * z + 2`. -/
def linkedBounds : State :=
  let x := var ⟨"x", .posReal⟩
  let y := var ⟨"y", .posReal⟩
  let z := var ⟨"z", .posReal⟩
  ⟨app (.rel .lt) [x, app .add [num 2, app .mul [num 7, z]]],
    [("x", declare ⟨"x", .posReal⟩), ("y", declare ⟨"y", .posReal⟩), ("z", declare ⟨"z", .posReal⟩),
      ("h1", app (.rel .lt) [x, app .mul [num 2, y]]),
      ("h2", app (.rel .lt) [y, app .add [num 1, app .mul [num 3, z]]])]⟩

/-- A real number `Ω` that is at least one, and the goal that it is not negative. -/
def greekBound : State :=
  let x := var ⟨"Ω", .real⟩
  ⟨app (.rel .ge) [x, num 0], [("Ω", declare ⟨"Ω", .real⟩), ("h", app (.rel .ge) [x, num 1])]⟩

theorem greekBound_linearState : LinearState greekBound where
  goal := ⟨.ge, _, _, rfl, rfl, rfl, by decide +kernel⟩
  reversed := nofun
  hypotheses := by
    intro t ht
    have hmem : t = declare ⟨"Ω", .real⟩ ∨ t = app (.rel .ge) [var ⟨"Ω", .real⟩, num 1] := by
      simpa [mem_linearHypotheses, greekBound, Context.hypotheses] using (mem_linearHypotheses.1 ht).1
    rcases hmem with rfl | rfl
    · exact .inr ⟨_, rfl⟩
    · exact .inl ⟨.ge, _, _, rfl, rfl, rfl, by decide +kernel⟩

/-- The linked bounds are proved and hold where all variables are one; the bound on `Ω` is refused. -/
theorem linkedBounds_proved :
    (linearOf false linkedBounds).result = .ok [] ∧ linkedBounds.goal.HoldsAt (fun _ => 1) ∧
      (linearOf false greekBound).result = .error .unencodable := by
  have hproved : (linearOf false linkedBounds).result = .ok [] := by decide +kernel
  refine ⟨hproved, (linear_arithmetic_sound_complete false linkedBounds).1 hproved _ ?_ ?_ ?_, ?_⟩
  · intro t ht _
    simp only [linkedBounds, Context.hypotheses, List.map_cons, List.map_nil, List.mem_cons,
      List.not_mem_nil, or_false] at ht
    rcases ht with rfl | rfl | rfl | rfl | rfl <;>
      norm_num [declare, HoldsAt, Kind.Admits, Kind.Contains, Kind.SignFits, Kind.isNumeric,
        Rel.Compares]
  · rintro r a b hgoal
    cases hgoal
    simp [Kind.isNumeric]
  · rintro a b hgoal
    cases hgoal
  · have hrefused := ((linear_arithmetic_sound_complete false greekBound).2 greekBound_linearState
      fun q hq => ?_).2.1
    · refine hrefused.2 ⟨_, rfl, _, List.mem_singleton_self _, by decide +kernel,
        [⟨[(var ⟨"Ω", .real⟩, 1)], .geq, 1⟩, ⟨[(var ⟨"Ω", .real⟩, 1)], .lt, 0⟩],
        by decide +kernel, fun hwrite => ?_⟩
      exact absurd (hwrite (var ⟨"Ω", .real⟩) (by decide +kernel)) (by decide +kernel)
    · have hone := hq (app (.rel .ge) [var ⟨"Ω", .real⟩, num 1]) (by decide +kernel)
      simp only [SatisfiedBy, HoldsAt, Rel.Compares, val_var, val_num] at hone
      simp only [greekBound, HoldsAt, Rel.Compares, val_var, val_num]
      refine ⟨hone.1, denotes_num 0, ?_⟩
      have hle := hone.2.2
      push_cast at hle ⊢
      linarith

end Tactic
end Majorant
