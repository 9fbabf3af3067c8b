import Majorant.Proofs.Context
import Majorant.Proofs.Growth.Signs
import Majorant.Proofs.Statement.Split
import Majorant.Proofs.Tactic.Linear

/-!
# More hypotheses in linear arithmetic

The verdict of linear arithmetic depends on the hypotheses as a set.  A goal that is proved is proved with
more hypotheses as well, as long as none of them is *at fault*: it cannot be read as an inequality, or a name
in it cannot be written.
-/

namespace Majorant
namespace Tactic
open Term Proof Linear Regime

variable {hs hs' : List Term} {h t : Term} {e : Failure} {verbose : Bool} {s s' : State}

/-- **A statement stops linear arithmetic**: it cannot be read as an inequality, or a name in the inequality
cannot be written. -/
def Fault (t : Term) (e : Failure) : Prop :=
  (linearInequality? t).result = .error e ∨
    e = .unencodable ∧ ∃ i, (linearInequality? t).result = .ok (some i) ∧
      ∃ v ∈ i.unknowns, ¬ encodable v.text = true

def Satisfiable (hs : List Term) : Prop :=
  ∃ x : Term → ℚ, ∀ t ∈ hs, ∀ i, (linearInequality? t).result = .ok (some i) → i.holdsAt x = true

/-- Some point that gives terms of one name one value satisfies the inequalities of all statements. -/
def SatisfiableByName (hs : List Term) : Prop :=
  ∃ y : String → ℚ, ∀ t ∈ hs, ∀ i, (linearInequality? t).result = .ok (some i) →
    i.holdsAt (fun v => y v.text) = true

def Possible (hs : List Term) : Prop :=
  bot ∉ hs ∧ ∃ is values, (linearInequalities hs).result = .ok is ∧
    (feasibility Term.text is).result = .ok (.point values)

theorem exists_linearInequalities_iff :
    (∃ is, (linearInequalities hs).result = .ok is) ↔
      ∀ t ∈ hs, ∃ o, (linearInequality? t).result = .ok o := by
  constructor
  · rintro ⟨is, his⟩ t ht
    obtain ⟨os, hos, -⟩ := Outcome.result_bind_eq_ok.1 his
    obtain ⟨o, -, ho⟩ := Outcome.exists_mem_of_mapM hos ht
    exact ⟨o, ho⟩
  · intro hall
    obtain ⟨os, hos, -⟩ := Outcome.exists_mapM (P := fun _ _ => True) fun t ht => by
      obtain ⟨o, ho⟩ := hall t ht
      exact ⟨o, ho, True.intro⟩
    exact ⟨_, Outcome.result_bind_eq_ok.2 ⟨os, hos, rfl⟩⟩

theorem nodup_of_linearInequalities {is : List (Inequality Term)}
    (his : (linearInequalities hs).result = .ok is) : ∀ i ∈ is, i.unknowns.Nodup := by
  intro i hi
  obtain ⟨t, -, ht⟩ := (mem_of_linearInequalities his).1 hi
  exact nodup_of_linearInequality ht

theorem exists_writable_iff :
    (∃ is, (linearInequalities hs).result = .ok is ∧ Inequality.Writable Term.text is) ↔
      ∀ t ∈ hs, ∀ e, ¬ Fault t e := by
  constructor
  · rintro ⟨is, his, hwrite⟩ t ht e (herror | ⟨-, i, hi, v, hv, hname⟩)
    · obtain ⟨o, ho⟩ := exists_linearInequalities_iff.1 ⟨is, his⟩ t ht
      rw [herror] at ho
      cases ho
    · have hmem : i ∈ is := (mem_of_linearInequalities his).2 ⟨t, ht, hi⟩
      exact hname (hwrite v (mem_allUnknowns.2 ⟨i, hmem, hv⟩))
  · intro hclean
    obtain ⟨is, his⟩ := exists_linearInequalities_iff.2 fun t ht => by
      cases hresult : (linearInequality? t).result with
      | ok o => exact ⟨o, rfl⟩
      | error e => exact absurd (.inl hresult) (hclean t ht e)
    refine ⟨is, his, fun v hv => ?_⟩
    obtain ⟨i, hi, hv⟩ := mem_allUnknowns.1 hv
    obtain ⟨t, ht, hti⟩ := (mem_of_linearInequalities his).1 hi
    by_contra hname
    exact hclean t ht .unencodable (.inr ⟨rfl, i, hti, v, hv, hname⟩)

theorem forall_holdsAt_iff {is : List (Inequality Term)} {x : Term → ℚ}
    (his : (linearInequalities hs).result = .ok is) :
    (∀ t ∈ hs, ∀ i, (linearInequality? t).result = .ok (some i) → i.holdsAt x = true) ↔
      ∀ i ∈ is, i.holdsAt x = true := by
  refine ⟨fun hall i hi => ?_, fun hall t ht i hi => ?_⟩
  · obtain ⟨t, ht, hti⟩ := (mem_of_linearInequalities his).1 hi
    exact hall t ht i hti
  · exact hall i ((mem_of_linearInequalities his).2 ⟨t, ht, hi⟩)

theorem satisfiable_iff {is : List (Inequality Term)} (his : (linearInequalities hs).result = .ok is) :
    Satisfiable hs ↔ Inequality.Feasible is :=
  exists_congr fun _ => forall_holdsAt_iff his

theorem satisfiableByName_iff {is : List (Inequality Term)}
    (his : (linearInequalities hs).result = .ok is) :
    SatisfiableByName hs ↔ Inequality.FeasibleByName Term.text is :=
  exists_congr fun _ => forall_holdsAt_iff his

theorem writable_of_feasibility {is : List (Inequality Term)} {c : Certificate Term}
    (hc : (feasibility Term.text is).result = .ok c) : Inequality.Writable Term.text is := by
  by_contra hwrite
  rw [feasibility_of_not_writable hwrite] at hc
  cases hc

/-- **What is refuted** is false at once, or without fault and without a solution. -/
theorem refuted_iff :
    Refuted hs ↔ bot ∈ hs ∨ (∀ t ∈ hs, ∀ e, ¬ Fault t e) ∧ ¬ Satisfiable hs := by
  refine or_congr_right ⟨?_, ?_⟩
  · rintro ⟨is, ms, his, hms⟩
    refine ⟨exists_writable_iff.1 ⟨is, his, writable_of_feasibility hms⟩, ?_⟩
    rw [satisfiable_iff his]
    have hkeys := nodup_of_linearInequalities his
    exact (refutes_of_feasibility hkeys hms).not_feasible hkeys
  · rintro ⟨hclean, hnone⟩
    obtain ⟨is, his, hwrite⟩ := exists_writable_iff.2 hclean
    rw [satisfiable_iff his] at hnone
    obtain ⟨ms, hms, -⟩ := feasibility_of_not_feasible (nodup_of_linearInequalities his) hwrite hnone
    exact ⟨is, ms, his, by rw [hms]; rfl⟩

/-- **What is possible** is not false at once, without fault, and has a solution over the names. -/
theorem possible_iff :
    Possible hs ↔ bot ∉ hs ∧ (∀ t ∈ hs, ∀ e, ¬ Fault t e) ∧ SatisfiableByName hs := by
  refine and_congr_right fun _ => ⟨?_, ?_⟩
  · rintro ⟨is, values, his, hpoint⟩
    have hwrite := writable_of_feasibility hpoint
    refine ⟨exists_writable_iff.1 ⟨is, his, hwrite⟩, ?_⟩
    rw [satisfiableByName_iff his]
    by_contra hnone
    rcases feasibility_of_not_feasibleByName (nodup_of_linearInequalities his) hwrite hnone with
      ⟨ms, hms, -⟩ | ⟨hfail, -⟩
    · rw [hms] at hpoint
      cases hpoint
    · rw [hfail] at hpoint
      cases hpoint
  · rintro ⟨hclean, hsome⟩
    obtain ⟨is, his, hwrite⟩ := exists_writable_iff.2 hclean
    rw [satisfiableByName_iff his] at hsome
    obtain ⟨values, hpoint, -⟩ := feasibility_of_feasibleByName hwrite hsome
    exact ⟨is, values, his, by rw [hpoint]; rfl⟩

theorem Satisfiable.mono (hsub : hs ⊆ hs') (h : Satisfiable hs') : Satisfiable hs := by
  obtain ⟨x, hx⟩ := h
  exact ⟨x, fun t ht => hx t (hsub ht)⟩

/-- **What is refuted stays so** with more statements, if none of them is at fault. -/
theorem Refuted.mono (hsub : hs ⊆ hs') (h : Refuted hs) (hclean : ∀ t ∈ hs', ∀ e, ¬ Fault t e) :
    Refuted hs' := by
  rw [refuted_iff] at h ⊢
  rcases h with hbot | ⟨-, hnone⟩
  · exact .inl (hsub hbot)
  · exact .inr ⟨hclean, mt (Satisfiable.mono hsub) hnone⟩

theorem refuted_congr (hmem : ∀ t, t ∈ hs ↔ t ∈ hs') : Refuted hs ↔ Refuted hs' := by
  rw [refuted_iff, refuted_iff]
  simp only [Satisfiable, hmem]

theorem possible_congr (hmem : ∀ t, t ∈ hs ↔ t ∈ hs') : Possible hs ↔ Possible hs' := by
  rw [possible_iff, possible_iff]
  simp only [SatisfiableByName, hmem]

theorem mem_foldl_insertTerm {ts : List Term} :
    t ∈ ts.foldl insertTerm hs ↔ t ∈ hs ∨ t ∈ ts := by
  induction ts generalizing hs with
  | nil => simp
  | cons u ts ih => rw [List.foldl_cons, ih, mem_insertTerm, List.mem_cons, or_assoc]

/-- **The goal alone decides what is added to the hypotheses** in each scenario. -/
theorem exists_denials (goal : Term) : ∃ denials : Outcome (List (List Term)),
    ∀ s : State, s.goal = goal → linearScenarios s = do
      let tss ← denials
      return tss.map fun ts => ts.foldl insertTerm (linearHypotheses s) := by
  by_cases heq : ∃ a b, goal = app (.rel .eq) [a, b]
  · obtain ⟨a, b, rfl⟩ := heq
    refine ⟨do
      let below ← Statement.relate .lt a b
      let above ← Statement.relate .lt b a
      return [[below], [above]], fun s hs => ?_⟩
    rw [linearScenarios_eq hs]
    simp
  by_cases hrel : ∃ r as, goal = app (.rel r) as
  · obtain ⟨r, as, rfl⟩ := hrel
    refine ⟨pure [[app (.rel r.negate) as]], fun s hs => ?_⟩
    rw [linearScenarios_rel ?_ hs]
    · rfl
    · by_contra hboth
      rw [not_or, not_not, not_not] at hboth
      obtain ⟨rfl, hlength⟩ := hboth
      obtain ⟨a, b, rfl⟩ := List.length_eq_two.1 hlength
      exact heq ⟨a, b, rfl⟩
  · refine ⟨pure [[]], fun s hs => ?_⟩
    unfold linearScenarios
    split
    · next hgoal => exact absurd ⟨_, _, hs.symm.trans hgoal⟩ heq
    · next hgoal => exact absurd ⟨_, _, hs.symm.trans hgoal⟩ hrel
    · rfl

/-- **A possible scenario is met**, and all before it are refuted. -/
inductive Stops : List (List Term) → Prop
  | here {hs : List Term} {rest : List (List Term)} (hpossible : Possible hs) : Stops (hs :: rest)
  | later {hs : List Term} {rest : List (List Term)} (hrefuted : Refuted hs) (hrest : Stops rest) :
      Stops (hs :: rest)

theorem stops_cons_iff {rest : List (List Term)} :
    Stops (hs :: rest) ↔ Possible hs ∨ Refuted hs ∧ Stops rest := by
  constructor
  · rintro (hpossible | ⟨hrefuted, hrest⟩)
    · exact .inl hpossible
    · exact .inr ⟨hrefuted, hrest⟩
  · rintro (hpossible | ⟨hrefuted, hrest⟩)
    · exact .here hpossible
    · exact .later hrefuted hrest

theorem decideScenarios_stops_iff {ss : List (List Term)} :
    (∃ ds d, (decideScenarios ss).result = .ok ds ∧ ds.find? (·.certificate.isPoint) = some d) ↔
      Stops ss := by
  induction ss with
  | nil =>
    refine ⟨fun ⟨ds, d, hds, hsome⟩ => ?_, nofun⟩
    cases hds
    cases hsome
  | cons hs ss ih =>
    unfold decideScenarios
    rw [stops_cons_iff, ← ih]
    by_cases hbot : bot ∈ hs
    · rw [if_pos (by simpa using hbot), or_iff_right fun hpossible => hpossible.1 hbot]
      exact (and_iff_right (Or.inl hbot)).symm
    rw [if_neg (by simpa using hbot)]
    constructor
    · rintro ⟨ds, d, hds, hsome⟩
      obtain ⟨is, his, hds⟩ := Outcome.result_bind_eq_ok.1 hds
      obtain ⟨c, hc, hds⟩ := Outcome.result_bind_eq_ok.1 hds
      cases c with
      | point values => exact .inl ⟨hbot, is, values, his, hc⟩
      | multipliers ms =>
        obtain ⟨ds', hds', heq⟩ := Outcome.result_bind_eq_ok.1 hds
        cases heq
        rw [List.find?_cons_of_neg (by simp [Certificate.isPoint])] at hsome
        exact .inr ⟨.inr ⟨is, ms, his, hc⟩, ds', d, hds', hsome⟩
    · rintro (⟨-, is, values, his, hc⟩ | ⟨hrefuted, ds, d, hds, hsome⟩)
      · refine ⟨[⟨is, .point values⟩], ⟨is, .point values⟩, ?_, rfl⟩
        rw [Outcome.result_bind_of_ok his, Outcome.result_bind_of_ok hc]
        rfl
      · obtain ⟨is, ms, his, hms⟩ := hrefuted.resolve_left hbot
        refine ⟨⟨is, .multipliers ms⟩ :: ds, d, ?_, ?_⟩
        · rw [Outcome.result_bind_of_ok his, Outcome.result_bind_of_ok hms]
          exact Outcome.result_bind_eq_ok.2 ⟨ds, hds, rfl⟩
        · rw [List.find?_cons_of_neg (by simp [Certificate.isPoint]), hsome]

/-- **The goal is left open exactly when a possible scenario is met.** -/
theorem linearOf_eq_self_iff :
    (linearOf verbose s).result = .ok [s] ↔
      ∃ ss, (linearScenarios s).result = .ok ss ∧ Stops ss := by
  constructor
  · intro h
    obtain ⟨ss, hss, hrest⟩ := Outcome.result_bind_eq_ok.1 h
    obtain ⟨ds, hds, -⟩ := Outcome.result_bind_eq_ok.1 hrest
    refine ⟨ss, hss, decideScenarios_stops_iff.1 ?_⟩
    cases hfind : ds.find? (·.certificate.isPoint) with
    | none =>
      rw [result_linearOf_of_none hss hds hfind] at h
      cases h
    | some d => exact ⟨ds, d, hds, hfind⟩
  · rintro ⟨ss, hss, hstops⟩
    obtain ⟨ds, d, hds, hsome⟩ := decideScenarios_stops_iff.2 hstops
    exact result_linearOf_of_some hss hds hsome

theorem eq_of_linearOf {ss : List State} (h : (linearOf verbose s).result = .ok ss) :
    ss = [] ∨ ss = [s] := by
  obtain ⟨ts, hts, hrest⟩ := Outcome.result_bind_eq_ok.1 h
  obtain ⟨ds, hds, -⟩ := Outcome.result_bind_eq_ok.1 hrest
  cases hfind : ds.find? (·.certificate.isPoint) with
  | none =>
    rw [result_linearOf_of_none hts hds hfind] at h
    cases h
    exact .inl rfl
  | some d =>
    rw [result_linearOf_of_some hts hds hfind] at h
    cases h
    exact .inr rfl

theorem linearOf_eq_error_iff :
    (∃ e, (linearOf verbose s).result = .error e) ↔
      (linearOf verbose s).result ≠ .ok [] ∧ (linearOf verbose s).result ≠ .ok [s] := by
  constructor
  · rintro ⟨e, he⟩
    rw [he]
    exact ⟨nofun, nofun⟩
  · rintro ⟨hproved, hopen⟩
    cases hresult : (linearOf verbose s).result with
    | error e => exact ⟨e, rfl⟩
    | ok ss =>
      rcases eq_of_linearOf hresult with rfl | rfl
      · exact absurd hresult hproved
      · exact absurd hresult hopen

theorem mem_linearHypotheses_congr
    (hmem : ∀ t, t ∈ s.context.hypotheses ↔ t ∈ s'.context.hypotheses) (t : Term) :
    t ∈ linearHypotheses s ↔ t ∈ linearHypotheses s' := by
  rw [mem_linearHypotheses, mem_linearHypotheses, hmem]

theorem scenarios_congr (hmem : ∀ t, t ∈ hs ↔ t ∈ hs') (tss : List (List Term)) :
    ((∀ us ∈ tss.map (List.foldl insertTerm hs), Refuted us) ↔
      ∀ us ∈ tss.map (List.foldl insertTerm hs'), Refuted us) ∧
    (Stops (tss.map (List.foldl insertTerm hs)) ↔ Stops (tss.map (List.foldl insertTerm hs'))) := by
  have hadd : ∀ (ts : List Term) t, t ∈ ts.foldl insertTerm hs ↔ t ∈ ts.foldl insertTerm hs' := by
    intro ts t
    rw [mem_foldl_insertTerm, mem_foldl_insertTerm, hmem]
  induction tss with
  | nil => exact ⟨Iff.rfl, Iff.rfl⟩
  | cons ts tss ih =>
    simp only [List.map_cons, List.forall_mem_cons, stops_cons_iff]
    rw [refuted_congr (hadd ts), possible_congr (hadd ts), ih.1, ih.2]
    exact ⟨Iff.rfl, Iff.rfl⟩

/-- **The verdict depends on the hypotheses as a set.** -/
theorem linearOf_verdict_congr (verbose : Bool) (hgoal : s.goal = s'.goal)
    (hmem : ∀ t, t ∈ s.context.hypotheses ↔ t ∈ s'.context.hypotheses) :
    ((linearOf verbose s).result = .ok [] ↔ (linearOf verbose s').result = .ok []) ∧
    ((linearOf verbose s).result = .ok [s] ↔ (linearOf verbose s').result = .ok [s']) := by
  obtain ⟨denials, hdenials⟩ := exists_denials s'.goal
  have hscenarios := scenarios_congr (mem_linearHypotheses_congr hmem)
  rw [linearOf_eq_nil_iff, linearOf_eq_nil_iff, linearOf_eq_self_iff, linearOf_eq_self_iff,
    hdenials s hgoal, hdenials s' rfl]
  simp only [Outcome.result_bind_eq_ok, Outcome.result_pure, Except.ok.injEq]
  constructor
  · constructor
    · rintro ⟨_, ⟨tss, htss, rfl⟩, hall⟩
      exact ⟨_, ⟨tss, htss, rfl⟩, (hscenarios tss).1.1 hall⟩
    · rintro ⟨_, ⟨tss, htss, rfl⟩, hall⟩
      exact ⟨_, ⟨tss, htss, rfl⟩, (hscenarios tss).1.2 hall⟩
  · constructor
    · rintro ⟨_, ⟨tss, htss, rfl⟩, hstops⟩
      exact ⟨_, ⟨tss, htss, rfl⟩, (hscenarios tss).2.1 hstops⟩
    · rintro ⟨_, ⟨tss, htss, rfl⟩, hstops⟩
      exact ⟨_, ⟨tss, htss, rfl⟩, (hscenarios tss).2.2 hstops⟩

/-- **A hypothesis stops linear arithmetic**: it is looked at, and at fault. -/
def Blocks (h : Term) (e : Failure) : Prop := isLinearHypothesis h = true ∧ Fault h e

/-- **Nothing has to be refuted**: every denial of the goal is false at once. -/
def Vacuous (s : State) : Prop := ∀ ss, (linearScenarios s).result = .ok ss → ∀ hs ∈ ss, bot ∈ hs

def Fails (hs : List Term) (e : Failure) : Prop :=
  (linearInequalities hs).result = .error e ∨
    ∃ is, (linearInequalities hs).result = .ok is ∧ (feasibility Term.text is).result = .error e

theorem Fault.unique {e' : Failure} (h : Fault t e) (h' : Fault t e') : e = e' := by
  rcases h with herror | ⟨rfl, i, hi, -⟩ <;> rcases h' with herror' | ⟨rfl, i', hi', -⟩
  · rw [herror] at herror'
    cases herror'
    rfl
  · rw [herror] at hi'
    cases hi'
  · rw [hi] at herror'
    cases herror'
  · rfl

theorem fails_of_fault (ht : t ∈ hs) (hfault : Fault t e)
    (hothers : ∀ u ∈ hs, u ≠ t → ∀ e', ¬ Fault u e') : Fails hs e := by
  have hcause : ∀ u ∈ hs, ∀ e', Fault u e' → e' = e := by
    intro u hu e' hu'
    by_cases heq : u = t
    · subst heq
      exact hu'.unique hfault
    · exact absurd hu' (hothers u hu heq e')
  rcases hfault with herror | ⟨rfl, i, hi, v, hv, hname⟩
  · left
    unfold linearInequalities
    refine Outcome.result_bind_of_error (Outcome.result_mapM_of_error ht herror ?_) _
    exact fun u hu e' hu' => hcause u hu e' (.inl hu')
  · right
    obtain ⟨is, his⟩ := exists_linearInequalities_iff.2 fun u hu => by
      cases hresult : (linearInequality? u).result with
      | ok o => exact ⟨o, rfl⟩
      | error e' =>
        by_cases heq : u = t
        · rw [heq, hi] at hresult
          cases hresult
        · exact absurd (.inl hresult) (hothers u hu heq e')
    refine ⟨is, his, ?_⟩
    have hmem : i ∈ is := (mem_of_linearInequalities his).2 ⟨t, ht, hi⟩
    rw [feasibility_of_not_writable fun hwrite => hname (hwrite v (mem_allUnknowns.2 ⟨i, hmem, hv⟩))]
    rfl

theorem decideScenarios_of_fails {ss : List (List Term)} (hall : ∀ hs ∈ ss, bot ∈ hs ∨ Fails hs e)
    (hsome : ∃ hs ∈ ss, bot ∉ hs) : (decideScenarios ss).result = .error e := by
  induction ss with
  | nil =>
    obtain ⟨hs, hmem, -⟩ := hsome
    cases hmem
  | cons hs ss ih =>
    obtain ⟨hfirst, hrest⟩ := List.forall_mem_cons.1 hall
    unfold decideScenarios
    by_cases hbot : bot ∈ hs
    · rw [if_pos (by simpa using hbot)]
      refine ih hrest ?_
      obtain ⟨us, hus, hfree⟩ := hsome
      rcases List.mem_cons.1 hus with rfl | hus
      · exact absurd hbot hfree
      · exact ⟨us, hus, hfree⟩
    · rw [if_neg (by simpa using hbot)]
      rcases hfirst.resolve_left hbot with herror | ⟨is, his, herror⟩
      · exact Outcome.result_bind_of_error herror _
      · rw [Outcome.result_bind_of_ok his]
        exact Outcome.result_bind_of_error herror _

section Added

variable (hadded : ∀ t, t ∈ hs' ↔ t ∈ hs ∨ t = h ∧ isLinearHypothesis h = true)

include hadded

theorem bot_mem_added : bot ∈ hs' ↔ bot ∈ hs := by
  rw [hadded]
  refine or_iff_left ?_
  rintro ⟨rfl, hlinear⟩
  cases hlinear

/-- **A refuted scenario stays so** with another hypothesis exactly if that does not stop the search. -/
theorem refuted_added_iff (hrefuted : Refuted hs) :
    Refuted hs' ↔ bot ∈ hs ∨ ∀ e, ¬ Blocks h e := by
  constructor
  · intro hrefuted'
    rw [refuted_iff, bot_mem_added hadded] at hrefuted'
    refine hrefuted'.imp_right fun ⟨hclean, _⟩ e hblocks => ?_
    exact hclean h ((hadded h).2 (.inr ⟨rfl, hblocks.1⟩)) e hblocks.2
  · rintro (hbot | hfree)
    · exact .inl ((bot_mem_added hadded).2 hbot)
    · by_cases hbot : bot ∈ hs
      · exact .inl ((bot_mem_added hadded).2 hbot)
      have hclean := ((refuted_iff.1 hrefuted).resolve_left hbot).1
      refine hrefuted.mono (fun t ht => (hadded t).2 (.inl ht)) fun t ht e hfault => ?_
      rcases (hadded t).1 ht with ht | ⟨rfl, hlinear⟩
      · exact hclean t ht e hfault
      · exact hfree e ⟨hlinear, hfault⟩

theorem fails_added (hrefuted : Refuted hs) (hbot : bot ∉ hs) (hblocks : Blocks h e) : Fails hs' e := by
  have hclean := ((refuted_iff.1 hrefuted).resolve_left hbot).1
  refine fails_of_fault ((hadded h).2 (.inr ⟨rfl, hblocks.1⟩)) hblocks.2 fun u hu hne => ?_
  rcases (hadded u).1 hu with hu | ⟨heq, -⟩
  · exact hclean u hu
  · exact absurd heq hne

end Added

theorem mem_linearHypotheses_put {name : String} (hfree : s.context.contains name = false) (t : Term) :
    t ∈ linearHypotheses (s.put name h) ↔
      t ∈ linearHypotheses s ∨ t = h ∧ isLinearHypothesis h = true := by
  have hput : (s.put name h).context = s.context ++ [(name, h)] := Context.put_of_not_contains hfree
  rw [mem_linearHypotheses, mem_linearHypotheses, hput, Context.hypotheses, List.map_append,
    List.mem_append, or_and_right]
  refine or_congr_right ?_
  simp only [List.map_cons, List.map_nil, List.mem_singleton]
  exact and_congr_right fun heq => by rw [heq]

variable {name : String}

theorem mem_foldl_put (hfree : s.context.contains name = false) (ts : List Term) (t : Term) :
    t ∈ ts.foldl insertTerm (linearHypotheses (s.put name h)) ↔
      t ∈ ts.foldl insertTerm (linearHypotheses s) ∨ t = h ∧ isLinearHypothesis h = true := by
  rw [mem_foldl_insertTerm, mem_foldl_insertTerm, mem_linearHypotheses_put hfree, or_right_comm]

theorem exists_scenarios_put (h : Term) (name : String) (hclosed : (linearOf verbose s).result = .ok []) :
    ∃ tss : List (List Term), (Vacuous s ↔ ∀ ts ∈ tss, bot ∈ ts.foldl insertTerm (linearHypotheses s)) ∧
      (∀ ts ∈ tss, Refuted (ts.foldl insertTerm (linearHypotheses s))) ∧
      (linearScenarios (s.put name h)).result =
        .ok (tss.map fun ts => ts.foldl insertTerm (linearHypotheses (s.put name h))) := by
  obtain ⟨denials, hdenials⟩ := exists_denials s.goal
  obtain ⟨ss, hss, hrefuted⟩ := linearOf_eq_nil_iff.1 hclosed
  have hdenied := hss
  rw [hdenials s rfl] at hdenied
  obtain ⟨tss, htss, heq⟩ := Outcome.result_bind_eq_ok.1 hdenied
  cases heq
  rw [List.forall_mem_map] at hrefuted
  refine ⟨tss, ?_, hrefuted, ?_⟩
  · unfold Vacuous
    rw [hss]
    simp
  · rw [hdenials (s.put name h) rfl]
    exact Outcome.result_bind_eq_ok.2 ⟨tss, htss, rfl⟩

/-- **A goal that is proved is proved with another hypothesis**, unless that stops linear arithmetic. -/
theorem linearOf_put_eq_nil_iff (hclosed : (linearOf verbose s).result = .ok [])
    (hfree : s.context.contains name = false) :
    (linearOf verbose (s.put name h)).result = .ok [] ↔ Vacuous s ∨ ∀ e, ¬ Blocks h e := by
  obtain ⟨tss, hvacuous, hrefuted, hput⟩ := exists_scenarios_put h name hclosed
  have hscenario : ∀ ts ∈ tss, Refuted (ts.foldl insertTerm (linearHypotheses (s.put name h))) ↔
      bot ∈ ts.foldl insertTerm (linearHypotheses s) ∨ ∀ e, ¬ Blocks h e := fun ts hts =>
    refuted_added_iff (mem_foldl_put hfree ts) (hrefuted ts hts)
  rw [linearOf_eq_nil_iff, hput, hvacuous]
  simp only [Except.ok.injEq, exists_eq_left', List.forall_mem_map]
  constructor
  · intro hall
    by_cases hblocks : ∀ e, ¬ Blocks h e
    · exact .inr hblocks
    · exact .inl fun ts hts => ((hscenario ts hts).1 (hall ts hts)).resolve_right hblocks
  · exact fun hone ts hts => (hscenario ts hts).2 (hone.imp_left fun hbot => hbot ts hts)

/-- **A hypothesis that stops linear arithmetic does so with its own failure.** -/
theorem linearOf_put_eq_error (hclosed : (linearOf verbose s).result = .ok [])
    (hfree : s.context.contains name = false) (hopen : ¬ Vacuous s) (hblocks : Blocks h e) :
    (linearOf verbose (s.put name h)).result = .error e := by
  obtain ⟨tss, hvacuous, hrefuted, hput⟩ := exists_scenarios_put h name hclosed
  have hfails : ∀ us ∈ tss.map fun ts => ts.foldl insertTerm (linearHypotheses (s.put name h)),
      bot ∈ us ∨ Fails us e := by
    refine List.forall_mem_map.2 fun ts hts => ?_
    rw [bot_mem_added (mem_foldl_put hfree ts)]
    by_cases hbot : bot ∈ ts.foldl insertTerm (linearHypotheses s)
    · exact .inl hbot
    · exact .inr (fails_added (mem_foldl_put hfree ts) (hrefuted ts hts) hbot hblocks)
  rw [hvacuous] at hopen
  push Not at hopen
  obtain ⟨ts, hts, hbot⟩ := hopen
  unfold linearOf
  rw [Outcome.result_bind_of_ok hput]
  refine Outcome.result_bind_of_error (decideScenarios_of_fails hfails ?_) _
  exact ⟨_, List.mem_map.2 ⟨ts, hts, rfl⟩, by rwa [bot_mem_added (mem_foldl_put hfree ts)]⟩

/-- **A quantity as it stands in a statement**, without infinities and without formal differences that
nothing can be asked about. -/
structure PlainQuantity (t : Term) : Prop where
  isQuantity : t.isQuantity = true
  isOrder : t.isOrder = false
  evades : t.evades = false
  written : ∀ l, ¬ Occurs (lit l) t
  special : ∀ s, ¬ Occurs (special s) t

theorem evadesList_eq_false_iff {as : List Term} :
    evadesList as = false ↔ ∀ a ∈ as, a.evades = false :=
  ⟨World.evades_of_mem, Magnitude.Composed.evadesList_eq_false⟩

theorem inherited_plain : Inherited fun t =>
    t.evades = false ∧ (∀ l, ¬ Occurs (lit l) t) ∧ ∀ s, ¬ Occurs (Term.special s) t := by
  have hcombination : ∀ (g : Head) (as : List Term), g = .add ∨ g = .mul →
      (((app g as).evades = false ∧ (∀ l, ¬ Occurs (lit l) (app g as)) ∧
          ∀ s, ¬ Occurs (Term.special s) (app g as)) ↔
        ∀ a ∈ as, a.evades = false ∧ (∀ l, ¬ Occurs (lit l) a) ∧ ∀ s, ¬ Occurs (Term.special s) a) := by
    intro g as hg
    have hevades : (app g as).evades = evadesList as := by rcases hg with rfl | rfl <;> simp [evades]
    rw [hevades, evadesList_eq_false_iff, forall_not_occurs_app_iff (u := lit) nofun,
      forall_not_occurs_app_iff (u := Term.special) nofun, ← forall₂_and, ← forall₂_and]
  exact {
    num := fun q => ⟨rfl, ⟨nofun, nofun⟩⟩
    add := fun as => hcombination .add as (.inl rfl)
    mul := fun as => hcombination .mul as (.inr rfl)
    finite := fun s hs => hs.2.2 s .refl }

theorem PlainQuantity.plain (ht : PlainQuantity t) :
    t.evades = false ∧ (∀ l, ¬ Occurs (lit l) t) ∧ ∀ s, ¬ Occurs (Term.special s) t :=
  ⟨ht.evades, ht.written, ht.special⟩

theorem isWritten_of_plain (ht : ∀ l, ¬ Occurs (lit l) t) : Operation.isWritten t = false := by
  cases t with
  | lit l => exact absurd .refl (ht l)
  | _ => rfl

variable {a b : Term} {r : Rel}

theorem sub_of_plain (ha : PlainQuantity a) (hb : PlainQuantity b) :
    Operation.sub a b = pure (Term.sub a b) ∧ (Term.sub a b).evades = false := by
  have hwritten : ∀ {t : Term}, (∀ l, ¬ Occurs (lit l) t) → Operation.written? t = none := fun ht =>
    World.written?_of_not_isWritten (isWritten_of_plain ht)
  have hneg := inherited_plain.neg hb.plain
  have hevades : evadesList [a, b.neg] = false :=
    evadesList_eq_false_iff.2 (List.forall_mem_cons.2 ⟨ha.evades, List.forall_mem_singleton.2 hneg.1⟩)
  refine ⟨?_, (inherited_plain.sub ha.plain hb.plain).1⟩
  have hopposite : Operation.neg b = pure b.neg := by
    unfold Operation.neg
    rw [hwritten hb.written, hb.isOrder, hb.isQuantity, hb.evades]
    rfl
  have hsum : Evaluation.addAll [a, b.neg] = pure (Term.sub a b) := by
    have hmap : [a, b.neg].mapM ofLiteral = (pure [a, b.neg] : Outcome (List Term)) := by
      rw [List.mapM_cons, List.mapM_cons,
        World.ofLiteral_of_not_isWritten (isWritten_of_plain ha.written),
        World.ofLiteral_of_not_isWritten (isWritten_of_plain hneg.2.1)]
      rfl
    unfold Evaluation.addAll
    rw [hmap, pure_bind, hevades]
    rfl
  unfold Operation.sub
  rw [hwritten ha.written, hwritten hb.written]
  simp only [Operation.orderOnRight, ha.isOrder, hb.isOrder, ha.isQuantity, hb.isQuantity]
  exact (congrArg (· >>= fun b => Evaluation.addAll [a, b]) hopposite).trans ((pure_bind _ _).trans hsum)

/-- **Comparisons of plain quantities are read**, so that only a name can be at fault. -/
theorem eq_of_fault_of_plain (ha : PlainQuantity a) (hb : PlainQuantity b)
    (hfault : Fault (app (.rel r) [a, b]) e) : e = .unencodable := by
  obtain ⟨hsub, hevades⟩ := sub_of_plain ha hb
  rcases hfault with herror | ⟨rfl, -⟩
  · simp only [linearInequality?] at herror
    rw [hsub, pure_bind, hevades] at herror
    cases herror
  · rfl

/-- **Comparisons with a statement on one side cannot be read.** -/
theorem fault_of_not_isQuantity (ha : Operation.isWritten a = false ∧ a.isOrder = false)
    (hb : Operation.isWritten b = false ∧ b.isOrder = false)
    (hstatement : (a.isQuantity && b.isQuantity) = false) : Fault (app (.rel r) [a, b]) .mistyped := by
  left
  have hsub : Operation.sub a b = .fail .mistyped := by
    unfold Operation.sub
    rw [World.written?_of_not_isWritten ha.1, World.written?_of_not_isWritten hb.1]
    simp only [Operation.orderOnRight, ha.2, hb.2, Option.isSome_none, Bool.or_false, hstatement]
    rfl
  simp only [linearInequality?]
  exact Outcome.result_bind_of_error (by rw [hsub]; rfl) _

theorem cases_of_fault (hfault : Fault t e) :
    (∃ as, t = app .declared as ∧ e = .unencodable) ∨ ∃ r a b, t = app (.rel r) [a, b] := by
  by_cases hrel : ∃ r a b, t = app (.rel r) [a, b]
  · exact .inr hrel
  by_cases hdeclared : ∃ as, t = app .declared as
  · obtain ⟨as, rfl⟩ := hdeclared
    refine .inl ⟨as, rfl, ?_⟩
    rcases hfault with herror | ⟨rfl, -⟩
    · unfold linearInequality? at herror
      split at herror
      · cases herror
      · next heq => cases heq
      · cases herror
    · rfl
  · have hnone : linearInequality? t = pure none := by
      unfold linearInequality?
      split
      · exact absurd ⟨_, rfl⟩ hdeclared
      · exact absurd ⟨_, _, _, rfl⟩ hrel
      · rfl
    rw [Fault, hnone] at hfault
    rcases hfault with herror | ⟨-, i, hi, -⟩
    · cases herror
    · cases hi

theorem cases_of_blocks (hblocks : Blocks h e) :
    (∃ as, h = app .declared as ∧ e = .unencodable) ∨ ∃ r a b, r ≠ .ne ∧ h = app (.rel r) [a, b] := by
  refine (cases_of_fault hblocks.2).imp_right ?_
  rintro ⟨r, a, b, rfl⟩
  refine ⟨r, a, b, ?_, rfl⟩
  rintro rfl
  cases hblocks.1

theorem isLinearHypothesis_rel (hr : r ≠ .ne) {as : List Term} :
    isLinearHypothesis (app (.rel r) as) = true := by
  rw [isLinearHypothesis]
  exact bne_iff_ne.2 hr

/-- **More hypotheses in linear arithmetic.**  A goal that is proved is proved with another hypothesis, unless
that stops linear arithmetic; then its own failure is the result.  Comparisons of statements with anything
but variables stop it, comparisons of plain quantities and declarations only by a name that cannot be
written, and statements of other forms never do.  The verdict depends neither on the order of the hypotheses
nor on their names and repetitions. -/
theorem linear_hypotheses_added (verbose : Bool) (s : State) :
    ((linearOf verbose s).result = .ok [] → ∀ name h, s.context.contains name = false →
      ((linearOf verbose (s.put name h)).result = .ok [] ↔ Vacuous s ∨ ∀ e, ¬ Blocks h e) ∧
      ∀ e, (linearOf verbose (s.put name h)).result = .error e ↔ ¬ Vacuous s ∧ Blocks h e) ∧
    (∀ h e, Blocks h e → (∃ as, h = app .declared as ∧ e = .unencodable) ∨
      ∃ r a b, r ≠ .ne ∧ h = app (.rel r) [a, b]) ∧
    (∀ r a b, r ≠ .ne →
      (PlainQuantity a → PlainQuantity b → ∀ e, Blocks (app (.rel r) [a, b]) e → e = .unencodable) ∧
      (Operation.isWritten a = false ∧ a.isOrder = false →
        Operation.isWritten b = false ∧ b.isOrder = false →
        (a.isQuantity && b.isQuantity) = false → Blocks (app (.rel r) [a, b]) .mistyped)) ∧
    ∀ s', s.goal = s'.goal → (∀ t, t ∈ s.context.hypotheses ↔ t ∈ s'.context.hypotheses) →
      ((linearOf verbose s).result = .ok [] ↔ (linearOf verbose s').result = .ok []) ∧
      ((linearOf verbose s).result = .ok [s] ↔ (linearOf verbose s').result = .ok [s']) ∧
      ((∃ e, (linearOf verbose s).result = .error e) ↔
        ∃ e, (linearOf verbose s').result = .error e) := by
  refine ⟨fun hclosed name h hfree => ?_, fun h e => cases_of_blocks, fun r a b hr => ⟨?_, ?_⟩,
    fun s' hgoal hmem => ?_⟩
  · have hproved := linearOf_put_eq_nil_iff (h := h) hclosed hfree
    refine ⟨hproved, fun e => ⟨fun herror => ?_, fun hboth => ?_⟩⟩
    · -- a failure is that of the hypothesis, as there is no other outcome
      have hnot : ¬ (Vacuous s ∨ ∀ e, ¬ Blocks h e) := by
        rw [← hproved, herror]
        nofun
      push Not at hnot
      obtain ⟨hopen, e', hblocks⟩ := hnot
      rw [linearOf_put_eq_error hclosed hfree hopen hblocks] at herror
      cases herror
      exact ⟨hopen, hblocks⟩
    · exact linearOf_put_eq_error hclosed hfree hboth.1 hboth.2
  · exact fun ha hb e hblocks => eq_of_fault_of_plain ha hb hblocks.2
  · exact fun ha hb hstatement => ⟨isLinearHypothesis_rel hr, fault_of_not_isQuantity ha hb hstatement⟩
  · obtain ⟨hproved, hopen⟩ := linearOf_verdict_congr verbose hgoal hmem
    refine ⟨hproved, hopen, ?_⟩
    rw [linearOf_eq_error_iff, linearOf_eq_error_iff, ne_eq, ne_eq, ne_eq, ne_eq, hproved, hopen]

/-- A real number that is at least one is not negative, among propositions. -/
def boundAmongPropositions : State :=
  let x := var ⟨"x", .real⟩
  ⟨app (.rel .ge) [x, num 0],
    [("x", declare ⟨"x", .real⟩), ("P", declare ⟨"P", .prop⟩), ("Q", declare ⟨"Q", .prop⟩),
      ("R", declare ⟨"R", .prop⟩), ("h", app (.rel .ge) [x, num 1])]⟩

/-- The bound is proved, and also with an equation of two propositions among the hypotheses; with the
equation of a proposition and a conjunction it fails.  With the hypotheses in another order, one of them
twice and under another name, it is proved. -/
theorem boundAmongPropositions_added :
    let p := var ⟨"P", .prop⟩
    let q := var ⟨"Q", .prop⟩
    let r := var ⟨"R", .prop⟩
    let shuffled : State := ⟨boundAmongPropositions.goal,
      ("again", app (.rel .ge) [var ⟨"x", .real⟩, num 1]) :: boundAmongPropositions.context.reverse⟩
    (linearOf false boundAmongPropositions).result = .ok [] ∧
      (linearOf false (boundAmongPropositions.put "k" (app (.rel .eq) [r, p]))).result = .ok [] ∧
      (linearOf false (boundAmongPropositions.put "k" (app (.rel .eq) [r, app .and [p, q]]))).result =
        .error .mistyped ∧
      (linearOf false shuffled).result = .ok [] := by
  intro p q r shuffled
  have hclosed : (linearOf false boundAmongPropositions).result = .ok [] := by decide +kernel
  obtain ⟨hadded, -, hsides, hverdict⟩ := linear_hypotheses_added false boundAmongPropositions
  have hopen : ¬ Vacuous boundAmongPropositions := by
    intro hvacuous
    exact absurd (hvacuous _ rfl _ List.mem_cons_self) (by decide +kernel)
  have hequation : ∀ e, ¬ Blocks (app (.rel .eq) [r, p]) e := by
    have hnone : (linearInequality? (app (.rel .eq) [r, p])).result = .ok none := by decide +kernel
    rintro e ⟨-, herror | ⟨-, i, hi, -⟩⟩
    · rw [hnone] at herror
      cases herror
    · rw [hnone] at hi
      cases hi
  refine ⟨hclosed, ?_, ?_, ?_⟩
  · exact (hadded hclosed "k" _ (by decide +kernel)).1.2 (.inr hequation)
  · refine ((hadded hclosed "k" _ (by decide +kernel)).2 .mistyped).2 ⟨hopen, ?_⟩
    exact (hsides .eq r (app .and [p, q]) nofun).2 ⟨rfl, rfl⟩ ⟨rfl, rfl⟩ rfl
  · refine (hverdict shuffled rfl fun t => ?_).1.1 hclosed
    simp only [shuffled, boundAmongPropositions, Context.hypotheses, List.map_cons, List.map_nil,
      List.reverse_cons, List.reverse_nil, List.nil_append, List.cons_append, List.mem_cons]
    tauto

end Tactic
end Majorant
