import Majorant.Proofs.Context
import Majorant.Proofs.Magnitude.Positive
import Majorant.Proofs.Repetition
import Majorant.Proofs.Tactic.Equations

/-!
# Passing to orders of magnitude

A comparison of positive real expressions can be passed to orders of magnitude in advance, or left
to linear arithmetic with logarithms.
-/

namespace Majorant

def Rel.weaken : Rel → Rel
  | lt => le
  | gt => ge
  | r => r

/-- **Two comparisons are the same** up to the order of their sides. -/
def Term.SameComparison (t u : Term) : Prop :=
  t = u ∨ ∃ r a b, t = app (.rel r) [a, b] ∧ u = app (.rel r.flip) [b, a]

namespace Tactic
open Term Proof Linear Magnitude Outcome

section Feasibility

variable {is js : List LogInequality}

/-- A system that has a point, but none that gives one value to each name, is not decided. -/
theorem feasibility_eq_fail (hkeys : ∀ i ∈ is, i.unknowns.Nodup)
    (hwrite : Inequality.Writable Term.text is) (hfeasible : Inequality.Feasible is)
    (hnamed : ¬ Inequality.FeasibleByName Term.text is) :
    feasibility Term.text is = .fail .neitherFeasible := by
  rcases feasibility_of_not_feasibleByName hkeys hwrite hnamed with ⟨ms, -, hrefutes⟩ | ⟨hfail, -⟩
  · exact absurd hfeasible (hrefutes.not_feasible hkeys)
  · exact hfail

/-- **The decision looks at the set of inequalities only.** -/
theorem feasibility_alike (hkeys : ∀ i ∈ is, i.unknowns.Nodup) (hsame : ∀ i, i ∈ js ↔ i ∈ is) :
    Alike (fun c d => c.isPoint = d.isPoint) (feasibility Term.text is) (feasibility Term.text js) := by
  have hkeys' : ∀ i ∈ js, i.unknowns.Nodup := fun i hi => hkeys i ((hsame i).1 hi)
  have hunknowns : ∀ k, k ∈ Inequality.allUnknowns js ↔ k ∈ Inequality.allUnknowns is := by
    intro k
    simp only [mem_allUnknowns, hsame]
  have hwrite : Inequality.Writable Term.text js ↔ Inequality.Writable Term.text is :=
    forall_congr' fun k => imp_congr_left (hunknowns k)
  have hnamed : Inequality.FeasibleByName Term.text js ↔ Inequality.FeasibleByName Term.text is :=
    exists_congr fun y => forall_congr' fun i => imp_congr_left (hsame i)
  have hpoint : Inequality.Feasible js ↔ Inequality.Feasible is :=
    exists_congr fun x => forall_congr' fun i => imp_congr_left (hsame i)
  by_cases hw : Inequality.Writable Term.text is
  · have hw' := hwrite.2 hw
    by_cases hn : Inequality.FeasibleByName Term.text is
    · obtain ⟨v, hv, -⟩ := feasibility_of_feasibleByName hw hn
      obtain ⟨v', hv', -⟩ := feasibility_of_feasibleByName hw' (hnamed.2 hn)
      rw [hv, hv']
      exact alike_pure rfl
    · by_cases hf : Inequality.Feasible is
      · rw [feasibility_eq_fail hkeys hw hf hn,
          feasibility_eq_fail hkeys' hw' (hpoint.2 hf) (mt hnamed.1 hn)]
        exact .error _ rfl rfl
      · obtain ⟨ms, hms, -⟩ := feasibility_of_not_feasible hkeys hw hf
        obtain ⟨ms', hms', -⟩ := feasibility_of_not_feasible hkeys' hw' (mt hpoint.1 hf)
        rw [hms, hms']
        exact alike_pure rfl
  · rw [feasibility_of_not_writable hw, feasibility_of_not_writable (mt hwrite.1 hw)]
    exact .error _ rfl rfl

theorem decideChoices_alike {cs ds : List (List LogInequality)}
    (h : List.Forall₂ (fun is js => (∀ i ∈ is, i.unknowns.Nodup) ∧ ∀ i, i ∈ js ↔ i ∈ is) cs ds) :
    Alike (fun xs ys => (xs.find? (·.certificate.isPoint)).isNone =
      (ys.find? (·.certificate.isPoint)).isNone) (decideChoices cs) (decideChoices ds) := by
  induction h with
  | nil => exact alike_pure rfl
  | cons hhead _ ih =>
    unfold decideChoices
    refine (feasibility_alike hhead.1 hhead.2).bind fun c d hcd => ?_
    rw [← hcd]
    cases hpoint : c.isPoint with
    | true =>
      rw [if_pos rfl, if_pos rfl]
      exact alike_pure (by simp [hpoint, ← hcd])
    | false =>
      rw [if_neg Bool.false_ne_true, if_neg Bool.false_ne_true]
      exact ih.bind fun xs ys hxy => alike_pure (by simpa [hpoint, ← hcd] using hxy)

end Feasibility

/-- **Inequalities that hold come again** in another list of disjunctions. -/
def RepeatsFacts (xs ys : List (List LogInequality)) : Prop :=
  ∃ (as bs : List LogInequality) (cs : List (List LogInequality)),
    xs = as.map (fun i => [i]) ++ cs ∧ ys = (as ++ bs).map (fun i => [i]) ++ cs ∧ bs ⊆ as

theorem choices_facts {α : Type} (as : List α) (cs : List (List α)) :
    choices (as.map (fun i => [i]) ++ cs) = (choices cs).map (as ++ ·) := by
  induction as with
  | nil => simp
  | cons a as ih =>
    rw [List.map_cons, List.cons_append, choices, ih]
    simp

theorem RepeatsFacts.choices {xs ys : List (List LogInequality)} (h : RepeatsFacts xs ys)
    (hkeys : ∀ l ∈ xs, ∀ i ∈ l, i.unknowns.Nodup) :
    List.Forall₂ (fun is js => (∀ i ∈ is, i.unknowns.Nodup) ∧ ∀ i, i ∈ js ↔ i ∈ is)
      (choices xs) (choices ys) := by
  have hchoice : ∀ is ∈ Tactic.choices xs, ∀ i ∈ is, i.unknowns.Nodup := by
    intro is his i hi
    obtain ⟨l, hl, hil⟩ := exists_of_mem_choice his i hi
    exact hkeys l hl i hil
  obtain ⟨as, bs, cs, rfl, rfl, hsub⟩ := h
  rw [choices_facts] at hchoice ⊢
  rw [choices_facts, List.forall₂_map_left_iff, List.forall₂_map_right_iff, List.forall₂_same]
  intro c hc
  refine ⟨hchoice _ (List.mem_map_of_mem hc), fun i => ?_⟩
  simp only [List.mem_append]
  constructor
  · rintro ((hi | hi) | hi)
    · exact .inl hi
    · exact .inl (hsub hi)
    · exact .inr hi
  · exact Or.imp_left .inl

theorem repeatsFacts_append {ds es : List (List LogInequality)} (h : Repeats ds es)
    (hfacts : ∀ d ∈ ds, ∃ i, d = [i]) (zs : List (List LogInequality)) :
    RepeatsFacts (ds ++ zs) (es ++ zs) := by
  have hmap : ∀ {ls : List (List LogInequality)}, (∀ l ∈ ls, ∃ i, l = [i]) →
      ∃ is : List LogInequality, ls = is.map fun i => [i] := by
    intro ls hls
    refine ⟨ls.flatten, ?_⟩
    induction ls with
    | nil => rfl
    | cons l ls ih =>
      obtain ⟨⟨i, rfl⟩, hrest⟩ := List.forall_mem_cons.1 hls
      rw [List.flatten_cons, List.map_append, ← ih hrest]
      rfl
  obtain ⟨as, bs, cs, rfl, rfl, hsub⟩ := h
  obtain ⟨ps, rfl⟩ := hmap fun d hd => hfacts d (List.mem_append_left cs hd)
  obtain ⟨qs, rfl⟩ := hmap fun d hd => hfacts d (List.mem_append_left cs (hsub hd))
  refine ⟨ps, qs, cs ++ zs, by simp, by simp, fun i hi => ?_⟩
  obtain ⟨j, hj, heq⟩ := List.mem_map.1 (hsub (List.mem_map_of_mem hi))
  cases heq
  exact hj

section Readings

variable {s : State} {c : Context} {t u : Term} {name : String} {verbose splitExtrema : Bool}

theorem logHypotheses_cases (goal : Term) :
    (∀ c, logHypotheses ⟨goal, c⟩ = pure (considered c)) ∨
      ∃ g, ∀ c, logHypotheses ⟨goal, c⟩ = pure (insertTerm (considered c) g) := by
  by_cases hrel : goal.isRel = true
  · unfold isRel asRel? at hrel
    split at hrel
    · next r a b => exact .inr ⟨app (.rel r.negate) [a, b], fun c => rfl⟩
    · cases hrel
  · refine .inl fun c => ?_
    unfold logHypotheses
    rw [if_neg hrel]
    rfl

theorem insertTerm_of_mem {ts : List Term} (h : t ∈ ts) : insertTerm ts t = ts :=
  if_pos (List.contains_iff_mem.2 h)

theorem insertTerm_of_not_mem {ts : List Term} (h : t ∉ ts) : insertTerm ts t = ts ++ [t] :=
  if_neg (mt List.contains_iff_mem.1 h)

theorem considered_append (ht : t.isRel = true) :
    considered (c ++ [(name, t)]) = insertTerm (considered c) t := by
  have hadd : considered (c ++ [(name, t)]) = considered c ++
      ([t].removeAll (c.hypotheses.filter fun h => h.isRel || isDeclaration h)).eraseDups := by
    simp [considered, Context.hypotheses, List.filter_append, List.eraseDups_append, ht]
  have hiff : t ∈ considered c ↔ t ∈ c.hypotheses := by simp [considered, ht]
  rw [hadd]
  by_cases hmem : t ∈ c.hypotheses
  · rw [insertTerm_of_mem (hiff.2 hmem)]
    simp [List.removeAll, hmem, ht]
  · rw [insertTerm_of_not_mem (mt hiff.1 hmem)]
    simp [List.removeAll, hmem, List.eraseDups_cons]

theorem exists_insertTerm_insertTerm (ts : List Term) (t u : Term) :
    ∃ as bs cs, insertTerm ts u = as ++ cs ∧ insertTerm (insertTerm ts t) u = as ++ bs ++ cs ∧
      ts ⊆ as ∧ bs ⊆ [t] := by
  by_cases ht : t ∈ ts
  · rw [insertTerm_of_mem ht]
    refine ⟨insertTerm ts u, [], [], by simp, by simp, fun v hv => ?_, List.nil_subset _⟩
    exact mem_insertTerm.2 (.inl hv)
  rw [insertTerm_of_not_mem ht]
  by_cases hu : u ∈ ts
  · rw [insertTerm_of_mem hu, insertTerm_of_mem (List.mem_append_left [t] hu)]
    exact ⟨ts, [t], [], by simp, by simp, List.Subset.refl ts, List.Subset.refl [t]⟩
  rw [insertTerm_of_not_mem hu]
  by_cases heq : u = t
  · rw [heq, insertTerm_of_mem (by simp)]
    exact ⟨ts ++ [t], [], [], by simp, by simp, List.subset_append_left ts [t], List.nil_subset _⟩
  · rw [insertTerm_of_not_mem (by simp [hu, heq])]
    exact ⟨ts, [t], [u], rfl, rfl, List.Subset.refl ts, List.Subset.refl [t]⟩

/-- **What is looked at when a comparison is added**: it comes behind the other hypotheses, if it is new,
and before the negation of the goal. -/
theorem exists_logHypotheses_append (goal : Term) (c : Context) (name : String) (ht : t.isRel = true) :
    ∃ as bs cs, logHypotheses ⟨goal, c⟩ = pure (as ++ cs) ∧
      logHypotheses ⟨goal, c ++ [(name, t)]⟩ = pure (as ++ bs ++ cs) ∧
      considered c ⊆ as ∧ bs ⊆ [t] := by
  rcases logHypotheses_cases goal with hnone | ⟨g, hsome⟩
  · rw [hnone, hnone, considered_append ht]
    by_cases hmem : t ∈ considered c
    · rw [insertTerm_of_mem hmem]
      exact ⟨_, [], [], by simp, by simp, List.Subset.refl _, List.nil_subset _⟩
    · rw [insertTerm_of_not_mem hmem]
      exact ⟨_, [t], [], by simp, by simp, List.Subset.refl _, List.Subset.refl _⟩
  · rw [hsome, hsome, considered_append ht]
    obtain ⟨as, bs, cs, hold, hnew, hsub, hadded⟩ := exists_insertTerm_insertTerm (considered c) t g
    exact ⟨as, bs, cs, by rw [hold], by rw [hnew], hsub, hadded⟩

theorem yields_logInequality (t : Term) : (logInequality t).Yields fun i => i.unknowns.Nodup := by
  unfold logInequality
  refine Yields.bind (P := fun i? => ∀ i : LogInequality, i ∈ i? → i.unknowns.Nodup) ?_ fun i? hi => ?_
  · unfold toInequality
    split
    · refine yields_bind fun q => yields_pure fun i hi => ?_
      obtain ⟨g, -, rfl⟩ := Option.map_eq_some_iff.1 hi
      exact nodup_monomials q
    · exact yields_fail _
  · cases i? with
    | none => exact yields_fail _
    | some i => exact yields_pure (hi i rfl)

theorem yields_extremumDisjunctions (r : Rel) (m : Term) :
    (extremumDisjunctions r m).Yields fun ls => ∀ l ∈ ls, ∀ i ∈ l, i.unknowns.Nodup := by
  have hside : ∀ r : Rel, (m.args.mapM fun a => do logInequality (← Statement.relate r a m)).Yields
      fun is => ∀ i : LogInequality, i ∈ is → i.unknowns.Nodup := fun r =>
    yields_mapM fun a _ => yields_bind fun t => yields_logInequality t
  unfold extremumDisjunctions
  refine (hside r).bind fun bounds hbounds => (hside .eq).bind fun attained hattained => yields_pure ?_
  intro l hl
  rcases List.mem_append.1 hl with hl | hl
  · obtain ⟨i, hi, rfl⟩ := List.mem_map.1 hl
    exact List.forall_mem_singleton.2 (hbounds i hi)
  · rw [List.mem_singleton.1 hl]
    exact hattained

theorem yields_sizeDisjunction? (hyps : List Term) (v : Term) :
    (sizeDisjunction? hyps v).Yields fun l? => ∀ l ∈ l?, ∀ i ∈ l, i.unknowns.Nodup := by
  have hone : ∀ r : Rel, (do return some [← logInequality (← Statement.relate r v one)] :
      Outcome (Option (List LogInequality))).Yields fun l? => ∀ l ∈ l?, ∀ i ∈ l, i.unknowns.Nodup := by
    intro r
    refine yields_bind fun t => (yields_logInequality t).bind fun i hi => yields_pure ?_
    rintro l ⟨⟩
    exact List.forall_mem_singleton.2 hi
  exact yields_ite (hone .eq) (yields_ite (hone .le) (yields_pure nofun))

/-- **The inequalities of the disjunctions list their unknowns once.** -/
theorem yields_disjunctions (splitExtrema : Bool) (s : State) :
    (disjunctions splitExtrema s).Yields fun ls => ∀ l ∈ ls, ∀ i ∈ l, i.unknowns.Nodup := by
  have hextrema : ∀ r (ms : List Term), (ms.mapM (extremumDisjunctions r)).Yields
      fun lss => ∀ l ∈ lss.flatten, ∀ i ∈ l, i.unknowns.Nodup := fun r ms =>
    (yields_mapM fun m _ => yields_extremumDisjunctions r m).mono fun lss h l hl => by
      obtain ⟨ls, hls, hl⟩ := List.mem_flatten.1 hl
      exact h ls hls l hl
  unfold disjunctions
  refine yields_bind fun hyps => yields_bind fun read => ?_
  refine Yields.bind (P := fun ls => ∀ l ∈ ls, ∀ i ∈ l, i.unknowns.Nodup) ?_ fun direct hdirect => ?_
  · refine yields_mapM fun t _ => (yields_logInequality t).bind fun i hi => yields_pure ?_
    exact List.forall_mem_singleton.2 hi
  refine (hextrema .le _).bind fun above habove => (hextrema .ge _).bind fun below hbelow => ?_
  refine (yields_mapM fun v _ => yields_sizeDisjunction? _ v).bind fun sizes hsizes => yields_pure ?_
  intro l hl
  simp only [List.mem_append, List.mem_filterMap, id_eq] at hl
  rcases hl with ((hl | hl) | hl) | ⟨l?, hl?, hl⟩
  · exact hdirect l hl
  · exact habove l hl
  · exact hbelow l hl
  · exact hsizes l? hl? l hl

theorem isFixed_congr {hyps hyps' : List Term} (h : ∀ t, markedFixed hyps t = markedFixed hyps' t)
    (t : Term) : isFixed hyps t = isFixed hyps' t := by
  induction t using args_induction with
  | step t ih =>
    cases t with
    | app g as =>
      have hargs : areFixed hyps as = areFixed hyps' as := by
        rw [Bool.eq_iff_iff, areFixed_iff, areFixed_iff]
        exact forall₂_congr fun a ha => by rw [ih a ha]
      simp only [isFixed, h, hargs]
    | _ => simp only [isFixed, h]

theorem isBounded_congr {hyps hyps' : List Term} (h : ∀ t, markedBounded hyps t = markedBounded hyps' t)
    (t : Term) : isBounded hyps t = isBounded hyps' t := by
  induction t using args_induction with
  | step t ih =>
    cases t with
    | app g as =>
      have hargs : areBounded hyps as = areBounded hyps' as := by
        rw [Bool.eq_iff_iff, areBounded_iff, areBounded_iff]
        exact forall₂_congr fun a ha => by rw [ih a ha]
      simp only [isBounded, h, hargs]
    | _ => simp only [isBounded, h]

theorem sizeDisjunction?_append (ht : t.isRel = true) (hyps : List Term) :
    sizeDisjunction? (hyps ++ [t]) = sizeDisjunction? hyps := by
  have hmark : ∀ h u, h = .fixed ∨ h = .bounded →
      (hyps ++ [t]).contains (app h [u]) = hyps.contains (app h [u]) := by
    intro h u hh
    have hne : app h [u] ≠ t := by
      rintro rfl
      rcases hh with rfl | rfl <;> cases ht
    simp [hne]
  funext v
  unfold sizeDisjunction?
  rw [isFixed_congr (fun u => hmark .fixed u (.inl rfl)) v, isBounded_congr (fun u => ?_) v]
  rw [markedBounded, markedBounded, hmark .fixed u (.inl rfl), hmark .bounded u (.inr rfl)]

def disjunctionsOf (splitExtrema : Bool) (hyps comparisons : List Term) :
    Outcome (List (List LogInequality)) := do
  let direct ← comparisons.mapM fun t => do return [← logInequality t]
  let maxima := if splitExtrema then (comparisons.flatMap Magnitude.maxima).eraseDups else []
  let minima := if splitExtrema then (comparisons.flatMap Magnitude.minima).eraseDups else []
  let above ← maxima.mapM (extremumDisjunctions .le)
  let below ← minima.mapM (extremumDisjunctions .ge)
  let all := direct ++ above.flatten ++ below.flatten
  let sizes ← (Inequality.allUnknowns all.flatten).mapM (sizeDisjunction? hyps)
  return all ++ sizes.filterMap id

theorem disjunctions_eq (splitExtrema : Bool) (s : State) :
    disjunctions splitExtrema s = logHypotheses s >>= fun hyps => hyps.mapM asymptotic? >>= fun read =>
      disjunctionsOf splitExtrema s.context.hypotheses (read.filterMap id) := rfl

theorem disjunctionsOf_repeats {ps qs : List Term} (h : Repeats ps qs) (splitExtrema : Bool)
    (hyps : List Term) :
    Alike RepeatsFacts (disjunctionsOf splitExtrema hyps ps) (disjunctionsOf splitExtrema hyps qs) := by
  have hfacts : (ps.mapM fun t => do return [← logInequality t]).Yields fun ds => ∀ d ∈ ds, ∃ i, d = [i] :=
    yields_mapM fun t _ => yields_bind fun i => yields_pure ⟨i, rfl⟩
  unfold disjunctionsOf
  refine ((h.alike_mapM _).and hfacts).bind fun ds es hde => ?_
  -- the extrema and the unknowns are listed without repetitions
  rw [(h.flatMap maxima).eraseDups_eq, (h.flatMap minima).eraseDups_eq]
  refine (alike_of_result_eq rfl).bind ?_
  rintro above _ rfl
  refine (alike_of_result_eq rfl).bind ?_
  rintro below _ rfl
  have hall := (hde.1.append above.flatten).append below.flatten
  have hunknowns : Inequality.allUnknowns (es ++ above.flatten ++ below.flatten).flatten =
      Inequality.allUnknowns (ds ++ above.flatten ++ below.flatten).flatten :=
    (hall.flatten.flatMap Inequality.unknowns).eraseDups_eq
  dsimp only
  rw [hunknowns]
  refine (alike_of_result_eq rfl).bind ?_
  rintro sizes _ rfl
  simp only [List.append_assoc]
  exact alike_pure (repeatsFacts_append hde.1 hde.2 _)

/-- **What has to be refuted when a comparison is added that was read already**: its inequality comes
again. -/
theorem disjunctions_append (splitExtrema : Bool) (goal : Term) (c : Context) (name : String)
    (ht : t.isRel = true) (hu : u ∈ c.hypotheses) (hrel : u.isRel = true)
    (hread : (asymptotic? t).result = (asymptotic? u).result) :
    Alike RepeatsFacts (disjunctions splitExtrema ⟨goal, c⟩)
      (disjunctions splitExtrema ⟨goal, c ++ [(name, t)]⟩) := by
  obtain ⟨as, bs, cs, hold, hnew, hsub, hadded⟩ := exists_logHypotheses_append goal c name ht
  have hua : u ∈ as := hsub (List.mem_eraseDups.2 (List.mem_filter.2 ⟨hu, by simp [hrel]⟩))
  have hreadings : Alike Repeats ((as ++ cs).mapM asymptotic?) ((as ++ bs ++ cs).mapM asymptotic?) :=
    repeats_mapM fun b hb => ⟨u, hua, List.mem_singleton.1 (hadded hb) ▸ hread⟩
  have hsizes : ∀ ps, disjunctionsOf splitExtrema (Context.hypotheses (c ++ [(name, t)])) ps =
      disjunctionsOf splitExtrema c.hypotheses ps := by
    intro ps
    have hyps : Context.hypotheses (c ++ [(name, t)]) = c.hypotheses ++ [t] := by
      simp [Context.hypotheses]
    rw [hyps, disjunctionsOf, disjunctionsOf, sizeDisjunction?_append ht]
  rw [disjunctions_eq, disjunctions_eq, hold, hnew, pure_bind, pure_bind]
  refine hreadings.bind fun xs ys hxy => ?_
  rw [hsizes]
  exact disjunctionsOf_repeats (hxy.filterMap id) splitExtrema _

theorem logLinearOf_of_not_isOpen (h : ¬ IsOpen s) :
    (logLinearOf verbose splitExtrema s).result = .ok [] := by
  have hguard : (s.context.statements.contains bot || s.goal = top) = true := by
    simpa [IsOpen, imp_iff_not_or] using h
  unfold logLinearOf
  rw [hguard]
  rfl

/-- **The verdict stays when a comparison is added that was read already.** -/
theorem result_logLinearOf_append (verbose splitExtrema : Bool) (goal : Term) (c : Context)
    (name : String) (ht : t.isRel = true) (hu : u ∈ c.hypotheses) (hrel : u.isRel = true)
    (hread : (asymptotic? t).result = (asymptotic? u).result) :
    (logLinearOf verbose splitExtrema ⟨goal, c ++ [(name, t)]⟩).result =
      (logLinearOf verbose splitExtrema ⟨goal, c⟩).result.map fun left =>
        left.map fun _ => ⟨goal, c ++ [(name, t)]⟩ := by
  have hstatements : bot ∈ Context.statements (c ++ [(name, t)]) ↔ bot ∈ c.statements := by
    have hne : bot ≠ t := by
      rintro rfl
      cases ht
    simp [Context.statements, Context.hypotheses, hne]
  by_cases hopen : IsOpen ⟨goal, c⟩
  · have hopen' : IsOpen ⟨goal, c ++ [(name, t)]⟩ := ⟨mt hstatements.1 hopen.1, hopen.2⟩
    have halike := (disjunctions_append splitExtrema goal c name ht hu hrel hread).and
      (yields_disjunctions splitExtrema _)
    cases halike with
    | error e hold hnew =>
      rw [logLinearOf_error hopen hold, logLinearOf_error hopen' hnew]
      rfl
    | ok xs ys hold hnew h =>
      rw [result_logLinearOf hopen hold, result_logLinearOf hopen' hnew]
      cases decideChoices_alike (h.1.choices h.2) with
      | error e hx hy =>
        rw [result_bind_of_error hx, result_bind_of_error hy]
        rfl
      | ok ds es hx hy hfound =>
        have hnone : es.find? (·.certificate.isPoint) = none ↔
            ds.find? (·.certificate.isPoint) = none := by
          rw [← Option.isNone_iff_eq_none, ← Option.isNone_iff_eq_none, hfound]
        rw [result_bind_of_ok hx, result_bind_of_ok hy, result_conclude, result_conclude]
        by_cases hds : ds.find? (·.certificate.isPoint) = none
        · rw [if_pos hds, if_pos (hnone.2 hds)]
          rfl
        · rw [if_neg hds, if_neg (mt hnone.1 hds)]
          rfl
  · have hopen' : ¬ IsOpen ⟨goal, c ++ [(name, t)]⟩ := fun h => hopen ⟨mt hstatements.2 h.1, h.2⟩
    rw [logLinearOf_of_not_isOpen hopen, logLinearOf_of_not_isOpen hopen']
    rfl

end Readings

section Positive

variable {s : State} {r : Rel} {a b x y : Term} {hyp : String}

theorem asymptotic?_of_isOrder (hx : x.isOrder = true) (hy : y.isOrder = true) (hne : r ≠ .ne) :
    asymptotic? (app (.rel r) [x, y]) = pure (some (app (.rel r) [x, y])) := by
  simp only [asymptotic?, hx, hy, Bool.and_self, if_true]
  rw [if_neg (by simpa using hne)]

theorem asymptotic?_of_positive (ha : RealExpression a) (hb : RealExpression b)
    (hpa : a.is .positive = true) (hpb : b.is .positive = true) :
    asymptotic? (app (.rel r) [a, b]) = positiveAsymptotic? r a b := by
  simp only [asymptotic?]
  rw [ha.isOrder, hb.isOrder, ha.evades, hb.evades, hpa, hpb]
  rfl

theorem relate_of_formed (hx : Formed x) (hy : Formed y) (heq : r ≠ .eq) (hne : r ≠ .ne) :
    Statement.relate r x y = pure (app (.rel r) [x, y]) := by
  rcases Statement.relate_of_isOrder (r := r) hx.isOrder hy.isOrder hx.evades hy.evades with
    hkept | ⟨-, hr, -⟩
  · exact hkept
  · exact (hr.elim heq hne).elim

/-- The comparison that linear arithmetic reads, between the orders of the sides. -/
def readingOf (r : Rel) (x y : Term) : Term :=
  if r = .le ∨ r = .lt then app (.rel .le) [x, y] else app (.rel .ge) [y, x]

/-- **The reading of linear arithmetic**: a lower bound has its sides exchanged. -/
theorem positiveAsymptotic?_eq (ha : theta a = pure x) (hb : theta b = pure y) (hx : Formed x)
    (hy : Formed y) (heq : r ≠ .eq) (hne : r ≠ .ne) :
    positiveAsymptotic? r a b = pure (some (readingOf r x y)) := by
  have hle := relate_of_formed (r := .le) hx hy (by decide) (by decide)
  have hge := relate_of_formed (r := .ge) hy hx (by decide) (by decide)
  cases r <;> simp only [positiveAsymptotic?, ha, hb, pure_bind, hle, hge]
  case eq => exact absurd rfl heq
  case ne => exact absurd rfl hne
  all_goals rfl

/-- **The reading in advance** keeps the sides. -/
theorem result_applyThetaOf (hget : s.context.get? hyp = some (app (.rel r) [a, b]))
    (ha : theta a = pure x) (hb : theta b = pure y) (hx : Formed x) (hy : Formed y) (heq : r ≠ .eq)
    (hne : r ≠ .ne) (newName : Option String) :
    (applyThetaOf hyp newName s).result =
      .ok [s.put (s.fresh (newName.getD (hyp ++ "_theta"))) (app (.rel r.weaken) [x, y])] := by
  have hle : Statement.relateBy "<=" x y = pure (app (.rel .le) [x, y]) :=
    relate_of_formed (r := .le) hx hy (by decide) (by decide)
  have hge : Statement.relateBy ">=" x y = pure (app (.rel .ge) [x, y]) :=
    relate_of_formed (r := .ge) hx hy (by decide) (by decide)
  unfold applyThetaOf
  rw [hget]
  cases r <;> simp only [asRel?, thetaSign, ha, hb, pure_bind, hle, hge]
  case eq => exact absurd rfl heq
  case ne => exact absurd rfl hne
  all_goals rfl

theorem result_applyThetaOf_eq (hget : s.context.get? hyp = some (app (.rel .eq) [a, b]))
    (ha : theta a = pure x) (hb : theta b = pure y) (newName : Option String) :
    (applyThetaOf hyp newName s).result = .error .unacceptable := by
  unfold applyThetaOf
  rw [hget]
  simp only [asRel?, thetaSign, ha, hb, pure_bind]
  rfl

theorem exists_error_of_asymptotic? {verbose splitExtrema : Bool} {t : Term} {e : Failure}
    (hopen : IsOpen s) (ht : t ∈ s.context.hypotheses) (hrel : t.isRel = true)
    (herror : (asymptotic? t).result = .error e) :
    ∃ e', (logLinearOf verbose splitExtrema s).result = .error e' := by
  obtain ⟨rest, hts⟩ := exists_logHypotheses s
  have hmem : t ∈ considered s.context ++ rest :=
    List.mem_append_left rest (List.mem_eraseDups.2 (List.mem_filter.2 ⟨ht, by simp [hrel]⟩))
  cases hresult : ((considered s.context ++ rest).mapM asymptotic?).result with
  | error e' => exact ⟨e', logLinearOf_error hopen (disjunctions_error hts hresult)⟩
  | ok read =>
    obtain ⟨t?, -, hread⟩ := exists_mem_of_mapM hresult hmem
    rw [herror] at hread
    cases hread

theorem sameComparison_readingOf (heq : r ≠ .eq) (hne : r ≠ .ne) :
    SameComparison (app (.rel r.weaken) [x, y]) (readingOf r x y) ↔
      app (.rel r.weaken) [x, y] = readingOf r x y := by
  refine ⟨?_, .inl⟩
  rintro (hsame | ⟨r', a, b, hadded, hread⟩)
  · exact hsame
  · cases hadded
    cases r with
    | eq => exact absurd rfl heq
    | ne => exact absurd rfl hne
    | _ => cases hread

theorem eq_readingOf_iff (heq : r ≠ .eq) (hne : r ≠ .ne) :
    app (.rel r.weaken) [x, y] = readingOf r x y ↔ r = .le ∨ r = .lt ∨ x = y := by
  cases r <;> simp_all [readingOf, Rel.weaken, eq_comm]

/-- **Two ways to pass to orders of magnitude.**

A hypothesis compares two positive real expressions.  Unless it is an equation, it can be passed to the
orders of its sides in advance, and linear arithmetic reads it as well.  The two readings are the same up to
the order of their sides exactly for upper bounds, and where both sides have the same order: linear
arithmetic reads a lower bound with its sides exchanged.  If they are the same, then passing to orders in
advance does not change the verdict.  An equation is refused both ways. -/
theorem asymptotic_readings (hget : s.context.get? hyp = some (app (.rel r) [a, b]))
    (ha : RealExpression a) (hb : RealExpression b) (hpa : a.is .positive = true)
    (hpb : b.is .positive = true) (hne : r ≠ .ne) (newName : Option String) :
    ∃ x y, theta a = pure x ∧ theta b = pure y ∧
      (r = .eq →
        (applyThetaOf hyp newName s).result = .error .unacceptable ∧
        (asymptotic? (app (.rel r) [a, b])).result = .error .unacceptable ∧
        ∀ verbose splitExtrema, IsOpen s →
          ∃ e, (logLinearOf verbose splitExtrema s).result = .error e) ∧
      (r ≠ .eq → ∃ added read s',
        added = app (.rel r.weaken) [x, y] ∧
        read = readingOf r x y ∧
        s' = s.put (s.fresh (newName.getD (hyp ++ "_theta"))) added ∧
        (applyThetaOf hyp newName s).result = .ok [s'] ∧
        (asymptotic? (app (.rel r) [a, b])).result = .ok (some read) ∧
        (SameComparison added read ↔ r = .le ∨ r = .lt ∨ x = y) ∧
        (SameComparison added read → ∀ verbose splitExtrema,
          (logLinearOf verbose splitExtrema s').result =
            (logLinearOf verbose splitExtrema s).result.map fun left => left.map fun _ => s')) := by
  have hx := formed_ofPositive ha
  have hy := formed_ofPositive hb
  have hthetaA := theta_of_realExpression ha hpa
  have hthetaB := theta_of_realExpression hb hpb
  have hmem := Context.mem_hypotheses_of_get? hget
  refine ⟨ofPositive a, ofPositive b, hthetaA, hthetaB, ?_, fun heq => ?_⟩
  · rintro rfl
    have hread : (asymptotic? (app (.rel .eq) [a, b])).result = .error .unacceptable := by
      rw [asymptotic?_of_positive ha hb hpa hpb]
      rfl
    exact ⟨result_applyThetaOf_eq hget hthetaA hthetaB newName, hread,
      fun _ _ hopen => exists_error_of_asymptotic? hopen hmem rfl hread⟩
  · have hread := positiveAsymptotic?_eq (r := r) hthetaA hthetaB hx hy heq hne
    rw [← asymptotic?_of_positive ha hb hpa hpb] at hread
    refine ⟨_, _, _, rfl, rfl, rfl, result_applyThetaOf hget hthetaA hthetaB hx hy heq hne newName,
      congrArg Outcome.result hread, ?_, fun hsame verbose splitExtrema => ?_⟩
    · rw [sameComparison_readingOf heq hne, eq_readingOf_iff heq hne]
    · rw [sameComparison_readingOf heq hne] at hsame
      have hweak : r.weaken ≠ .ne := by
        cases r with
        | ne => exact absurd rfl hne
        | _ => decide
      have hagain := asymptotic?_of_isOrder hx.isOrder hy.isOrder hweak
      have hput : s.put (s.fresh (newName.getD (hyp ++ "_theta")))
          (app (.rel r.weaken) [ofPositive a, ofPositive b]) = ⟨s.goal, s.context ++
            [(s.fresh (newName.getD (hyp ++ "_theta")), app (.rel r.weaken) [ofPositive a, ofPositive b])]⟩ :=
        congrArg (State.mk s.goal) (Context.put_of_not_contains (Context.not_contains_fresh _ _))
      rw [hput]
      exact result_logLinearOf_append verbose splitExtrema s.goal s.context _ rfl hmem rfl
        (by rw [hread, ← hsame, hagain])

end Positive

def positiveReal (name : String) : Term := var ⟨name, .posReal⟩

def betweenReals (r : Rel) : Term := app (.rel r) [positiveReal "x", positiveReal "y"]

def betweenMagnitudes (r : Rel) : Term :=
  app (.rel r) [app .theta [positiveReal "x"], app .theta [positiveReal "y"]]

/-- From how `x` compares with `y`, the order of `x` is to be shown to be at least that of `y`. -/
def lowerGoal (r : Rel) : State :=
  ⟨betweenMagnitudes .ge, [("x", app .declared [positiveReal "x"]),
    ("y", app .declared [positiveReal "y"]), ("h", betweenReals r)]⟩

/-- From `x >= y` the goal is proved if the hypothesis is passed to orders in advance, and not otherwise.
From `x < y` the verdict is the same both ways, and from `x = y` nothing is concluded. -/
theorem lowerGoal_readings :
    ((applyThetaOf "h" none (lowerGoal .ge)).result =
        .ok [(lowerGoal .ge).put "h_theta" (betweenMagnitudes .ge)] ∧
      ¬ SameComparison (betweenMagnitudes .ge)
        (app (.rel .ge) [app .theta [positiveReal "y"], app .theta [positiveReal "x"]]) ∧
      (logLinearOf false true (lowerGoal .ge)).result = .ok [lowerGoal .ge] ∧
      (logLinearOf false true ((lowerGoal .ge).put "h_theta" (betweenMagnitudes .ge))).result = .ok []) ∧
    (∀ verbose splitExtrema,
      (logLinearOf verbose splitExtrema ((lowerGoal .lt).put "h_theta" (betweenMagnitudes .le))).result =
        (logLinearOf verbose splitExtrema (lowerGoal .lt)).result.map fun left =>
          left.map fun _ => (lowerGoal .lt).put "h_theta" (betweenMagnitudes .le)) ∧
    (applyThetaOf "h" none (lowerGoal .eq)).result = .error .unacceptable ∧
    ∀ verbose splitExtrema, ∃ e, (logLinearOf verbose splitExtrema (lowerGoal .eq)).result = .error e := by
  have hreal : ∀ name, RealExpression (positiveReal name) := fun _ => .var rfl
  have hpositive : ∀ name, (positiveReal name).is .positive = true := fun _ => rfl
  have horder : ∀ name o, theta (positiveReal name) = pure o → app .theta [positiveReal name] = o :=
    fun name o ho => Except.ok.inj (congrArg Outcome.result ho)
  have hget : ∀ r, (lowerGoal r).context.get? "h" =
      some (app (.rel r) [positiveReal "x", positiveReal "y"]) := fun _ => rfl
  obtain ⟨x, y, hx, hy, -, hlower⟩ := asymptotic_readings (hget .ge)
    (hreal "x") (hreal "y") (hpositive "x") (hpositive "y") (by decide) none
  obtain rfl := horder _ _ hx
  obtain rfl := horder _ _ hy
  obtain ⟨_, _, _, rfl, rfl, rfl, hadded, -, hsame, -⟩ := hlower (by decide)
  obtain ⟨x, y, hx, hy, -, hupper⟩ := asymptotic_readings (hget .lt)
    (hreal "x") (hreal "y") (hpositive "x") (hpositive "y") (by decide) none
  obtain rfl := horder _ _ hx
  obtain rfl := horder _ _ hy
  obtain ⟨_, _, _, rfl, rfl, rfl, -, -, -, hverdict⟩ := hupper (by decide)
  obtain ⟨_, _, -, -, hequal, -⟩ := asymptotic_readings (hget .eq)
    (hreal "x") (hreal "y") (hpositive "x") (hpositive "y") (by decide) none
  obtain ⟨hrefused, -, herror⟩ := hequal rfl
  refine ⟨⟨hadded, fun h => ?_, by decide +kernel, by decide +kernel⟩, hverdict (.inl rfl), hrefused,
    fun verbose splitExtrema => herror verbose splitExtrema ⟨by decide, by decide⟩⟩
  exact absurd (hsame.1 h) (by decide)

end Tactic
end Majorant
