import Majorant.Proofs.Magnitude.Bounded
import Majorant.Proofs.Tactic.Linear
import Majorant.Proofs.Tactic.LogLinear

/-!
# States about orders of magnitude

Every comparison of composed orders becomes an inequality between logarithms, and each extremum is
tied to its arguments by disjunctions.
-/

namespace Majorant
namespace Tactic
open Term Proof Linear Magnitude

/-- A statement holds for given exponents: the degrees of the sides compare, and the exponent of a
positive whole number is not negative. -/
def HoldsFor (e : Variable → ℚ) : Term → Prop
  | app (.rel r) [a, b] => r.Compares (degree e a) (degree e b)
  | app .declared [var v] => v.kind = .posInt → 0 ≤ e v
  | _ => False

def LogHolds (x : Term → ℚ) : Term → Prop
  | app (.rel r) [a, b] => r.Compares (logarithm x a) (logarithm x b)
  | _ => False

def IsComparison (N : Variable → Prop) (t : Term) : Prop :=
  ∃ r a b, t = app (.rel r) [a, b] ∧ r ≠ .ne ∧ Composed N a ∧ Composed N b

/-- **States about orders of magnitude**: the hypotheses declare variables or compare composed orders,
and the goal is an inequality between such. -/
structure MagnitudeState (N : Variable → Prop) (s : State) : Prop where
  goal : ∃ r a b, s.goal = app (.rel r) [a, b] ∧ r ≠ .eq ∧ r ≠ .ne ∧ Composed N a ∧ Composed N b
  hypotheses : ∀ t ∈ s.context.hypotheses, (∃ v, N v ∧ t = declare v) ∨ IsComparison N t

variable {N : Variable → Prop} {s : State} {x : Term → ℚ} {e : Variable → ℚ} {c : Term}

theorem extrema_rel {h : Head} (hh : h = .orderMax ∨ h = .orderMin) (r : Rel) (a b : Term) :
    extrema h (app (.rel r) [a, b]) = extrema h a ++ extrema h b := by
  rcases hh with rfl | rfl <;> simp [extrema, extremaList, entersExtrema]

theorem respectsExtrema_rel {r : Rel} {a b : Term} :
    RespectsExtrema x (app (.rel r) [a, b]) ↔ RespectsExtrema x a ∧ RespectsExtrema x b := by
  unfold RespectsExtrema
  constructor
  · intro hx
    constructor <;> intro h hh as hm <;> refine hx h hh as ?_ <;> rw [extrema_rel hh]
    · exact List.mem_append_left _ hm
    · exact List.mem_append_right _ hm
  · rintro ⟨ha, hb⟩ h hh as hm
    rw [extrema_rel hh] at hm
    rcases List.mem_append.1 hm with hm | hm
    · exact ha h hh as hm
    · exact hb h hh as hm

theorem IsComparison.holdsFor_iff (h : IsComparison N c) (hx : RespectsExtrema x c) :
    HoldsFor (fun v => x (atom v)) c ↔ LogHolds x c := by
  obtain ⟨r, a, b, rfl, -, ha, hb⟩ := h
  obtain ⟨hxa, hxb⟩ := respectsExtrema_rel.1 hx
  simp only [HoldsFor, LogHolds]
  rw [ha.degree_eq_logarithm hxa, hb.degree_eq_logarithm hxb]

theorem IsComparison.logHolds_degree_iff (h : IsComparison N c) :
    LogHolds (degree e) c ↔ HoldsFor e c := by
  obtain ⟨r, a, b, rfl, -, ha, hb⟩ := h
  simp only [HoldsFor, LogHolds]
  rw [ha.logarithm_degree, hb.logarithm_degree]

def scenario (s : State) : List Term :=
  insertTerm ((s.context.hypotheses.filter fun h => h.isRel || isDeclaration h).eraseDups)
    (Statement.negated s.goal)

theorem MagnitudeState.logHypotheses_eq (h : MagnitudeState N s) :
    logHypotheses s = pure (scenario s) := by
  obtain ⟨r, a, b, hgoal, -⟩ := h.goal
  unfold logHypotheses scenario
  rw [hgoal]
  rfl

theorem MagnitudeState.mem_scenario (h : MagnitudeState N s) {t : Term} :
    t ∈ scenario s ↔ t ∈ s.context.hypotheses ∨ t = Statement.negated s.goal := by
  unfold scenario
  rw [mem_insertTerm, List.mem_eraseDups, List.mem_filter]
  refine or_congr_left (and_iff_left_of_imp fun ht => ?_)
  rcases h.hypotheses t ht with ⟨v, -, rfl⟩ | ⟨r, a, b, rfl, -⟩ <;> rfl

def asymptoticOf : Term → Option Term
  | app .declared [var v] =>
    if v.kind = .posInt then some (app (.rel .ge) [app .theta [var v], unit]) else none
  | t => some t

theorem posInt_iff (v : Variable) :
    ((var v).is .positive && (var v).is .integer) = true ↔ v.kind = .posInt := by
  rw [Term.is, Term.is, facts_var]
  cases v.kind <;> decide

theorem positive_of_posInt {v : Variable} (hv : v.kind = .posInt) : (var v).is .positive = true :=
  (Bool.and_eq_true_iff.1 ((posInt_iff v).2 hv)).1

theorem theta_var {v : Variable} (hv : v.kind = .posInt) :
    Magnitude.theta (var v) = pure (app .theta [var v]) := by
  have horder : (var v).isOrder = false := by simp [isOrder, hv]
  have hpositive : ofPositive (var v) = app .theta [var v] := by
    unfold ofPositive
    rw [horder]
    rfl
  have heq : Magnitude.theta (var v) =
      if (var v).isOrder then pure (var v)
      else if (var v).is .positive then pure (ofPositive (var v))
      else warn (var v).text := rfl
  rw [heq, horder, positive_of_posInt hv, hpositive]
  rfl

theorem asymptotic?_declare {v : Variable} (hN : N v) :
    asymptotic? (declare v) = pure (asymptoticOf (declare v)) := by
  by_cases hv : v.kind = .posInt
  · have htheta : Composed N (app .theta [var v]) := .theta hN (positive_of_posInt hv)
    simp only [asymptotic?, declare, asymptoticOf]
    rw [if_pos ((posInt_iff v).2 hv), if_pos hv, theta_var hv, pure_bind,
      htheta.relate_eq .unit (by decide) (by decide), pure_bind]
  · simp only [asymptotic?, declare, asymptoticOf]
    rw [if_neg (mt (posInt_iff v).1 hv), if_neg hv]

theorem asymptotic?_rel {r : Rel} {a b : Term} (hr : r ≠ .ne) (ha : Composed N a) (hb : Composed N b) :
    asymptotic? (app (.rel r) [a, b]) = pure (some (app (.rel r) [a, b])) := by
  simp only [asymptotic?]
  rw [ha.isOrder, hb.isOrder]
  simp [hr]

def comparisons (s : State) : List Term := (scenario s).filterMap asymptoticOf

theorem MagnitudeState.isComparison_negated (h : MagnitudeState N s) :
    IsComparison N (Statement.negated s.goal) := by
  obtain ⟨r, a, b, hgoal, heq, -, ha, hb⟩ := h.goal
  rw [hgoal]
  exact ⟨r.negate, a, b, rfl, fun hne => heq (by cases r <;> first | rfl | cases hne), ha, hb⟩

theorem MagnitudeState.of_mem_scenario (h : MagnitudeState N s) {t : Term} (ht : t ∈ scenario s) :
    (∃ v, N v ∧ t = declare v) ∨ IsComparison N t := by
  rcases h.mem_scenario.1 ht with ht | rfl
  · exact h.hypotheses t ht
  · exact .inr h.isComparison_negated

theorem IsComparison.asymptoticOf_eq (h : IsComparison N c) : asymptoticOf c = some c := by
  obtain ⟨r, a, b, rfl, -⟩ := h
  rfl

theorem MagnitudeState.mapM_asymptotic? (h : MagnitudeState N s) :
    (scenario s).mapM asymptotic? = pure ((scenario s).map asymptoticOf) := by
  refine Outcome.mapM_eq_pure fun t ht => ?_
  rcases h.of_mem_scenario ht with ⟨v, hN, rfl⟩ | hc
  · exact asymptotic?_declare hN
  · rw [hc.asymptoticOf_eq]
    obtain ⟨r, a, b, rfl, hr, ha, hb⟩ := hc
    exact asymptotic?_rel hr ha hb

theorem MagnitudeState.isComparison_of_mem (h : MagnitudeState N s) :
    ∀ c ∈ comparisons s, IsComparison N c := by
  intro c hc
  obtain ⟨t, ht, heq⟩ := List.mem_filterMap.1 hc
  rcases h.of_mem_scenario ht with ⟨v, hN, rfl⟩ | hcomparison
  · simp only [asymptoticOf, declare] at heq
    by_cases hv : v.kind = .posInt
    · rw [if_pos hv] at heq
      cases heq
      exact ⟨.ge, _, _, rfl, by decide, .theta hN (positive_of_posInt hv), .unit⟩
    · rw [if_neg hv] at heq
      cases heq
  · rw [hcomparison.asymptoticOf_eq] at heq
    cases heq
    exact hcomparison

theorem holdsFor_declare (v : Variable) :
    (∀ c, asymptoticOf (declare v) = some c → HoldsFor e c) ↔ HoldsFor e (declare v) := by
  simp only [asymptoticOf, declare, HoldsFor]
  by_cases hv : v.kind = .posInt
  · rw [if_pos hv]
    simp only [Option.some.injEq, forall_eq', Rel.Compares, degree_unit, degree, hv,
      forall_const]
  · rw [if_neg hv]
    simp [hv]

/-- **The comparisons hold** exactly when the hypotheses hold and the goal fails. -/
theorem MagnitudeState.holdsFor_comparisons_iff (h : MagnitudeState N s) :
    (∀ c ∈ comparisons s, HoldsFor e c) ↔
      (∀ t ∈ s.context.hypotheses, HoldsFor e t) ∧ ¬ HoldsFor e s.goal := by
  have hcomparison : ∀ t, IsComparison N t →
      ((∀ c, asymptoticOf t = some c → HoldsFor e c) ↔ HoldsFor e t) := by
    intro t ht
    rw [ht.asymptoticOf_eq]
    simp
  have hnegated : HoldsFor e (Statement.negated s.goal) ↔ ¬ HoldsFor e s.goal := by
    obtain ⟨r, a, b, hgoal, -⟩ := h.goal
    rw [hgoal]
    exact r.compares_negate _ _
  have hscenario : (∀ c ∈ comparisons s, HoldsFor e c) ↔ ∀ t ∈ scenario s, HoldsFor e t := by
    constructor
    · intro hall t ht
      have hgiven : ∀ c, asymptoticOf t = some c → HoldsFor e c :=
        fun c hc => hall c (List.mem_filterMap.2 ⟨t, ht, hc⟩)
      rcases h.of_mem_scenario ht with ⟨v, -, rfl⟩ | htc
      · exact (holdsFor_declare v).1 hgiven
      · exact (hcomparison t htc).1 hgiven
    · intro hall c hc
      obtain ⟨t, ht, heq⟩ := List.mem_filterMap.1 hc
      rcases h.of_mem_scenario ht with ⟨v, -, rfl⟩ | htc
      · exact (holdsFor_declare v).2 (hall _ ht) c heq
      · exact (hcomparison t htc).2 (hall t ht) c heq
  rw [hscenario, ← hnegated]
  constructor
  · intro hall
    exact ⟨fun t ht => hall t (h.mem_scenario.2 (.inl ht)), hall _ (h.mem_scenario.2 (.inr rfl))⟩
  · rintro ⟨hhyps, hgoal⟩ t ht
    rcases h.mem_scenario.1 ht with ht | rfl
    · exact hhyps t ht
    · exact hgoal

def inequalityOf : Term → LogInequality
  | app (.rel r) [a, b] => comparison r a b
  | _ => ⟨[], .eq, 0⟩

def extremumLists (h : Head) (m : Term) : List (List LogInequality) :=
  m.args.map (fun a => [comparison (side h) a m]) ++ [m.args.map fun a => comparison .eq a m]

def extremaOf (h : Head) (cs : List Term) : List Term :=
  (cs.flatMap fun c => (extrema h c).eraseDups).eraseDups

/-- The disjunctions that come from the comparisons and their extrema. -/
def boundLists (cs : List Term) : List (List LogInequality) :=
  cs.map (fun c => [inequalityOf c]) ++
    ((extremaOf .orderMax cs).map (extremumLists .orderMax)).flatten ++
    ((extremaOf .orderMin cs).map (extremumLists .orderMin)).flatten

def sizeList (k : Term) : Option (List LogInequality) :=
  if k.isNumber then some [sizeEquation k] else none

def allLists (cs : List Term) : List (List LogInequality) :=
  boundLists cs ++ (Inequality.allUnknowns (boundLists cs).flatten).filterMap sizeList

theorem mem_extremaOf {h : Head} {cs : List Term} {m : Term} :
    m ∈ extremaOf h cs ↔ ∃ c ∈ cs, m ∈ extrema h c := by
  simp [extremaOf]

theorem of_mem_extremaOf {h : Head} (hh : h = .orderMax ∨ h = .orderMin) {cs : List Term}
    (hcs : ∀ c ∈ cs, IsComparison N c) {m : Term} (hm : m ∈ extremaOf h cs) :
    ∃ as, m = app h as ∧ Composed N (app h as) := by
  obtain ⟨c, hc, hm⟩ := mem_extremaOf.1 hm
  obtain ⟨r, a, b, rfl, -, ha, hb⟩ := hcs c hc
  rw [extrema_rel hh] at hm
  rcases List.mem_append.1 hm with hm | hm
  · obtain ⟨as, rfl, hcomposed⟩ := ha.of_mem_extrema hm
    exact ⟨as, rfl, hcomposed⟩
  · obtain ⟨as, rfl, hcomposed⟩ := hb.of_mem_extrema hm
    exact ⟨as, rfl, hcomposed⟩

theorem side_ne (h : Head) : side h ≠ .eq ∧ side h ≠ .ne := by
  rcases side_cases h with hside | hside <;> rw [hside] <;> decide

theorem extremumDisjunctions_eq {h : Head} (hh : h = .orderMax ∨ h = .orderMin) {as : List Term}
    (hm : Composed N (app h as)) :
    extremumDisjunctions (side h) (app h as) = pure (extremumLists h (app h as)) := by
  have hargs := hm.of_mem_args hh
  have hstatement : (app h as).isStatement = false := by rcases hh with rfl | rfl <;> rfl
  have hne : ∀ a ∈ as, a ≠ app h as := by
    cases hm with
    | extremum _ _ _ hplain => exact fun a ha => hplain a ha as
    | _ => rcases hh with hh | hh <;> cases hh
  have hbounds : (as.mapM fun a => do logInequality (← Statement.relate (side h) a (app h as))) =
      pure (as.map fun a => comparison (side h) a (app h as)) := by
    refine Outcome.mapM_eq_pure fun a ha => ?_
    rw [(hargs a ha).relate_eq hm (side_ne h).1 (side_ne h).2, pure_bind]
    exact (hargs a ha).logInequality_eq hm (side_ne h).2
  have hattained : (as.mapM fun a => do logInequality (← Statement.relate .eq a (app h as))) =
      pure (as.map fun a => comparison .eq a (app h as)) := by
    refine Outcome.mapM_eq_pure fun a ha => ?_
    rw [(hargs a ha).relate_eq_of_ne hm.comparable hstatement (hne a ha), pure_bind]
    exact (hargs a ha).logInequality_eq hm (by decide)
  unfold extremumDisjunctions
  simp only [args]
  rw [hbounds, pure_bind, hattained, pure_bind, List.map_map]
  rfl

theorem mapM_extremumDisjunctions {h : Head} (hh : h = .orderMax ∨ h = .orderMin) {cs : List Term}
    (hcs : ∀ c ∈ cs, IsComparison N c) :
    (extremaOf h cs).mapM (extremumDisjunctions (side h)) =
      pure ((extremaOf h cs).map (extremumLists h)) := by
  refine Outcome.mapM_eq_pure fun m hm => ?_
  obtain ⟨as, rfl, hcomposed⟩ := of_mem_extremaOf hh hcs hm
  exact extremumDisjunctions_eq hh hcomposed

theorem mapM_logInequality {cs : List Term} (hcs : ∀ c ∈ cs, IsComparison N c) :
    (cs.mapM fun t => do return [← logInequality t]) = pure (cs.map fun c => [inequalityOf c]) := by
  refine Outcome.mapM_eq_pure fun c hc => ?_
  obtain ⟨r, a, b, rfl, hr, ha, hb⟩ := hcs c hc
  rw [ha.logInequality_eq hb hr, pure_bind]
  rfl

section Lists

variable {P : List LogInequality → Prop} {h : Head} {m : Term} {cs : List Term}

theorem forall_mem_extremumLists :
    (∀ l ∈ extremumLists h m, P l) ↔
      (∀ a ∈ m.args, P [comparison (side h) a m]) ∧ P (m.args.map fun a => comparison .eq a m) := by
  simp only [extremumLists, List.forall_mem_append, List.forall_mem_map, List.forall_mem_singleton]

theorem forall_mem_boundLists :
    (∀ l ∈ boundLists cs, P l) ↔ (∀ c ∈ cs, P [inequalityOf c]) ∧
      ∀ h, h = .orderMax ∨ h = .orderMin → ∀ m ∈ extremaOf h cs, ∀ l ∈ extremumLists h m, P l := by
  rw [boundLists, List.forall_mem_append, List.forall_mem_append, List.forall_mem_map]
  simp only [List.mem_flatten, List.mem_map]
  constructor
  · rintro ⟨⟨hdirect, hmax⟩, hmin⟩
    refine ⟨hdirect, ?_⟩
    rintro h (rfl | rfl) m hm l hl
    · exact hmax l ⟨_, ⟨m, hm, rfl⟩, hl⟩
    · exact hmin l ⟨_, ⟨m, hm, rfl⟩, hl⟩
  · rintro ⟨hdirect, hext⟩
    refine ⟨⟨hdirect, ?_⟩, ?_⟩
    · rintro l ⟨_, ⟨m, hm, rfl⟩, hl⟩
      exact hext .orderMax (.inl rfl) m hm l hl
    · rintro l ⟨_, ⟨m, hm, rfl⟩, hl⟩
      exact hext .orderMin (.inr rfl) m hm l hl

theorem exists_comparison_of_mem (hcs : ∀ c ∈ cs, IsComparison N c) :
    ∀ l ∈ boundLists cs, ∀ i ∈ l, ∃ r a b, i = comparison r a b ∧ Composed N a ∧ Composed N b := by
  refine forall_mem_boundLists.2 ⟨fun c hc i hi => ?_, fun h hh m hm => ?_⟩
  · obtain ⟨r, a, b, rfl, -, ha, hb⟩ := hcs c hc
    exact ⟨r, a, b, List.mem_singleton.1 hi, ha, hb⟩
  · obtain ⟨as, rfl, hcomposed⟩ := of_mem_extremaOf hh hcs hm
    have hargs := hcomposed.of_mem_args hh
    refine forall_mem_extremumLists.2 ⟨fun a ha i hi => ?_, fun i hi => ?_⟩
    · exact ⟨_, a, _, List.mem_singleton.1 hi, hargs a ha, hcomposed⟩
    · obtain ⟨a, ha, rfl⟩ := List.mem_map.1 hi
      exact ⟨_, a, _, rfl, hargs a ha, hcomposed⟩

theorem holds_extremumLists_iff (hh : h = .orderMax ∨ h = .orderMin) {as : List Term}
    (hm : Composed N (app h as)) :
    (∀ l ∈ extremumLists h (app h as), ∃ i ∈ l, i.holdsAt x = true) ↔ Attains x h as := by
  have hargs := hm.of_mem_args hh
  have hbase : logarithm x (app h as) = x (app h as) := by
    rcases hh with rfl | rfl <;> exact logarithm_of_isBase True.intro
  have hside : ∀ a ∈ as, (comparison (side h) a (app h as)).holdsAt x = true ↔
      (side h).Compares (logarithm x a) (x (app h as)) := by
    intro a ha
    rw [(hargs a ha).holdsAt_comparison hm (side_ne h).2, hbase]
  have hequal : ∀ a ∈ as, (comparison .eq a (app h as)).holdsAt x = true ↔
      logarithm x a = x (app h as) := by
    intro a ha
    rw [(hargs a ha).holdsAt_comparison hm (by decide), hbase]
    rfl
  rw [forall_mem_extremumLists]
  simp only [args, List.mem_singleton, exists_eq_left, List.mem_map, exists_exists_and_eq_and, Attains,
    IsExtremal, forall_exists_index, and_imp, forall_apply_eq_imp_iff₂]
  exact and_congr (forall₂_congr hside) (exists_congr fun a => and_congr_right fun ha => hequal a ha)

theorem holds_boundLists_iff (hcs : ∀ c ∈ cs, IsComparison N c) :
    (∀ l ∈ boundLists cs, ∃ i ∈ l, i.holdsAt x = true) ↔
      ∀ c ∈ cs, LogHolds x c ∧ RespectsExtrema x c := by
  have hdirect : ∀ c ∈ cs, ((∃ i ∈ [inequalityOf c], i.holdsAt x = true) ↔ LogHolds x c) := by
    intro c hc
    obtain ⟨r, a, b, rfl, hr, ha, hb⟩ := hcs c hc
    simp only [List.mem_singleton, exists_eq_left]
    exact ha.holdsAt_comparison hb hr x
  rw [forall_mem_boundLists]
  constructor
  · rintro ⟨hlog, hext⟩ c hc
    refine ⟨(hdirect c hc).1 (hlog c hc), fun h hh as hm => ?_⟩
    have hmem : app h as ∈ extremaOf h cs := mem_extremaOf.2 ⟨c, hc, hm⟩
    obtain ⟨_, heq, hcomposed⟩ := of_mem_extremaOf hh hcs hmem
    cases heq
    exact (holds_extremumLists_iff hh hcomposed).1 (hext h hh _ hmem)
  · intro hall
    refine ⟨fun c hc => (hdirect c hc).2 (hall c hc).1, fun h hh m hm => ?_⟩
    obtain ⟨as, rfl, hcomposed⟩ := of_mem_extremaOf hh hcs hm
    obtain ⟨c, hc, hmc⟩ := mem_extremaOf.1 hm
    exact (holds_extremumLists_iff hh hcomposed).2 ((hall c hc).2 h hh as hmc)

theorem composed_of_mem_unknowns (hcs : ∀ c ∈ cs, IsComparison N c) :
    ∀ k ∈ Inequality.allUnknowns (boundLists cs).flatten, Composed N k := by
  intro k hk
  obtain ⟨i, hi, hki⟩ := mem_allUnknowns.1 hk
  obtain ⟨l, hl, hil⟩ := List.mem_flatten.1 hi
  obtain ⟨r, a, b, rfl, ha, hb⟩ := exists_comparison_of_mem hcs l hl i hil
  exact (ha.of_mem_comparison hb hki).1

theorem forall_mem_allLists :
    (∀ l ∈ allLists cs, P l) ↔ (∀ l ∈ boundLists cs, P l) ∧
      ∀ k ∈ Inequality.allUnknowns (boundLists cs).flatten, k.isNumber = true → P [sizeEquation k] := by
  have hsize : ∀ k l, sizeList k = some l ↔ k.isNumber = true ∧ [sizeEquation k] = l := by
    intro k l
    unfold sizeList
    by_cases hk : k.isNumber = true <;> simp [hk]
  rw [allLists, List.forall_mem_append]
  refine and_congr_right fun _ => ?_
  simp only [List.mem_filterMap, hsize]
  constructor
  · exact fun hall k hk hnumber => hall _ ⟨k, hk, hnumber, rfl⟩
  · rintro hall _ ⟨k, hk, hnumber, rfl⟩
    exact hall k hk hnumber

/-- **The disjunctions can be put to the decision.** -/
theorem regular_allLists (hcs : ∀ c ∈ cs, IsComparison N c) : Regular (allLists cs) := by
  refine ⟨?_, ?_, ?_⟩
  · refine forall_mem_allLists.2 ⟨forall_mem_boundLists.2 ⟨fun c hc => ?_, fun h hh m hm => ?_⟩, ?_⟩
    · exact List.cons_ne_nil _ _
    · obtain ⟨as, rfl, hcomposed⟩ := of_mem_extremaOf hh hcs hm
      refine forall_mem_extremumLists.2 ⟨fun a ha => List.cons_ne_nil _ _, ?_⟩
      simpa [args] using hcomposed.args_ne_nil hh
    · exact fun k hk hnumber => List.cons_ne_nil _ _
  · refine forall_mem_allLists.2 ⟨fun l hl i hi => ?_, fun k hk hnumber i hi => ?_⟩
    · obtain ⟨r, a, b, rfl, -, -⟩ := exists_comparison_of_mem hcs l hl i hi
      exact nodup_monomials _
    · rw [List.mem_singleton.1 hi]
      exact nodup_monomials _
  · -- Whatever is in a longer list has the unknowns of a bound that stands alone.
    obtain ⟨hbound, hsize⟩ := forall_mem_allLists (P := (· ∈ allLists cs)).1 fun l hl => hl
    obtain ⟨hdirect, hextremum⟩ := forall_mem_boundLists.1 hbound
    refine forall_mem_allLists.2 ⟨forall_mem_boundLists.2 ⟨fun c hc i hi => ?_, fun h hh m hm => ?_⟩,
      fun k hk hnumber i hi => ?_⟩
    · rw [List.mem_singleton.1 hi]
      exact ⟨_, hdirect c hc, rfl⟩
    · obtain ⟨hside, -⟩ := forall_mem_extremumLists.1 (hextremum h hh m hm)
      refine forall_mem_extremumLists.2 ⟨fun a ha i hi => ?_, fun i hi => ?_⟩
      · rw [List.mem_singleton.1 hi]
        exact ⟨_, hside a ha, rfl⟩
      · obtain ⟨a, ha, rfl⟩ := List.mem_map.1 hi
        exact ⟨_, hside a ha, rfl⟩
    · rw [List.mem_singleton.1 hi]
      exact ⟨_, hsize k hk hnumber, rfl⟩

/-- **Points are exponents**: some point satisfies all disjunctions exactly when the comparisons hold for
some exponents. -/
theorem exists_point_iff (hcs : ∀ c ∈ cs, IsComparison N c) :
    (∃ x : Term → ℚ, ∀ l ∈ allLists cs, ∃ i ∈ l, i.holdsAt x = true) ↔
      ∃ e : Variable → ℚ, ∀ c ∈ cs, HoldsFor e c := by
  constructor
  · rintro ⟨x, hx⟩
    have hall := (holds_boundLists_iff hcs).1 (forall_mem_allLists.1 hx).1
    exact ⟨fun v => x (atom v), fun c hc => ((hcs c hc).holdsFor_iff (hall c hc).2).2 (hall c hc).1⟩
  · rintro ⟨e, he⟩
    refine ⟨degree e, forall_mem_allLists.2 ⟨(holds_boundLists_iff hcs).2 fun c hc => ?_, ?_⟩⟩
    · refine ⟨(hcs c hc).logHolds_degree_iff.2 (he c hc), fun h hh as hm => ?_⟩
      obtain ⟨_, heq, hcomposed⟩ := of_mem_extremaOf hh hcs (mem_extremaOf.2 ⟨c, hc, hm⟩)
      cases heq
      exact hcomposed.attains_degree hh e
    · intro k hk hnumber
      have hcomposed := composed_of_mem_unknowns hcs k hk
      refine ⟨_, List.mem_singleton_self _, ?_⟩
      rw [hcomposed.holdsAt_sizeEquation, hcomposed.logarithm_degree]
      exact hcomposed.degree_eq_zero hnumber e

end Lists

theorem MagnitudeState.unmarked (h : MagnitudeState N s) : Unmarked s.context.hypotheses := by
  intro t
  constructor <;> intro hmem <;> rcases h.hypotheses _ hmem with ⟨v, -, heq⟩ | ⟨r, a, b, heq, -⟩ <;>
    cases heq

/-- **What has to be refuted** in a state about orders of magnitude. -/
theorem MagnitudeState.disjunctions_eq (h : MagnitudeState N s) :
    disjunctions true s = pure (allLists (comparisons s)) := by
  have hcs := h.isComparison_of_mem
  have hsizes : (Inequality.allUnknowns (boundLists (comparisons s)).flatten).mapM
      (sizeDisjunction? s.context.hypotheses) =
      pure ((Inequality.allUnknowns (boundLists (comparisons s)).flatten).map sizeList) :=
    Outcome.mapM_eq_pure fun k hk =>
      (composed_of_mem_unknowns hcs k hk).sizeDisjunction?_eq h.unmarked
  have hcomparisons : ((scenario s).map asymptoticOf).filterMap id = comparisons s := by
    rw [List.filterMap_map]
    rfl
  have habove : ((comparisons s).flatMap maxima).eraseDups.mapM (extremumDisjunctions .le) =
      pure ((extremaOf .orderMax (comparisons s)).map (extremumLists .orderMax)) :=
    mapM_extremumDisjunctions (.inl rfl) hcs
  have hbelow : ((comparisons s).flatMap minima).eraseDups.mapM (extremumDisjunctions .ge) =
      pure ((extremaOf .orderMin (comparisons s)).map (extremumLists .orderMin)) :=
    mapM_extremumDisjunctions (.inr rfl) hcs
  unfold disjunctions
  rw [h.logHypotheses_eq, pure_bind, h.mapM_asymptotic?, pure_bind]
  simp only [hcomparisons, if_true]
  rw [mapM_logInequality hcs, pure_bind, habove, pure_bind, hbelow, pure_bind]
  change (Inequality.allUnknowns (boundLists (comparisons s)).flatten).mapM
    (sizeDisjunction? s.context.hypotheses) >>= _ = _
  rw [hsizes, pure_bind, List.filterMap_map]
  rfl

theorem MagnitudeState.isOpen (h : MagnitudeState N s) : IsOpen s := by
  constructor
  · intro hbot
    have hmem : bot ∈ s.context.hypotheses := (List.mem_filter.1 hbot).1
    rcases h.hypotheses bot hmem with ⟨v, -, heq⟩ | ⟨r, a, b, heq, -⟩ <;> cases heq
  · obtain ⟨r, a, b, hgoal, -⟩ := h.goal
    rw [hgoal]
    exact fun heq => by cases heq

/-- Every assignment of exponents that satisfies the hypotheses satisfies the goal. -/
def Valid (s : State) : Prop :=
  ∀ e : Variable → ℚ, (∀ t ∈ s.context.hypotheses, HoldsFor e t) → HoldsFor e s.goal

def NamesWritable (s : State) : Prop :=
  ∀ lists, (disjunctions true s).result = .ok lists → Inequality.Writable Term.text lists.flatten

theorem MagnitudeState.namesWritable_iff (h : MagnitudeState N s) :
    NamesWritable s ↔ Inequality.Writable Term.text (allLists (comparisons s)).flatten := by
  unfold NamesWritable
  rw [h.disjunctions_eq]
  constructor
  · exact fun hall => hall _ rfl
  · rintro hwrite _ heq
    cases heq
    exact hwrite

theorem MagnitudeState.valid_iff (h : MagnitudeState N s) :
    Valid s ↔ ¬ ∃ e : Variable → ℚ, ∀ c ∈ comparisons s, HoldsFor e c := by
  simp only [h.holdsFor_comparisons_iff, Valid, not_exists, not_and, not_not]

end Tactic
end Majorant
