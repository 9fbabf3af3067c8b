import Majorant.Proofs.Tactic.Exponents

/-!
# Equations between orders of magnitude

An equation of orders says two inequalities.
-/

namespace Majorant
namespace Tactic
open Term Proof Linear Magnitude

variable {verbose splitExtrema : Bool} {s : State} {c : Context} {a b : Term} {e : Failure}

/-- A declaration, or a comparison of two orders by any relation. -/
def DeclaresOrCompares (t : Term) : Prop :=
  (∃ v, t = declare v) ∨ ∃ r a b, t = app (.rel r) [a, b] ∧ a.isOrder = true ∧ b.isOrder = true

/-- **The hypotheses declare variables or compare orders.** -/
def ComparesOrders (c : Context) : Prop := ∀ t ∈ c.hypotheses, DeclaresOrCompares t

theorem asymptotic?_ne (ha : a.isOrder = true) (hb : b.isOrder = true) :
    asymptotic? (app (.rel .ne) [a, b]) = .fail .unanswerable := by
  simp only [asymptotic?]
  rw [ha, hb]
  rfl

theorem asymptotic?_error {t : Term} (ht : DeclaresOrCompares t)
    (h : (asymptotic? t).result = .error e) : e = .unanswerable := by
  obtain ⟨v, rfl⟩ | ⟨r, a, b, rfl, ha, hb⟩ := ht
  · rw [asymptotic?_declare (N := fun _ => True) True.intro] at h
    cases h
  · simp only [asymptotic?, ha, hb, Bool.and_self, if_true] at h
    split at h
    · cases h
      rfl
    · cases h

def considered (c : Context) : List Term :=
  (c.hypotheses.filter fun h => h.isRel || isDeclaration h).eraseDups

theorem ComparesOrders.mem_considered (hc : ComparesOrders c) {t : Term} :
    t ∈ considered c ↔ t ∈ c.hypotheses := by
  rw [considered, List.mem_eraseDups, List.mem_filter]
  refine and_iff_left_of_imp fun ht => ?_
  obtain ⟨v, rfl⟩ | ⟨r, a, b, rfl, -⟩ := hc t ht <;> rfl

theorem exists_logHypotheses (s : State) :
    ∃ rest, logHypotheses s = pure (considered s.context ++ rest) := by
  have hinsert : ∀ t, ∃ rest, insertTerm (considered s.context) t = considered s.context ++ rest := by
    intro t
    unfold insertTerm
    split
    · exact ⟨[], by simp⟩
    · exact ⟨[t], rfl⟩
  obtain ⟨g, c⟩ := s
  by_cases hrel : g.isRel = true
  · unfold isRel asRel? at hrel
    split at hrel
    · next r a b =>
      obtain ⟨rest, hrest⟩ := hinsert (app (.rel r.negate) [a, b])
      exact ⟨rest, congrArg pure hrest⟩
    · cases hrel
  · refine ⟨[], ?_⟩
    unfold logHypotheses
    rw [if_neg hrel, List.append_nil]
    rfl

theorem disjunctions_error {ts : List Term} (hts : logHypotheses s = pure ts)
    (herror : (ts.mapM asymptotic?).result = .error e) :
    (disjunctions splitExtrema s).result = .error e := by
  unfold disjunctions
  rw [hts, pure_bind]
  exact Outcome.result_bind_of_error herror _

theorem logLinearOf_error (hopen : IsOpen s) (h : (disjunctions splitExtrema s).result = .error e) :
    (logLinearOf verbose splitExtrema s).result = .error e := by
  have hguard : (s.context.statements.contains bot || s.goal = top) = false := by
    simpa [IsOpen] using hopen
  unfold logLinearOf
  rw [hguard]
  exact Outcome.result_bind_of_error h _

theorem ComparesOrders.isOpen (hc : ComparesOrders s.context) (hgoal : s.goal ≠ top) : IsOpen s := by
  refine ⟨fun hbot => ?_, hgoal⟩
  obtain ⟨v, heq⟩ | ⟨r, a, b, heq, -⟩ := hc bot (List.mem_filter.1 hbot).1 <;> cases heq

/-- **That two orders differ is refused as a hypothesis**, whatever the goal is. -/
theorem logLinearOf_of_inequation (hc : ComparesOrders s.context)
    (hmem : app (.rel .ne) [a, b] ∈ s.context.hypotheses) (ha : a.isOrder = true) (hb : b.isOrder = true)
    (hgoal : s.goal ≠ top) :
    (logLinearOf verbose splitExtrema s).result = .error .unanswerable := by
  obtain ⟨rest, hts⟩ := exists_logHypotheses s
  refine logLinearOf_error (hc.isOpen hgoal) (disjunctions_error hts ?_)
  -- the hypothesis is reached before what comes from the goal
  rw [List.mapM_append]
  refine Outcome.result_bind_of_error ?_ _
  refine Outcome.result_mapM_of_error (hc.mem_considered.2 hmem) (by rw [asymptotic?_ne ha hb]; rfl) ?_
  exact fun t ht e he => asymptotic?_error (hc t (hc.mem_considered.1 ht)) he

/-- **An equation of two orders is refused as a goal**: its negation is that they differ. -/
theorem logLinearOf_equation (hc : ComparesOrders c) (ha : a.isOrder = true) (hb : b.isOrder = true) :
    (logLinearOf verbose splitExtrema ⟨app (.rel .eq) [a, b], c⟩).result = .error .unanswerable := by
  have hts : logHypotheses ⟨app (.rel .eq) [a, b], c⟩ =
      pure (insertTerm (considered c) (app (.rel .ne) [a, b])) := rfl
  refine logLinearOf_error (ComparesOrders.isOpen hc nofun) (disjunctions_error hts ?_)
  refine Outcome.result_mapM_of_error (mem_insertTerm.2 (.inr rfl))
    (by rw [asymptotic?_ne ha hb]; rfl) ?_
  intro t ht e he
  rcases mem_insertTerm.1 ht with ht | rfl
  · exact asymptotic?_error (hc t (hc.mem_considered.1 ht)) he
  · exact asymptotic?_error (.inr ⟨_, _, _, rfl, ha, hb⟩) he

section Decided

variable {N : Variable → Prop}

def NamesDistinct (s : State) : Prop :=
  ∀ lists, (disjunctions true s).result = .ok lists →
    ∀ k ∈ Inequality.allUnknowns lists.flatten, ∀ l ∈ Inequality.allUnknowns lists.flatten,
      k.text = l.text → k = l

theorem MagnitudeState.result_disjunctions (h : MagnitudeState N s) :
    (disjunctions true s).result = .ok (allLists (comparisons s)) := by
  rw [h.disjunctions_eq]
  rfl

/-- **An inequality is proved** if it holds for all exponents and the names can be written. -/
theorem MagnitudeState.proves_iff (h : MagnitudeState N s) :
    (logLinearOf verbose true s).result = .ok [] ↔ Valid s ∧ NamesWritable s := by
  rw [logLinearOf_eq_nil_iff h.isOpen h.result_disjunctions,
    (regular_allLists h.isComparison_of_mem).forall_refutable_iff,
    exists_point_iff h.isComparison_of_mem, h.valid_iff, h.namesWritable_iff, and_comm]

theorem feasibility_error {is : List LogInequality} (hkeys : ∀ i ∈ is, i.unknowns.Nodup)
    (h : (feasibility Term.text is).result = .error e) :
    e = .unencodable ∧ ¬ Inequality.Writable Term.text is ∨
      e = .neitherFeasible ∧ ¬ ((Inequality.allUnknowns is).map Term.text).Nodup := by
  by_cases hwrite : Inequality.Writable Term.text is
  · right
    by_cases hfeasible : Inequality.Feasible is
    · rcases feasibility_of_feasible hkeys hwrite hfeasible with ⟨values, hpoint⟩ | hfail
      · rw [hpoint] at h
        cases h
      · rw [hfail] at h
        cases h
        refine ⟨rfl, fun hnames => ?_⟩
        obtain ⟨values, hpoint, -⟩ :=
          feasibility_of_feasibleByName hwrite (feasibleByName_of_feasible hnames hfeasible)
        rw [hfail] at hpoint
        cases hpoint
    · obtain ⟨ms, hms, -⟩ := feasibility_of_not_feasible hkeys hwrite hfeasible
      rw [hms] at h
      cases h
  · rw [feasibility_of_not_writable hwrite] at h
    cases h
    exact .inl ⟨rfl, hwrite⟩

theorem decideChoices_error {cs : List (List LogInequality)}
    (h : (decideChoices cs).result = .error e) :
    ∃ is ∈ cs, (feasibility Term.text is).result = .error e := by
  induction cs with
  | nil => cases h
  | cons is cs ih =>
    unfold decideChoices at h
    rcases Outcome.result_bind_eq_error.1 h with h | ⟨d, -, h⟩
    · exact ⟨is, List.mem_cons_self, h⟩
    · split at h
      · cases h
      · rcases Outcome.result_bind_eq_error.1 h with h | ⟨ds, -, h⟩
        · obtain ⟨js, hjs, h⟩ := ih h
          exact ⟨js, List.mem_cons_of_mem is hjs, h⟩
        · cases h

/-- **The decision of an inequality is refused for the names only**: one cannot be written, or two
unknowns share one. -/
theorem MagnitudeState.error_cases (h : MagnitudeState N s)
    (herror : (logLinearOf verbose true s).result = .error e) :
    e = .unencodable ∧ ¬ NamesWritable s ∨ e = .neitherFeasible ∧ ¬ NamesDistinct s := by
  have hregular := regular_allLists h.isComparison_of_mem
  rw [result_logLinearOf h.isOpen h.result_disjunctions] at herror
  rcases Outcome.result_bind_eq_error.1 herror with herror | ⟨ds, -, herror⟩
  · obtain ⟨is, his, herror⟩ := decideChoices_error herror
    have hkeys : ∀ i ∈ is, i.unknowns.Nodup := by
      intro i hi
      obtain ⟨l, hl, hil⟩ := exists_of_mem_choice his i hi
      exact hregular.nodup l hl i hil
    rcases feasibility_error hkeys herror with ⟨rfl, hwrite⟩ | ⟨rfl, hnames⟩
    · exact .inl ⟨rfl, fun hall => hwrite ((hregular.writable_iff his).2 (h.namesWritable_iff.1 hall))⟩
    · refine .inr ⟨rfl, fun hdistinct => hnames ?_⟩
      -- the unknowns of a choice are among all the unknowns
      have hmem : ∀ k ∈ Inequality.allUnknowns is,
          k ∈ Inequality.allUnknowns (allLists (comparisons s)).flatten := by
        intro k hk
        obtain ⟨i, hi, hki⟩ := mem_allUnknowns.1 hk
        obtain ⟨l, hl, hil⟩ := exists_of_mem_choice his i hi
        exact mem_allUnknowns.2 ⟨i, List.mem_flatten.2 ⟨l, hl, hil⟩, hki⟩
      refine List.Nodup.map_on (fun k hk l hl htext => ?_) (nodup_allUnknowns is)
      exact hdistinct _ h.result_disjunctions k (hmem k hk) l (hmem l hl) htext
  · rw [result_conclude] at herror
    cases herror

def Proves (verbose : Bool) (s : State) : Prop := (logLinearOf verbose true s).result = .ok []

variable {before after : Context} {name : String} {r : Rel} {x y : Term}

/-- Hypotheses that can be used: declarations, and comparisons that do not say that orders differ. -/
def Usable (N : Variable → Prop) (c : Context) : Prop :=
  ∀ t ∈ c.hypotheses, (∃ v, N v ∧ t = declare v) ∨ IsComparison N t

theorem Usable.magnitudeState (hc : Usable N c) (heq : r ≠ .eq) (hne : r ≠ .ne) (hx : Composed N x)
    (hy : Composed N y) : MagnitudeState N ⟨app (.rel r) [x, y], c⟩ :=
  ⟨⟨r, x, y, rfl, heq, hne, hx, hy⟩, hc⟩

theorem mem_hypotheses_insert {t u : Term} :
    t ∈ Context.hypotheses (before ++ (name, u) :: after) ↔
      t = u ∨ t ∈ Context.hypotheses (before ++ after) := by
  simp only [Context.hypotheses, List.map_append, List.map_cons, List.mem_append, List.mem_cons]
  tauto

theorem Usable.insert (hc : Usable N (before ++ after)) (hne : r ≠ .ne) (ha : Composed N a)
    (hb : Composed N b) : Usable N (before ++ (name, app (.rel r) [a, b]) :: after) := by
  intro t ht
  rcases mem_hypotheses_insert.1 ht with rfl | ht
  · exact .inr ⟨r, a, b, rfl, hne, ha, hb⟩
  · exact hc t ht

/-- **Both inequalities are proved** if the orders have the same degree for all exponents. -/
theorem Usable.proves_both_iff (hc : Usable N c) (ha : Composed N a) (hb : Composed N b) :
    Proves verbose ⟨app (.rel .le) [a, b], c⟩ ∧ Proves verbose ⟨app (.rel .ge) [a, b], c⟩ ↔
      (∀ e, (∀ t ∈ c.hypotheses, HoldsFor e t) → degree e a = degree e b) ∧
        NamesWritable ⟨app (.rel .le) [a, b], c⟩ ∧ NamesWritable ⟨app (.rel .ge) [a, b], c⟩ := by
  have hle := hc.magnitudeState (r := .le) (by decide) (by decide) ha hb
  have hge := hc.magnitudeState (r := .ge) (by decide) (by decide) ha hb
  rw [Proves, Proves, hle.proves_iff, hge.proves_iff]
  constructor
  · rintro ⟨⟨hle, hwle⟩, hge, hwge⟩
    exact ⟨fun e he => le_antisymm (hle e he) (hge e he), hwle, hwge⟩
  · rintro ⟨hequal, hwle, hwge⟩
    exact ⟨⟨fun e he => (hequal e he).le, hwle⟩, fun e he => (hequal e he).ge, hwge⟩

/-- **A goal is proved from each of two strict inequalities** if it holds for all exponents that give the
orders different degrees. -/
theorem Usable.proves_each_iff (hc : Usable N (before ++ after)) (ha : Composed N a) (hb : Composed N b)
    (heq : r ≠ .eq) (hne : r ≠ .ne) (hx : Composed N x) (hy : Composed N y) :
    Proves verbose ⟨app (.rel r) [x, y], before ++ (name, app (.rel .lt) [a, b]) :: after⟩ ∧
        Proves verbose ⟨app (.rel r) [x, y], before ++ (name, app (.rel .gt) [a, b]) :: after⟩ ↔
      (∀ e, (∀ t ∈ Context.hypotheses (before ++ after), HoldsFor e t) →
          degree e a ≠ degree e b → r.Compares (degree e x) (degree e y)) ∧
        NamesWritable ⟨app (.rel r) [x, y], before ++ (name, app (.rel .lt) [a, b]) :: after⟩ ∧
        NamesWritable ⟨app (.rel r) [x, y], before ++ (name, app (.rel .gt) [a, b]) :: after⟩ := by
  have hvalid : ∀ r', Valid ⟨app (.rel r) [x, y], before ++ (name, app (.rel r') [a, b]) :: after⟩ ↔
      ∀ e, (∀ t ∈ Context.hypotheses (before ++ after), HoldsFor e t) →
        r'.Compares (degree e a) (degree e b) → r.Compares (degree e x) (degree e y) := by
    intro r'
    refine forall_congr' fun e => ?_
    simp only [mem_hypotheses_insert, forall_eq_or_imp, HoldsFor, and_imp]
    exact imp.swap
  have hlt : Usable N (before ++ (name, app (.rel .lt) [a, b]) :: after) := hc.insert (by decide) ha hb
  have hgt : Usable N (before ++ (name, app (.rel .gt) [a, b]) :: after) := hc.insert (by decide) ha hb
  rw [Proves, Proves, (hlt.magnitudeState heq hne hx hy).proves_iff,
    (hgt.magnitudeState heq hne hx hy).proves_iff, hvalid, hvalid]
  constructor
  · rintro ⟨⟨hlt, hwlt⟩, hgt, hwgt⟩
    exact ⟨fun e he hne => hne.lt_or_gt.elim (hlt e he) (hgt e he), hwlt, hwgt⟩
  · rintro ⟨hall, hwlt, hwgt⟩
    exact ⟨⟨fun e he h => hall e he (ne_of_lt h), hwlt⟩, fun e he h => hall e he (ne_of_gt h), hwgt⟩

end Decided

/-- **Equations and inequations of orders are refused.**

An equation of different orders is refused as a goal, and a hypothesis that two orders differ is refused
with every goal.  So neither is proved where it should be: the two inequalities of an equation are both
proved if the orders have the same degree for all exponents that satisfy the hypotheses, and a goal is
proved from each of the two strict inequalities if it holds for all exponents that satisfy the hypotheses
and give the orders different degrees.  An inequality is refused for the names of its unknowns only. -/
theorem equations_refused (hc : ComparesOrders c) (ha : a.isOrder = true) (hb : b.isOrder = true) :
    (∀ verbose splitExtrema goal, (Statement.relate .eq a b).result = .ok goal →
      (logLinearOf verbose splitExtrema ⟨goal, c⟩).result =
        if a = b then .ok [] else .error .unanswerable) ∧
    (∀ verbose splitExtrema goal before after name, c = before ++ after → goal ≠ top →
      (logLinearOf verbose splitExtrema
        ⟨goal, before ++ (name, app (.rel .ne) [a, b]) :: after⟩).result = .error .unanswerable) ∧
    ∀ N verbose, Composed N a → Composed N b → Usable N c →
      (Proves verbose ⟨app (.rel .le) [a, b], c⟩ ∧ Proves verbose ⟨app (.rel .ge) [a, b], c⟩ ↔
        (∀ e, (∀ t ∈ c.hypotheses, HoldsFor e t) → degree e a = degree e b) ∧
          NamesWritable ⟨app (.rel .le) [a, b], c⟩ ∧ NamesWritable ⟨app (.rel .ge) [a, b], c⟩) ∧
      ∀ r x y, r ≠ .eq → r ≠ .ne → Composed N x → Composed N y →
        (∀ before after name, c = before ++ after →
          (Proves verbose ⟨app (.rel r) [x, y], before ++ (name, app (.rel .lt) [a, b]) :: after⟩ ∧
              Proves verbose ⟨app (.rel r) [x, y], before ++ (name, app (.rel .gt) [a, b]) :: after⟩ ↔
            (∀ e, (∀ t ∈ c.hypotheses, HoldsFor e t) →
                degree e a ≠ degree e b → r.Compares (degree e x) (degree e y)) ∧
              NamesWritable ⟨app (.rel r) [x, y], before ++ (name, app (.rel .lt) [a, b]) :: after⟩ ∧
              NamesWritable ⟨app (.rel r) [x, y], before ++ (name, app (.rel .gt) [a, b]) :: after⟩)) ∧
        ∀ e, (logLinearOf verbose true ⟨app (.rel r) [x, y], c⟩).result = .error e →
          e = .unencodable ∧ ¬ NamesWritable ⟨app (.rel r) [x, y], c⟩ ∨
            e = .neitherFeasible ∧ ¬ NamesDistinct ⟨app (.rel r) [x, y], c⟩ := by
  refine ⟨?_, ?_, ?_⟩
  · intro verbose splitExtrema goal hgoal
    rw [Statement.relate_eq_of_isOrder ha hb] at hgoal
    obtain rfl := Except.ok.inj hgoal
    by_cases heq : a = b
    · rw [if_pos heq, if_pos heq]
      unfold logLinearOf
      rw [decide_eq_true rfl, Bool.or_true]
      rfl
    · rw [if_neg heq, if_neg heq]
      exact logLinearOf_equation hc ha hb
  · rintro verbose splitExtrema goal before after name rfl hgoal
    refine logLinearOf_of_inequation (fun t ht => ?_) (mem_hypotheses_insert.2 (.inl rfl)) ha hb hgoal
    rcases mem_hypotheses_insert.1 ht with rfl | ht
    · exact .inr ⟨.ne, a, b, rfl, ha, hb⟩
    · exact hc t ht
  · intro N verbose ha hb hc
    refine ⟨hc.proves_both_iff ha hb, fun r x y heq hne hx hy => ⟨?_, fun e he => ?_⟩⟩
    · rintro before after name rfl
      exact hc.proves_each_iff ha hb heq hne hx hy
    · exact (hc.magnitudeState heq hne hx hy).error_cases he

def twoOrders : List Variable := [⟨"A", .order⟩, ⟨"B", .order⟩]

def betweenOrders (r : Rel) : Term := app (.rel r) (twoOrders.map var)

theorem usable_betweenOrders (hyps : List (String × Rel)) (h : ∀ p ∈ hyps, p.2 ≠ .ne) :
    Usable (· ∈ twoOrders) (hyps.map fun p => (p.1, betweenOrders p.2)) := by
  intro t ht
  simp only [Context.hypotheses, List.map_map, List.mem_map] at ht
  obtain ⟨p, hp, rfl⟩ := ht
  exact .inr ⟨p.2, _, _, rfl, h p hp, .order (by decide) rfl, .order (by decide) rfl⟩

theorem comparesOrders_betweenOrders (hyps : List (String × Rel)) :
    ComparesOrders (hyps.map fun p => (p.1, betweenOrders p.2)) := by
  intro t ht
  simp only [Context.hypotheses, List.map_map, List.mem_map] at ht
  obtain ⟨p, -, rfl⟩ := ht
  exact .inr ⟨p.2, _, _, rfl, rfl, rfl⟩

/-- From `A <= B` and `A >= B` both inequalities are proved, and `A = B` is refused.  From `A <= B` with
`A < B`, and also with `A > B`, the goal `A < B` is proved; with `A` and `B` different it is refused. -/
theorem twoOrders_refused :
    Proves false ⟨betweenOrders .le, [("h", betweenOrders .le), ("k", betweenOrders .ge)]⟩ ∧
    Proves false ⟨betweenOrders .ge, [("h", betweenOrders .le), ("k", betweenOrders .ge)]⟩ ∧
    (logLinearOf false true
      ⟨betweenOrders .eq, [("h", betweenOrders .le), ("k", betweenOrders .ge)]⟩).result =
        .error .unanswerable ∧
    Proves false ⟨betweenOrders .lt, [("h", betweenOrders .le), ("n", betweenOrders .lt)]⟩ ∧
    Proves false ⟨betweenOrders .lt, [("h", betweenOrders .le), ("n", betweenOrders .gt)]⟩ ∧
    (logLinearOf false true
      ⟨betweenOrders .lt, [("h", betweenOrders .le), ("n", betweenOrders .ne)]⟩).result =
        .error .unanswerable := by
  have ha : Composed (· ∈ twoOrders) (var ⟨"A", .order⟩) := .order (by decide) rfl
  have hb : Composed (· ∈ twoOrders) (var ⟨"B", .order⟩) := .order (by decide) rfl
  have hnames : ∀ v, v ∈ twoOrders → encodable v.name = true := by decide
  have hboth : Usable (· ∈ twoOrders) _ :=
    usable_betweenOrders [("h", .le), ("k", .ge)] (by decide)
  have hone : Usable (· ∈ twoOrders) _ := usable_betweenOrders [("h", .le)] (by decide)
  obtain ⟨hequation, -, hdecided⟩ := equations_refused
    (comparesOrders_betweenOrders [("h", .le), ("k", .ge)]) ha.isOrder hb.isOrder
  obtain ⟨-, hinequation, hdecided'⟩ := equations_refused
    (comparesOrders_betweenOrders [("h", .le)]) ha.isOrder hb.isOrder
  have hwritable : ∀ r c, r ≠ .eq → r ≠ .ne → Usable (· ∈ twoOrders) c →
      NamesWritable ⟨betweenOrders r, c⟩ := fun r c heq hne hc =>
    (hc.magnitudeState heq hne ha hb).namesWritable hnames
  obtain ⟨hle, hge⟩ := (hdecided _ false ha hb hboth).1.2
    ⟨fun e he => le_antisymm (he _ (.head _)) (he _ (.tail _ (.head _))),
      hwritable .le _ (by decide) (by decide) hboth, hwritable .ge _ (by decide) (by decide) hboth⟩
  obtain ⟨hlt, hgt⟩ := (((hdecided' _ false ha hb hone).2 .lt _ _ (by decide) (by decide) ha hb).1
    [("h", betweenOrders .le)] [] "n" rfl).2
    ⟨fun e he hne => lt_of_le_of_ne (he _ (.head _)) hne,
      hwritable .lt _ (by decide) (by decide)
        (usable_betweenOrders [("h", .le), ("n", .lt)] (by decide)),
      hwritable .lt _ (by decide) (by decide)
        (usable_betweenOrders [("h", .le), ("n", .gt)] (by decide))⟩
  have hgoal : (Statement.relate .eq (var ⟨"A", .order⟩) (var ⟨"B", .order⟩)).result =
      .ok (betweenOrders .eq) := by
    rw [Statement.relate_eq_of_isOrder ha.isOrder hb.isOrder]
    rfl
  refine ⟨hle, hge, hequation false true _ hgoal, hlt, hgt, ?_⟩
  exact hinequation false true _ [("h", betweenOrders .le)] [] "n" rfl nofun

end Tactic
end Majorant
