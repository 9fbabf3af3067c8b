import Majorant.Proofs.Session.Scope

/-!
# Names in sessions

Each hypothesis of a proof state has a name of its own, and a declaration stands under the name of its
variable.  This rests on statements being *plain*: there are no declarations inside them.
-/

namespace Majorant
open Term Outcome Proof

def Alphabet.plain : Alphabet := ⟨fun _ => True, True, False⟩

theorem Term.Over.isDeclaration_eq_false {t : Term} (ht : t.Over .plain) : isDeclaration t = false := by
  unfold isDeclaration
  split
  · exact ((over_app.1 ht).2.1 rfl).elim
  · rfl

theorem Term.Over.plain_of_insert {t : Term} {v : Variable} (ht : t.Over (Alphabet.plain.insert v)) :
    t.Over .plain := by
  have hletters : ∀ u, (Alphabet.plain.insert v).letters u → Alphabet.plain.letters u :=
    fun _ _ => trivial
  exact ht.mono hletters id id

namespace Proof.Context

variable {c d : Context} {name : String} {t : Term}

/-- **Each name stands once, and declarations stand under the names of their variables.** -/
structure Coherent (c : Context) : Prop where
  names : c.names.Nodup
  declared : ∀ p ∈ c, isDeclaration p.2 = true → ∃ k, p.2 = Proof.declare ⟨p.1, k⟩

theorem Coherent.eq_of_name_eq (hc : c.Coherent) {v w : Variable} (hv : var v ∈ c.declaredVariables)
    (hw : var w ∈ c.declaredVariables) (hname : v.name = w.name) : v = w := by
  obtain ⟨n, hn⟩ := mem_declaredVariables.1 hv
  obtain ⟨m, hm⟩ := mem_declaredVariables.1 hw
  obtain ⟨k, hk⟩ := hc.declared _ hn rfl
  obtain ⟨l, hl⟩ := hc.declared _ hm rfl
  have hvn : v = ⟨n, k⟩ := by simpa [Proof.declare] using hk
  have hwm : w = ⟨m, l⟩ := by simpa [Proof.declare] using hl
  have hnm : n = m := by simpa [hvn, hwm] using hname
  subst hnm
  -- Both declarations stand under one name, and a name stands for one hypothesis.
  have heq := eq_of_mem hc.names hn hm rfl
  simpa using heq.symm

def Plain (c : Context) : Prop := ∀ p ∈ c, isDeclaration p.2 = false → p.2.Over .plain

/-- **Nothing is overwritten**: the hypotheses are the same, or there is one more under a name that has
not been in use. -/
def Gains (c d : Context) : Prop := d = c ∨ ∃ p, c.contains p.1 = false ∧ d = c ++ [p]

theorem Coherent.concat (hc : c.Coherent) (hfree : c.contains name = false)
    (ht : isDeclaration t = true → ∃ k, t = Proof.declare ⟨name, k⟩) : Coherent (c ++ [(name, t)]) where
  names := nodup_names_concat hc.names hfree t
  declared := List.forall_mem_append.2 ⟨hc.declared, List.forall_mem_singleton.2 ht⟩

theorem Plain.concat (hc : c.Plain) (ht : isDeclaration t = false → t.Over .plain) :
    Plain (c ++ [(name, t)]) :=
  List.forall_mem_append.2 ⟨hc, List.forall_mem_singleton.2 ht⟩

theorem Keeps.coherent (hkeeps : c.Keeps .plain d) (hc : c.Coherent) : d.Coherent where
  names := hkeeps.names
  declared p hp hdecl := by
    rcases hkeeps.entries p hp with hp | hp
    · exact hc.declared p hp hdecl
    · rw [hp.isDeclaration_eq_false] at hdecl
      cases hdecl

theorem Keeps.plain (hkeeps : c.Keeps .plain d) (hc : c.Plain) : d.Plain := by
  intro p hp hdecl
  rcases hkeeps.entries p hp with hp | hp
  · exact hc p hp hdecl
  · exact hp

theorem declaredVariables_mapM {f : String × Term → Outcome (String × Term)}
    (hf : ∀ p ∈ c, (f p).Yields fun q => declared? q.2 = declared? p.2) :
    (c.mapM f).Yields fun d => declaredVariables d = c.declaredVariables := by
  intro d hd
  have hall := result_mapM_eq_ok.1 hd
  clear hd
  induction hall with
  | nil => rfl
  | cons hq _ ih =>
    obtain ⟨hp, hrest⟩ := List.forall_mem_cons.1 hf
    have htail := ih hrest
    unfold declaredVariables at htail ⊢
    rw [List.filterMap_cons, List.filterMap_cons, hp _ hq, htail]

end Proof.Context

/-- The names of the state are coherent, and its goal and statements are plain. -/
structure Proof.State.Coherent (s : State) : Prop where
  context : s.context.Coherent
  plain : s.context.Plain
  goal : s.goal.Over .plain

theorem Proof.State.Coherent.over {s : State} (hs : s.Coherent) : s.Over .plain where
  goal := hs.goal
  statements := hs.plain
  names := hs.context.names

namespace Tactic
open Proof.Context

variable {s s' : State} {t : Term} {name : String}

/-- **Where the hypotheses stand that a tactic adds**: behind those that were there before.  A hypothesis
that is split is gone, and when a term is abbreviated it is replaced in the others. -/
def Extends (s s' : State) : Tactic → Prop
  | byCases _ _ | claim _ _ | applyTheta _ _ | useLemma _ _ => ∃ added, s'.context = s.context ++ added
  | splitHypothesis hyp _ =>
    s'.context = s.context ∨ ∃ added, s'.context = s.context.erase hyp ++ added
  | introduce _ _ => ∃ v e, isDeclaration e.2 = false ∧
      s'.context = s.context ++ [(v.name, declare v), e]
  | abbreviate _ t => ∃ v d e, isDeclaration e.2 = false ∧ d.names = s.context.names ∧
      (replaceInContext t (var v) s.context).result = .ok d ∧
      s'.context = d ++ [(v.name, declare v), e]
  | _ => True

theorem context_put_fresh (s : State) (name : String) (t : Term) :
    (s.put (s.fresh name) t).context = s.context ++ [(s.fresh name, t)] :=
  put_of_not_contains (not_contains_fresh s.context name)

theorem context_addAll (fallback : String) (names : List String) (ts : List Term) (s : State) :
    ∃ added, (addAll fallback names ts s).context = s.context ++ added := by
  induction ts generalizing names s with
  | nil => exact ⟨[], by cases names <;> simp [addAll]⟩
  | cons t ts ih =>
    have hnext : ∀ n names, ∃ added,
        (addAll fallback names ts (s.add n t).2).context = s.context ++ added := by
      intro n names
      obtain ⟨added, hadded⟩ := ih names (s.add n t).2
      refine ⟨(s.fresh n, t) :: added, hadded.trans ?_⟩
      rw [State.add, context_put_fresh, List.append_assoc]
      rfl
    cases names with
    | nil => exact hnext fallback []
    | cons n names => exact hnext n names

theorem extends_splitHypothesis (hyp : String) (names : List String) (s : State) :
    (splitHypothesisOf hyp names s).Yields fun states => ∀ s' ∈ states,
      Extends s s' (.splitHypothesis hyp names) := by
  have hself : ∀ s' ∈ [s], Extends s s' (.splitHypothesis hyp names) :=
    List.forall_mem_singleton.2 (.inl rfl)
  unfold splitHypothesisOf
  split
  · refine yields_bind fun parts => ?_
    split
    · refine yields_bind fun _ => yields_bind_of_result fun rest hrest => yields_pure ?_
      have hcontext : rest.context = s.context.erase hyp := by
        unfold State.remove at hrest
        split at hrest
        · cases hrest
        · split at hrest
          · cases hrest
          · cases hrest
            rfl
      obtain ⟨added, hadded⟩ := context_addAll hyp names _ rest
      exact List.forall_mem_singleton.2 (.inr ⟨added, hadded.trans (by rw [hcontext])⟩)
    · exact yields_bind fun _ => yields_pure hself
  · exact yields_bind fun _ => yields_pure hself

theorem extends_claim (t : Term) (name : String) (s : State) :
    (claimOf t name s).Yields fun states => ∀ s' ∈ states, Extends s s' (.claim t name) := by
  have hfirst : Extends s (s.withGoal t) (.claim t name) := ⟨[], (List.append_nil _).symm⟩
  have hsecond : Extends s (s.put (s.fresh name) t) (.claim t name) := ⟨_, context_put_fresh s name t⟩
  refine yields_bind fun _ => yields_bind fun _ => yields_bind fun _ => yields_bind fun holds =>
    yields_bind fun enough => ?_
  cases holds <;> cases enough <;> refine yields_bind fun _ => yields_pure ?_
  · exact List.forall_mem_cons.2 ⟨hfirst, List.forall_mem_singleton.2 hsecond⟩
  · exact List.forall_mem_singleton.2 hfirst
  · exact List.forall_mem_singleton.2 hsecond
  · exact List.forall_mem_nil _

theorem extends_applyTheta (hyp : String) (newName : Option String) (s : State) :
    (applyThetaOf hyp newName s).Yields fun states => ∀ s' ∈ states,
      Extends s s' (.applyTheta hyp newName) := by
  unfold applyThetaOf
  split
  · exact yields_fail _
  · split
    · exact yields_fail _
    · exact yields_bind fun _ => yields_bind fun _ => yields_bind fun _ => yields_bind fun t =>
        yields_bind fun _ => yields_pure
          (List.forall_mem_singleton.2 ⟨_, context_put_fresh s _ t⟩)

/-- **What tactics add**, whatever the state is. -/
theorem extends_run (tactic : Tactic) (s : State) :
    (tactic.run s).Yields fun states => ∀ s' ∈ states, tactic.Extends s s' := by
  cases tactic with
  | byCases t name =>
    refine (yields_byCasesOf t name s).mono ?_
    rintro states ⟨-, opposite, rfl⟩
    exact List.forall_mem_cons.2 ⟨⟨_, context_put_fresh s name t⟩,
      List.forall_mem_singleton.2 ⟨_, context_put_fresh s name opposite⟩⟩
  | claim t name => exact extends_claim t name s
  | applyTheta hyp newName => exact extends_applyTheta hyp newName s
  | useLemma name l =>
    exact yields_bind fun t => yields_bind fun _ => yields_pure
      (List.forall_mem_singleton.2 ⟨_, context_put_fresh s name t⟩)
  | splitHypothesis hyp names => exact extends_splitHypothesis hyp names s
  | introduce name t =>
    refine (yields_introduceOf name t s).mono ?_
    rintro states ⟨-, v, u, -, hu, rfl⟩
    exact List.forall_mem_singleton.2 ⟨v, _, isDeclaration_relate hu, rfl⟩
  | abbreviate name t =>
    refine (yields_abbreviateOf name t s).mono ?_
    rintro states ⟨-, v, u, d, goal, -, hu, hd, -, rfl⟩
    exact List.forall_mem_singleton.2 ⟨v, d, _, isDeclaration_relate hu,
      names_replaceInContext t (var v) s.context d hd, hd, rfl⟩
  | _ => exact fun _ _ _ _ => True.intro

def introduces : Tactic → Bool
  | introduce _ _ | abbreviate _ _ => true
  | _ => false

/-- **A variable that is introduced is the only new one.** -/
theorem declaredVariables_of_introduces (hs : s.Coherent) {tactic : Tactic}
    (hintroduces : tactic.introduces = true) (h : tactic.Extends s s') :
    ∃ v, s'.declaredVariables = s.declaredVariables ++ [var v] := by
  have hadded : ∀ {d v e}, isDeclaration e.2 = false → s'.context = d ++ [(v.name, declare v), e] →
      s'.declaredVariables = d.declaredVariables ++ [var v] := by
    intro d v e he hcontext
    have hnew : declared? (declare v) = some (var v) := rfl
    rw [State.declaredVariables, hcontext]
    simp [declaredVariables, declared?_eq_none he, hnew]
  cases tactic with
  | introduce name t =>
    obtain ⟨v, e, he, hcontext⟩ := h
    exact ⟨v, hadded he hcontext⟩
  | abbreviate name t =>
    obtain ⟨v, d, e, he, -, hd, hcontext⟩ := h
    -- Replacing a term in plain statements leaves plain statements.
    have hsame : d.declaredVariables = s.declaredVariables := by
      refine declaredVariables_mapM (fun p hp => ?_) d hd
      cases hdecl : isDeclaration p.2 with
      | true => exact yields_pure rfl
      | false =>
        refine (Substitution.staysOver_replace (.var True.intro) (hs.plain p hp hdecl)).bind fun u hu => ?_
        exact yields_pure ((declared?_eq_none hu.isDeclaration_eq_false).trans
          (declared?_eq_none hdecl).symm)
    exact ⟨v, hsame ▸ hadded he hcontext⟩
  | _ => cases hintroduces

/-- **Declarations stay.**  Only a sign that is noted changes the kind of a variable. -/
def KeepsDeclarations (s s' : State) (tactic : Tactic) : Prop :=
  ∀ v : Variable, (v.name, declare v) ∈ s.context →
    (∃ k, (v.name, declare ⟨v.name, k⟩) ∈ s'.context) ∧
      ((∀ fact target, tactic ≠ .noteSign fact target) → (v.name, declare v) ∈ s'.context)

theorem keepsDeclarations_of_subset {tactic : Tactic}
    (h : ∀ p ∈ s.context, isDeclaration p.2 = true → p ∈ s'.context) :
    tactic.KeepsDeclarations s s' :=
  fun v hv => ⟨⟨v.kind, h _ hv rfl⟩, fun _ => h _ hv rfl⟩

theorem Introduced.coherent (hs : s.Coherent) {v : Variable} {d : Context} {e : String × Term}
    (h : Introduced .plain s s' v d e) : s'.Coherent := by
  have hkeeps : s.context.Keeps .plain d :=
    ⟨h.keeps.declared, fun p hp => (h.keeps.entries p hp).imp_right Over.plain_of_insert, h.keeps.names⟩
  refine ⟨⟨h.names, ?_⟩, ?_, h.goal.plain_of_insert⟩
  · rw [h.context]
    refine List.forall_mem_append.2 ⟨(hkeeps.coherent hs.context).declared, ?_⟩
    refine List.forall_mem_cons.2 ⟨fun _ => ⟨v.kind, rfl⟩, List.forall_mem_singleton.2 fun hdecl => ?_⟩
    rw [h.statement] at hdecl
    cases hdecl
  · rw [h.context]
    refine List.forall_mem_append.2 ⟨hkeeps.plain hs.plain, ?_⟩
    exact List.forall_mem_cons.2 ⟨nofun, List.forall_mem_singleton.2 fun _ => h.equation.plain_of_insert⟩

theorem Retyped.entry (hs : s.Coherent) {v : Term} {new : Variable} {p q : String × Term}
    (hmem : (name, app .declared [v]) ∈ s.context) (hp : p ∈ s.context) (hname : p.1 ≠ name)
    (hq : (Substitution.replace v (var new) p.2).result = .ok q.2) (hpq : q.1 = p.1) :
    q = p ∨ q.2.Over .plain := by
  obtain ⟨k, hk⟩ := hs.context.declared _ hmem rfl
  have hv : v = var ⟨name, k⟩ := by simpa [declare] using hk
  subst hv
  -- Another declaration is about a variable with another name, so the replacement passes it by.
  cases hdecl : isDeclaration p.2 with
  | false => exact .inr (Substitution.staysOver_replace (.var True.intro) (hs.plain p hp hdecl) q.2 hq)
  | true =>
    obtain ⟨l, hl⟩ := hs.context.declared p hp hdecl
    have hne : var ⟨p.1, l⟩ ≠ var ⟨name, k⟩ := by simp [hname]
    rw [hl, replace_declare rfl hne] at hq
    exact .inl (Prod.ext hpq ((Except.ok.inj hq).symm.trans hl.symm))

/-- **A sign has been noted**: the variable is declared with its new kind under its old name. -/
theorem Retyped.coherent (hs : s.Coherent) {v goal : Term} {new : Variable} {d : Context}
    (hmem : (name, app .declared [v]) ∈ s.context) (hnew : new.name = name)
    (h : Retyped name v new s.context d)
    (hgoal : (Substitution.replace v (var new) s.goal).result = .ok goal) :
    State.Coherent ⟨goal, d⟩ := by
  have hentry : ∀ q ∈ d, q = (name, declare new) ∨ q ∈ s.context ∨ q.2.Over .plain := by
    intro q hq
    rcases h.entries q hq with rfl | ⟨p, hp, hname, hpq, hq⟩
    · exact .inl rfl
    · rcases Retyped.entry hs hmem hp hname hq hpq with rfl | hplain
      · exact .inr (.inl hp)
      · exact .inr (.inr hplain)
  refine ⟨⟨h.names.symm ▸ hs.context.names, fun q hq hdecl => ?_⟩, fun q hq hdecl => ?_,
    Substitution.staysOver_replace (.var True.intro) hs.goal goal hgoal⟩
  · rcases hentry q hq with rfl | hq | hq
    · subst hnew
      exact ⟨new.kind, rfl⟩
    · exact hs.context.declared q hq hdecl
    · rw [hq.isDeclaration_eq_false] at hdecl
      cases hdecl
  · rcases hentry q hq with rfl | hq | hq
    · cases hdecl
    · exact hs.plain q hq hdecl
    · exact hq

theorem Retyped.keepsDeclarations (hs : s.Coherent) {v goal : Term} {new : Variable} {d : Context}
    (hmem : (name, app .declared [v]) ∈ s.context) (hnew : new.name = name)
    (h : Retyped name v new s.context d) (fact : SignFact) (target : Target) :
    (noteSign fact target).KeepsDeclarations s ⟨goal, d⟩ := by
  intro u hu
  refine ⟨?_, fun hne => absurd rfl (hne fact target)⟩
  by_cases hname : u.name = name
  · refine ⟨new.kind, ?_⟩
    have hdeclared := h.declared
    rw [← hnew] at hdeclared
    rwa [hname, ← hnew]
  · -- Variables with other names are other variables.
    obtain ⟨k, hk⟩ := hs.context.declared _ hmem rfl
    refine ⟨u.kind, h.others u u.name hu hname ?_⟩
    rintro rfl
    have hu' : u = ⟨name, k⟩ := by simpa [declare] using hk
    exact hname (congrArg Variable.name hu')

/-- **What one tactic keeps**: names stay coherent, and declarations stay. -/
theorem coherent_run (hs : s.Coherent) {tactic : Tactic} (hbrings : tactic.Brings .plain s) :
    (tactic.run s).Yields fun states => ∀ s' ∈ states,
      s'.Coherent ∧ tactic.KeepsDeclarations s s' := by
  cases hdeclares : tactic.declares with
  | false =>
    refine (leaves_run hs.over hbrings hdeclares).mono fun states hstates s' hs' => ?_
    obtain ⟨hgoal, hkeeps⟩ := hstates s' hs'
    exact ⟨⟨hkeeps.coherent hs.context, hkeeps.plain hs.plain, hgoal⟩,
      keepsDeclarations_of_subset hkeeps.declared⟩
  | true =>
    have hintroduced : ∀ {tactic : Tactic} {s' v d e}, Introduced .plain s s' v d e →
        s'.Coherent ∧ tactic.KeepsDeclarations s s' := by
      intro tactic s' v d e h
      refine ⟨h.coherent hs, keepsDeclarations_of_subset fun p hp hdecl => ?_⟩
      rw [h.context]
      exact List.mem_append_left _ (h.keeps.declared p hp hdecl)
    cases tactic with
    | introduce name t =>
      refine (introduced_introduce hs.over hbrings name).mono fun states hstates s' hs' => ?_
      obtain ⟨v, e, h⟩ := hstates s' hs'
      exact hintroduced h
    | abbreviate name t =>
      refine (introduced_abbreviate hs.over hbrings name).mono fun states hstates s' hs' => ?_
      obtain ⟨v, d, e, -, h⟩ := hstates s' hs'
      exact hintroduced h
    | noteSign fact target =>
      refine (yields_noteSignOf fact target s).mono ?_
      rintro states (rfl | ⟨name, v, new, d, goal, hmem, hv, hnew, hd, hgoal, rfl | rfl⟩)
      · exact List.forall_mem_singleton.2 ⟨hs, keepsDeclarations_of_subset fun p hp _ => hp⟩
      · exact List.forall_mem_nil _
      · have h := retyped_mapM hmem hv hd
        exact List.forall_mem_singleton.2
          ⟨h.coherent hs hmem hnew hgoal, h.keepsDeclarations hs hmem hnew fact target⟩
    | _ => cases hdeclares

end Tactic

namespace Session

/-- There are no declarations in the terms that are handed over. -/
def Call.Plain : Call → Session → Prop
  | .assume t _, _ => t.Over .plain
  | .begin goal, _ => goal.Over .plain
  | .command c, s => ∀ tactic u, Applies c s tactic u → tactic.Brings .plain u
  | _, _ => True

theorem staysOver_statementOf {goal : Term} {V : Alphabet} (h : goal.Over V) :
    (statementOf goal).StaysOver V :=
  yields_ite (yields_pure h) (staysOver_ofLiteral h)

theorem inductive_coherent :
    Inductive Call.Plain (fun c => c.Coherent ∧ c.Plain) State.Coherent where
  nil := ⟨⟨List.nodup_nil, List.forall_mem_nil _⟩, List.forall_mem_nil _⟩
  declare := by
    intro c v name hc hv
    have hfree : c.contains v.name = false := hv ▸ Context.not_contains_fresh c name
    exact ⟨hc.1.concat hfree fun _ => ⟨v.kind, rfl⟩, hc.2.concat nofun⟩
  assume := by
    intro s t name ht hc hstatement _
    refine ⟨hc.1.concat (Context.not_contains_fresh s.assumptions name) fun hdecl => ?_,
      hc.2.concat fun _ => ht⟩
    rw [isDeclaration_of_isStatement hstatement] at hdecl
    cases hdecl
  begin := fun hgoal hc hg _ _ => ⟨hc.1, hc.2, staysOver_statementOf hgoal _ hg⟩
  apply := fun hallowed hu hs => (Tactic.coherent_run hs (hallowed _ _ hu)).mono
    fun _ hstates s' hs' => (hstates s' hs').1

/-- The hypotheses are the assumptions of the session or those of a node. -/
def HasContext (s : Session) (c : Context) : Prop :=
  c = s.assumptions ∨ ∃ t p n, s.tree = some t ∧ t.get? p = some n ∧ c = n.state.context

/-- **Names and declarations stay coherent**, whatever has been asked of a session, as long as there are
no declarations inside the terms that were handed over.  Among the assumptions and in the state of every
node each name stands once, every declaration stands under the name of its variable, and variables with
the same name are the same.  Declaring and assuming overwrite nothing.  A tactic that is used on a node
leaves coherent states; it removes no declaration, the hypotheses it adds stand behind the others, and if
it introduces a variable, this is the only new one. -/
theorem names_stay_coherent (s : Session) (h : ReachedBy Call.Plain s) :
    (∀ c, s.HasContext c → c.Coherent ∧ ∀ v w : Variable, .var v ∈ c.declaredVariables →
      .var w ∈ c.declaredVariables → v.name = w.name → v = w) ∧
    (∀ kind name, s.assumptions.Gains (declare kind name s).2.assumptions) ∧
    (∀ t name, s.assumptions.Gains (assume t name s).2.assumptions) ∧
    ∀ t p n (tactic : Tactic) states, s.tree = some t → t.get? p = some n →
      tactic.Brings .plain n.state → (tactic.run n.state).result = .ok states → ∀ u ∈ states,
        u.context.Coherent ∧ tactic.KeepsDeclarations n.state u ∧ tactic.Extends n.state u ∧
          (tactic.introduces = true →
            ∃ v, u.declaredVariables = n.state.declaredVariables ++ [.var v]) := by
  have hcoherent := inductive_coherent.throughout h
  refine ⟨fun c hc => ?_, fun kind name => ?_, fun t name => ?_, ?_⟩
  · have hc' : c.Coherent := by
      rcases hc with rfl | ⟨t, p, n, ht, hn, rfl⟩
      · exact hcoherent.assumptions.1
      · exact (hcoherent.state ht hn).context
    exact ⟨hc', fun v w => hc'.eq_of_name_eq⟩
  · rcases declare_assumptions kind name s with heq | ⟨v, hv, heq⟩
    · exact .inl heq
    · exact .inr ⟨_, hv ▸ Context.not_contains_fresh s.assumptions name, heq⟩
  · rcases assume_assumptions t name s with heq | ⟨-, -, heq⟩
    · exact .inl heq
    · exact .inr ⟨_, Context.not_contains_fresh s.assumptions name, heq⟩
  · intro t p n tactic states ht hn hbrings hrun u hu
    have hnode := hcoherent.state ht hn
    obtain ⟨hafter, hkept⟩ := Tactic.coherent_run hnode hbrings states hrun u hu
    have hextends := Tactic.extends_run tactic n.state states hrun u hu
    exact ⟨hafter.context, hkept, hextends, fun hintroduces =>
      Tactic.declaredVariables_of_introduces hnode hintroduces hextends⟩

/-- A proof of the proposition `P`, after a case distinction whose hypothesis was to be named `P`. -/
def nameTaken : Session :=
  let p := Term.var ⟨"P", .prop⟩
  run [.use (.byCases p "P")] (begin p ((Call.declare "bool" "P").request start).2).2

/-- A proof of `P` in which `P` is assumed under the name `k`, and assumed to equal the declaration of
`y`. -/
def declarationEquated : Session :=
  let p := Term.var ⟨"P", .prop⟩
  let declared := (declare "real" "y" (declare "bool" "P" start).2).2
  (begin p (assume (.app (.rel .eq) [p, Proof.declare ⟨"y", .real⟩]) "h" (assume p "k" declared).2).2).2

/-- A variable that is to be named `P` as well gets a name of its own.  If a declaration stands inside a
statement, a substitution leaves it under the name `k`. -/
theorem nameTaken_coherent :
    ReachedBy Call.Plain nameTaken ∧
      (∃ t n u, nameTaken.tree = some t ∧ t.get? [0] = some n ∧
        ((Tactic.introduce "P" (.var ⟨"P", .prop⟩)).run n.state).result = .ok [u] ∧
          u.context.Coherent ∧ ∃ v, u.declaredVariables = n.state.declaredVariables ++ [.var v]) ∧
      ∃ t u, declarationEquated.tree = some t ∧ t.state.context.Coherent ∧
        ((Tactic.substitute "h" (some "k") false).run t.state).result = .ok [u] ∧
          ¬ u.context.Coherent := by
  have hreached : ReachedBy Call.Plain nameTaken := by
    refine .call (c := .command (.use (.byCases (.var ⟨"P", .prop⟩) "P")))
      (.call (c := .begin (.var ⟨"P", .prop⟩)) (.call (c := .declare "bool" "P") .start trivial)
        (over_var.2 trivial)) ?_
    rintro _ _ ⟨-⟩
    exact over_var.2 trivial
  refine ⟨hreached, ⟨_, _, _, rfl, rfl, rfl, ?_⟩, _, _, rfl, ?_, rfl, ?_⟩
  · have hafter := (names_stay_coherent nameTaken hreached).2.2.2 _ [0] _
      (.introduce "P" (.var ⟨"P", .prop⟩)) _ rfl rfl (fun _ => over_var.2 trivial) rfl _ (.head _)
    exact ⟨hafter.1, hafter.2.2.2 rfl⟩
  · refine ⟨by decide, List.forall_mem_cons.2 ⟨fun _ => ⟨.prop, rfl⟩, ?_⟩⟩
    refine List.forall_mem_cons.2 ⟨fun _ => ⟨.real, rfl⟩, ?_⟩
    exact List.forall_mem_cons.2 ⟨nofun, List.forall_mem_singleton.2 nofun⟩
  · intro hcoherent
    obtain ⟨k, hk⟩ := hcoherent.declared ("k", Proof.declare ⟨"y", .real⟩) (by decide) rfl
    simp [Proof.declare] at hk

end Session
end Majorant
