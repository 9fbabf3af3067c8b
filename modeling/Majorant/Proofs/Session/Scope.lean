import Majorant.Proofs.Scope.Tactic
import Majorant.Proofs.Session.Invariant

/-!
# Scope in sessions

The goal and the hypotheses of every proof state are built from the variables that are declared in it, as long
as the terms that are handed over to case distinctions, chains and announced goals are defined.
-/

namespace Majorant
open Term Outcome Proof

namespace Proof

/-- **The goal and all hypotheses are defined** in terms of the variables declared in the state. -/
def State.WellScoped (s : State) : Prop :=
  s.goal.isDefined s.declaredVariables = true ∧
    ∀ h ∈ s.context.hypotheses, h.isDefined s.declaredVariables = true

namespace Context

variable {c d : Context} {name : String} {t : Term} {v : Variable} {V : Alphabet}

def alphabet (c : Context) : Alphabet := ⟨fun v => var v ∈ c.declaredVariables, False, True⟩

theorem mem_declaredVariables {k : Term} :
    k ∈ c.declaredVariables ↔ ∃ name, (name, app .declared [k]) ∈ c := by
  unfold declaredVariables
  rw [List.mem_filterMap]
  constructor
  · rintro ⟨⟨name, h⟩, hp, hk⟩
    exact ⟨name, declared?_eq_some.1 hk ▸ hp⟩
  · rintro ⟨name, hp⟩
    exact ⟨_, hp, rfl⟩

theorem letters_alphabet : c.alphabet.letters v ↔ ∃ name, (name, Proof.declare v) ∈ c :=
  mem_declaredVariables

theorem over_declare (h : c.alphabet.letters v) : (Proof.declare v).Over c.alphabet :=
  .app nofun (fun _ => trivial) (List.forall_mem_singleton.2 (.var h))

theorem over_alphabet_of_subset (hsub : ∀ v, c.alphabet.letters v → d.alphabet.letters v)
    (ht : t.Over c.alphabet) : t.Over d.alphabet := ht.mono hsub id id

/-- **Every hypothesis is over the declared variables**, and each name stands once. -/
structure InScope (c : Context) : Prop where
  hypotheses : ∀ p ∈ c, p.2.Over c.alphabet
  names : c.names.Nodup

theorem InScope.over_of_isDefined (hc : c.InScope) (ht : t.isDefined c.declaredVariables = true) :
    t.Over c.alphabet := by
  refine Term.over_of_isDefined (fun k hk => ?_) trivial ht
  obtain ⟨name, hp⟩ := mem_declaredVariables.1 hk
  exact (hc.hypotheses _ hp).args k (.head _)

theorem isDefined_of_over (ht : t.Over c.alphabet) : t.isDefined c.declaredVariables = true :=
  ht.isDefined (fun _ hv => hv) id

theorem nodup_names_concat (hnames : c.names.Nodup) (hfree : c.contains name = false) (t : Term) :
    (c ++ [(name, t)]).names.Nodup := by
  rw [← put_of_not_contains hfree]
  exact nodup_names_put hnames name t

theorem letters_concat (p : String × Term) (hv : c.alphabet.letters v) :
    (c ++ [p]).alphabet.letters v := by
  obtain ⟨n, hn⟩ := letters_alphabet.1 hv
  exact letters_alphabet.2 ⟨n, List.mem_append_left _ hn⟩

theorem InScope.concat (hc : c.InScope) (hfree : c.contains name = false)
    (ht : t.Over (c ++ [(name, t)]).alphabet) : InScope (c ++ [(name, t)]) where
  hypotheses := by
    refine List.forall_mem_append.2 ⟨fun p hp => ?_, List.forall_mem_singleton.2 ht⟩
    exact over_alphabet_of_subset (fun v hv => letters_concat _ hv) (hc.hypotheses p hp)
  names := nodup_names_concat hc.names hfree t

theorem Keeps.letters (hkeeps : c.Keeps V d) (hv : c.alphabet.letters v) : d.alphabet.letters v := by
  obtain ⟨n, hn⟩ := letters_alphabet.1 hv
  exact letters_alphabet.2 ⟨n, hkeeps.declared _ hn rfl⟩

end Context

/-- The state as a matter of alphabets. -/
structure State.InScope (s : State) : Prop where
  context : s.context.InScope
  goal : s.goal.Over s.context.alphabet

variable {s : State}

theorem State.InScope.over (hs : s.InScope) : s.Over s.context.alphabet where
  goal := hs.goal
  statements p hp _ := hs.context.hypotheses p hp
  names := hs.context.names

theorem State.InScope.wellScoped (hs : s.InScope) : s.WellScoped := by
  refine ⟨Context.isDefined_of_over hs.goal, fun h hh => ?_⟩
  obtain ⟨p, hp, rfl⟩ := List.mem_map.1 hh
  exact Context.isDefined_of_over (hs.context.hypotheses p hp)

end Proof

namespace Tactic
open Proof.Context

variable {s s' : State} {t : Term} {name : String}

def BringsDefined (s : State) : Tactic → Prop
  | byCases t _ => t.isDefined s.declaredVariables = true
  | chain c => ∀ t ∈ c.terms, t.isDefined s.declaredVariables = true
  | outline _ goals => ∀ g, some g ∈ goals → g.isDefined s.declaredVariables = true
  | _ => True

theorem BringsDefined.brings (hs : s.InScope) {tactic : Tactic} (h : tactic.BringsDefined s) :
    tactic.Brings s.context.alphabet s := by
  have hchecked : ∀ t, Checked s.context.alphabet s t := fun _ => hs.context.over_of_isDefined
  cases tactic with
  | byCases t name => exact hchecked t h
  | chain c => exact fun t ht => hchecked t (h t ht)
  | outline label goals => exact fun g hg => hchecked g (h g hg)
  | claim t | introduce name t | abbreviate name t => exact hchecked t
  | useLemma name l => exact fun t _ => hchecked t
  | _ => trivial

theorem inScope_of_keeps (hs : s.InScope) (hgoal : s'.goal.Over s.context.alphabet)
    (hkeeps : s.context.Keeps s.context.alphabet s'.context) : s'.InScope := by
  have hover : ∀ {t : Term}, t.Over s.context.alphabet → t.Over s'.context.alphabet :=
    over_alphabet_of_subset fun _ => hkeeps.letters
  refine ⟨⟨fun p hp => ?_, hkeeps.names⟩, hover hgoal⟩
  rcases hkeeps.entries p hp with hp | hp
  · exact hover (hs.context.hypotheses p hp)
  · exact hover hp

theorem Introduced.inScope (hs : s.InScope) {v : Variable} {d : Context} {e : String × Term}
    (h : Introduced s.context.alphabet s s' v d e) : s'.InScope := by
  have hmem : ∀ {p}, p ∈ s'.context ↔ p ∈ d ∨ p = (v.name, declare v) ∨ p = e := by
    intro p
    rw [h.context]
    simp
  have hnew : s'.context.alphabet.letters v :=
    letters_alphabet.2 ⟨v.name, hmem.2 (.inr (.inl rfl))⟩
  have hold : ∀ u, s.context.alphabet.letters u → s'.context.alphabet.letters u := by
    intro u hu
    obtain ⟨n, hn⟩ := letters_alphabet.1 hu
    exact letters_alphabet.2 ⟨n, hmem.2 (.inl (h.keeps.declared _ hn rfl))⟩
  -- The equation and the goal may use the new variable, the other hypotheses only the old ones.
  have hinsert : ∀ u, (s.context.alphabet.insert v).letters u → s'.context.alphabet.letters u := by
    rintro u (rfl | hu)
    · exact hnew
    · exact hold u hu
  have hover : ∀ {t : Term}, t.Over (s.context.alphabet.insert v) → t.Over s'.context.alphabet :=
    Over.mono hinsert id id
  refine ⟨⟨fun p hp => ?_, h.names⟩, hover h.goal⟩
  rcases hmem.1 hp with hp | rfl | rfl
  · rcases h.keeps.entries p hp with hp | hp
    · exact over_alphabet_of_subset hold (hs.context.hypotheses p hp)
    · exact hover hp
  · exact over_declare hnew
  · exact hover h.equation

/-- **A sign has been noted**: where the variable of the old kind stood, the new one stands, and it is
declared. -/
theorem Retyped.inScope (hs : s.InScope) {v goal : Term} {new : Variable} {d : Context}
    (hmem : (name, app .declared [v]) ∈ s.context) (h : Retyped name v new s.context d)
    (hgoal : (Substitution.replace v (var new) s.goal).result = .ok goal) :
    State.InScope ⟨goal, d⟩ := by
  have hnew : d.alphabet.letters new := letters_alphabet.2 ⟨name, h.declared⟩
  have hothers : ∀ u, s.context.alphabet.letters u → var u ≠ v → d.alphabet.letters u := by
    intro u hu huv
    obtain ⟨n, hn⟩ := letters_alphabet.1 hu
    refine letters_alphabet.2 ⟨n, h.others u n hn ?_ huv⟩
    -- Under its own name only the term itself is declared.
    rintro rfl
    have heq := Context.eq_of_mem hs.context.names hmem hn rfl
    exact huv (by simpa [declare] using heq)
  have hreplace : ∀ {t : Term}, t.Over s.context.alphabet →
      (Substitution.replace v (var new) t).StaysOver d.alphabet := by
    intro t ht
    -- A variable is gone after the replacement; any other term may stay, and no letter is lost.
    by_cases hv : ∃ w, v = var w
    · obtain ⟨w, rfl⟩ := hv
      exact Substitution.staysOver_replace_var (fun u hu huw => hothers u hu (by simpa using huw)) id id
        (.var hnew) ht
    · refine Substitution.staysOver_replace (.var hnew) (over_alphabet_of_subset (fun u hu => ?_) ht)
      exact hothers u hu fun heq => hv ⟨u, heq.symm⟩
  refine ⟨⟨fun q hq => ?_, ?_⟩, hreplace hs.goal goal hgoal⟩
  · rcases h.entries q hq with rfl | ⟨p, hp, -, -, hq⟩
    · exact over_declare hnew
    · exact hreplace (hs.context.hypotheses p hp) q.2 hq
  · exact h.names.symm ▸ hs.context.names

theorem passesOn_inScope {tactic : Tactic} (h : tactic.BringsDefined s) :
    Session.PassesOn State.InScope tactic s := by
  intro hs
  have hbrings := h.brings hs
  cases hdeclares : tactic.declares with
  | false =>
    exact (leaves_run hs.over hbrings hdeclares).mono fun states hstates s' hs' =>
      inScope_of_keeps hs (hstates s' hs').1 (hstates s' hs').2
  | true =>
    cases tactic with
    | introduce name t =>
      refine (introduced_introduce hs.over hbrings name).mono fun states hstates s' hs' => ?_
      obtain ⟨v, e, hintroduced⟩ := hstates s' hs'
      exact hintroduced.inScope hs
    | abbreviate name t =>
      refine (introduced_abbreviate hs.over hbrings name).mono fun states hstates s' hs' => ?_
      obtain ⟨v, d, e, -, hintroduced⟩ := hstates s' hs'
      exact hintroduced.inScope hs
    | noteSign fact target =>
      refine (yields_noteSignOf fact target s).mono ?_
      rintro states (rfl | ⟨name, v, new, d, goal, hmem, hv, -, hd, hgoal, rfl | rfl⟩)
      · exact List.forall_mem_singleton.2 hs
      · exact List.forall_mem_nil _
      · exact List.forall_mem_singleton.2 ((retyped_mapM hmem hv hd).inScope hs hmem hgoal)
    | _ => cases hdeclares

theorem yields_byCasesOf (t : Term) (name : String) (s : State) :
    (byCasesOf t name s).Yields fun states => t.isStatement = true ∧ ∃ opposite,
      states = [s.put (s.fresh name) t, s.put (s.fresh name) opposite] :=
  (yields_require _ _).bind fun _ ht => yields_bind fun opposite => yields_bind fun _ =>
    yields_pure ⟨ht, opposite, rfl⟩

theorem declaredVariables_put_fresh (ht : t.isStatement = true) (name : String) (s : State) :
    (s.put (s.fresh name) t).declaredVariables = s.declaredVariables := by
  have hnone : declared? t = none := declared?_eq_none (isDeclaration_of_isStatement ht)
  change (s.context.put (s.context.fresh name) t).declaredVariables = s.context.declaredVariables
  rw [put_of_not_contains (not_contains_fresh s.context name)]
  simp [declaredVariables, hnone]

/-- **A case distinction leaves well scoped states exactly if its statement is defined.** -/
theorem wellScoped_byCases_iff (hs : s.InScope) {states : List State}
    (hrun : ((byCases t name).run s).result = .ok states) :
    (∀ s' ∈ states, s'.WellScoped) ↔ t.isDefined s.declaredVariables = true := by
  constructor
  · intro hall
    -- The first state has the statement among its hypotheses and declares nothing new.
    obtain ⟨ht, opposite, rfl⟩ := yields_byCasesOf t name s states hrun
    have hfirst := (hall _ (.head _)).2 t (Context.mem_put_self s.context (s.fresh name) t)
    rwa [declaredVariables_put_fresh ht] at hfirst
  · intro ht s' hs'
    have hbrings : (byCases t name).BringsDefined s := ht
    exact (passesOn_inScope hbrings hs states hrun s' hs').wellScoped

end Tactic

namespace Session

/-- The terms that are handed over to tactics unchecked are defined where the tactics are applied. -/
def Call.BringsDefined : Call → Session → Prop
  | .command c, s => ∀ tactic u, Applies c s tactic u → tactic.BringsDefined u
  | _, _ => True

theorem inductive_inScope : Inductive Call.BringsDefined Context.InScope State.InScope where
  nil := ⟨List.forall_mem_nil _, List.nodup_nil⟩
  declare := by
    intro c v name hc hv
    refine hc.concat (hv ▸ Context.not_contains_fresh c name) (Context.over_declare ?_)
    exact Context.letters_alphabet.2 ⟨v.name, by simp⟩
  assume := by
    intro s t name _ hc _ ht
    exact hc.concat (Context.not_contains_fresh s.assumptions name)
      (Context.over_alphabet_of_subset (fun v hv => Context.letters_concat _ hv) (hc.over_of_isDefined ht))
  begin := fun _ hc _ _ hg => ⟨hc, hc.over_of_isDefined hg⟩
  apply := fun hallowed hu => Tactic.passesOn_inScope (hallowed _ _ hu)

/-- **All states of a session are well scoped**, whatever has been asked of it, as long as case
distinctions, chains of comparisons and announced goals were given terms that are defined where they are
used; and so are the assumptions.  Case distinctions need this: if one succeeds at a node, the states it
leaves are well scoped exactly if its statement is defined there. -/
theorem reached_well_scoped (s : Session) (h : ReachedBy Call.BringsDefined s) :
    (∀ k ∈ s.assumptions.hypotheses, k.isDefined s.assumptions.declaredVariables = true) ∧
      ∀ t p n, s.tree = some t → t.get? p = some n → n.state.WellScoped ∧
        ∀ k name states, ((Tactic.byCases k name).run n.state).result = .ok states →
          ((∀ u ∈ states, u.WellScoped) ↔ k.isDefined n.state.declaredVariables = true) := by
  have hscope := inductive_inScope.throughout h
  refine ⟨fun k hk => ?_, fun t p n ht hn => ?_⟩
  · obtain ⟨q, hq, rfl⟩ := List.mem_map.1 hk
    exact Context.isDefined_of_over (hscope.assumptions.hypotheses q hq)
  · have hnode := hscope.state ht hn
    exact ⟨hnode.wellScoped, fun k name states => Tactic.wellScoped_byCases_iff hnode⟩

/-- A proof of the proposition `P`, after a case distinction on `P` itself. -/
def caseOnGoal : Session :=
  let p := Term.var ⟨"P", .prop⟩
  run [.use (.byCases p "h")] (begin p ((Call.declare "bool" "P").request start).2).2

/-- A case distinction on `P` may be made, since `P` has been declared.  One on `Q` succeeds as well, and
leaves states in which `Q` is used and not declared. -/
theorem caseOnGoal_undeclared_case :
    ReachedBy Call.BringsDefined caseOnGoal ∧
      ∃ t n states, caseOnGoal.tree = some t ∧ t.get? [0] = some n ∧ n.state.WellScoped ∧
        ((Tactic.byCases (.var ⟨"Q", .prop⟩) "k").run n.state).result = .ok states ∧
          ¬ ∀ u ∈ states, u.WellScoped := by
  have hreached : ReachedBy Call.BringsDefined caseOnGoal := by
    refine .call (c := .command (.use (.byCases (.var ⟨"P", .prop⟩) "h")))
      (.call (c := .begin (.var ⟨"P", .prop⟩)) (.call (c := .declare "bool" "P") .start trivial) trivial) ?_
    rintro _ _ (⟨-, t, p, n, ht, hp, hn, rfl⟩)
    cases ht
    cases hp
    cases hn
    exact rfl
  have hnodes := (reached_well_scoped caseOnGoal hreached).2
  refine ⟨hreached, _, _, _, rfl, rfl, (hnodes _ [0] _ rfl rfl).1, rfl, fun hall => ?_⟩
  have hdefined := ((hnodes _ [0] _ rfl rfl).2 (.var ⟨"Q", .prop⟩) "k" _ rfl).1 hall
  exact absurd hdefined (by decide)

end Session
end Majorant
