import Majorant.Proofs.Scope.Simplifier
import Majorant.Proofs.Tactic.Linear
import Majorant.Proofs.Tactic.LogLinear
import Majorant.Proofs.Tactic.Logic

/-!
# Tactics over an alphabet

If the goal, the statements among the hypotheses and the terms that are handed over to a tactic are over an
alphabet, so is everything that is new in the states it leaves.
-/

namespace Majorant
open Term Outcome Proof

variable {V : Alphabet}

theorem Proof.isDeclaration_of_isStatement {t : Term} (h : t.isStatement = true) :
    isDeclaration t = false := by
  unfold isDeclaration
  split
  · cases h
  · rfl

theorem Proof.declared?_eq_some {h k : Term} : declared? h = some k ↔ h = app .declared [k] := by
  constructor
  · intro hk
    unfold declared? at hk
    split at hk
    · cases hk
      rfl
    · cases hk
  · rintro rfl
    rfl

theorem Proof.declared?_eq_none {t : Term} (ht : isDeclaration t = false) : declared? t = none := by
  cases hdeclared : declared? t with
  | none => rfl
  | some k =>
    rw [declared?_eq_some.1 hdeclared] at ht
    cases ht

namespace Proof.Context

variable {c d : Context} {name : String} {h k : Term}

/-- **What becomes of the hypotheses `c`**: declarations stay, and what is new is over the alphabet. -/
structure Keeps (V : Alphabet) (c d : Context) : Prop where
  declared : ∀ p ∈ c, isDeclaration p.2 = true → p ∈ d
  entries : ∀ p ∈ d, p ∈ c ∨ p.2.Over V
  names : d.names.Nodup

theorem Keeps.refl (V : Alphabet) (hnames : c.names.Nodup) : c.Keeps V c where
  declared _ hp _ := hp
  entries _ hp := .inl hp
  names := hnames

def Undeclared (c : Context) (name : String) : Prop :=
  ∀ p ∈ c, isDeclaration p.2 = true → p.1 ≠ name

theorem Keeps.put (hkeeps : c.Keeps V d) (hname : c.Undeclared name) (hk : k.Over V) :
    c.Keeps V (d.put name k) where
  declared p hp hdecl := mem_put.2 (.inr ⟨hkeeps.declared p hp hdecl, hname p hp hdecl⟩)
  entries p hp := by
    rcases mem_put.1 hp with rfl | ⟨hp, -⟩
    · exact .inr hk
    · exact hkeeps.entries p hp
  names := nodup_names_put hkeeps.names name k

theorem Keeps.erase (hkeeps : c.Keeps V d) (hname : c.Undeclared name) : c.Keeps V (d.erase name) where
  declared p hp hdecl := mem_erase.2 ⟨hkeeps.declared p hp hdecl, hname p hp hdecl⟩
  entries p hp := hkeeps.entries p (mem_erase.1 hp).1
  names := nodup_names_erase hkeeps.names name

theorem Keeps.put_fresh (hkeeps : c.Keeps V d) (hk : k.Over V) (name : String) :
    c.Keeps V (d.put (d.fresh name) k) :=
  hkeeps.put (fun p hp hdecl =>
    ne_of_not_contains (not_contains_fresh d name) (hkeeps.declared p hp hdecl)) hk

theorem mem_of_get? (hget : c.get? name = some h) : (name, h) ∈ c := by
  obtain ⟨p, hp, rfl⟩ := Option.map_eq_some_iff.1 hget
  have hname : p.1 = name := by simpa using List.find?_some hp
  exact hname ▸ List.mem_of_find?_eq_some hp

theorem undeclared_of_mem (hnames : c.names.Nodup) (hmem : (name, h) ∈ c)
    (hh : isDeclaration h = false) : c.Undeclared name := by
  intro p hp hdecl hname
  rw [eq_of_mem hnames hmem hp hname, hh] at hdecl
  cases hdecl

theorem undeclared_of_get?_none (hget : c.get? name = none) : c.Undeclared name := by
  intro p hp _ hname
  have hfound := List.find?_eq_none.1 (Option.map_eq_none_iff.1 hget) p hp
  simp [hname] at hfound

theorem names_mapM {f : String × Term → Outcome (String × Term)}
    (hf : ∀ p ∈ c, (f p).Yields fun q => q.1 = p.1) : (c.mapM f).Yields fun d => names d = c.names := by
  intro d hd
  have hall := result_mapM_eq_ok.1 hd
  clear hd
  induction hall with
  | nil => rfl
  | cons hq _ ih =>
    obtain ⟨hp, hrest⟩ := List.forall_mem_cons.1 hf
    exact congrArg₂ List.cons (hp _ hq) (ih hrest)

theorem keeps_mapM {f : String × Term → Outcome (String × Term)} (hnames : c.names.Nodup)
    (hdecl : ∀ p ∈ c, isDeclaration p.2 = true → f p = pure p)
    (hf : ∀ p ∈ c, (f p).Yields fun q => q.1 = p.1 ∧ (q = p ∨ q.2.Over V)) :
    (c.mapM f).Yields (c.Keeps V) := by
  intro d hd
  refine ⟨fun p hp hdeclared => ?_, fun q hq => ?_, ?_⟩
  · obtain ⟨q, hq, hpq⟩ := exists_mem_of_mapM hd hp
    rw [hdecl p hp hdeclared] at hpq
    cases hpq
    exact hq
  · obtain ⟨p, hp, hpq⟩ := exists_of_mem_mapM hd hq
    rcases (hf p hp q hpq).2 with rfl | hover
    · exact .inl hp
    · exact .inr hover
  · rw [names_mapM (fun p hp => (hf p hp).mono fun _ h => h.1) d hd]
    exact hnames

end Proof.Context

/-- **The goal and the statements among the hypotheses are over the alphabet.** -/
structure Proof.State.Over (V : Alphabet) (s : State) : Prop where
  goal : s.goal.Over V
  statements : ∀ p ∈ s.context, isDeclaration p.2 = false → p.2.Over V
  names : s.context.names.Nodup

/-- **What is left of a state**: the goals are over the alphabet, and the hypotheses are kept. -/
def Tactic.Leaves (V : Alphabet) (s : State) (x : Outcome (List State)) : Prop :=
  x.Yields fun states => ∀ s' ∈ states, s'.goal.Over V ∧ s.context.Keeps V s'.context

theorem Proof.State.Over.of_get? {s : State} {name : String} {h : Term} (hs : s.Over V)
    (hget : s.context.get? name = some h) (hh : isDeclaration h = false) :
    h.Over V ∧ s.context.Undeclared name :=
  have hmem := Context.mem_of_get? hget
  ⟨hs.statements _ hmem hh, Context.undeclared_of_mem hs.names hmem hh⟩

def Lemma.terms : Lemma → List Term
  | .blank => []
  | .means ts => ts
  | .reflexivity t => [t]

namespace Tactic

variable {s : State} {t : Term} {name hyp : String}

theorem leaves_nil : Leaves V s (pure []) := yields_pure (List.forall_mem_nil _)

theorem leaves_one {s' : State} (hgoal : s'.goal.Over V) (hkeeps : s.context.Keeps V s'.context) :
    Leaves V s (pure [s']) := yields_pure (List.forall_mem_singleton.2 ⟨hgoal, hkeeps⟩)

theorem leaves_self (hs : s.Over V) : Leaves V s (pure [s]) := leaves_one hs.goal (.refl V hs.names)

theorem leaves_goal (hs : s.Over V) (ht : t.Over V) : Leaves V s (pure [s.withGoal t]) :=
  leaves_one ht (.refl V hs.names)

theorem leaves_goals (hs : s.Over V) {ts : List Term} (hts : ∀ t ∈ ts, t.Over V) :
    Leaves V s (pure (ts.map s.withGoal)) :=
  yields_pure (List.forall_mem_map.2 fun t ht => ⟨hts t ht, .refl V hs.names⟩)

theorem leaves_put_fresh (hs : s.Over V) (ht : t.Over V) (name : String) :
    Leaves V s (pure [s.put (s.fresh name) t]) :=
  leaves_one hs.goal ((Context.Keeps.refl V hs.names).put_fresh ht name)

theorem leaves_linear (hs : s.Over V) (verbose : Bool) : Leaves V s (linearOf verbose s) := by
  intro states hstates
  obtain ⟨ss, hss, hrest⟩ := result_bind_eq_ok.1 hstates
  obtain ⟨ds, hds, -⟩ := result_bind_eq_ok.1 hrest
  cases hfind : ds.find? (·.certificate.isPoint) with
  | none =>
    rw [result_linearOf_of_none hss hds hfind] at hstates
    exact leaves_nil states hstates
  | some d =>
    rw [result_linearOf_of_some hss hds hfind] at hstates
    exact leaves_self hs states hstates

theorem leaves_logLinear (hs : s.Over V) (verbose splitExtrema : Bool) :
    Leaves V s (logLinearOf verbose splitExtrema s) := by
  have hconclude : ∀ ds, Leaves V s (conclude verbose s ds) := by
    intro ds states hstates
    rw [result_conclude] at hstates
    split_ifs at hstates
    · exact leaves_nil states hstates
    · exact leaves_self hs states hstates
  refine yields_ite (yields_bind fun _ => leaves_nil) (yields_bind fun _ => ?_)
  exact yields_ite (yields_bind fun _ => yields_bind fun _ => hconclude _)
    (yields_bind fun _ => hconclude _)

theorem leaves_applyTheta (hs : s.Over V) (hyp : String) (newName : Option String) :
    Leaves V s (applyThetaOf hyp newName s) := by
  unfold applyThetaOf
  split
  · exact yields_fail _
  · rename_i h hget
    split
    · exact yields_fail _
    · rename_i r a b hrel
      have hdecl : isDeclaration h = false := by
        rw [Simplifier.exists_of_asRel? hrel]
        rfl
      obtain ⟨ha, hb⟩ := Statement.over_of_asRel? (hs.of_get? hget hdecl).1 hrel
      refine yields_bind fun sign => ?_
      refine (Magnitude.staysOver_theta ha).bind fun a ha => ?_
      refine (Magnitude.staysOver_theta hb).bind fun b hb => ?_
      have hrelate : (Statement.relateBy sign a b).StaysOver V := by
        unfold Statement.relateBy
        split
        · exact Statement.staysOver_relate _ ha hb
        · exact yields_fail _
      exact hrelate.bind fun t ht => yields_bind fun _ => leaves_put_fresh hs ht _

theorem leaves_splitGoal (hs : s.Over V) : Leaves V s (splitGoalOf s) := by
  refine (Statement.parts_conjuncts hs.goal).bind fun parts hparts => ?_
  split
  · exact yields_bind fun _ => leaves_goals hs (hparts _ rfl)
  · exact yields_bind fun _ => leaves_self hs

theorem leaves_trivial (hs : s.Over V) : Leaves V s (trivialOf s) :=
  yields_bind fun _ => yields_ite (yields_bind fun _ => leaves_nil) (yields_bind fun _ => leaves_self hs)

theorem leaves_contrapose (hs : s.Over V) (hyp : String) : Leaves V s (contraposeOf hyp s) := by
  have hself := Context.Keeps.refl V hs.names
  unfold contraposeOf
  split
  · rename_i h hget
    refine (yields_require _ _).bind fun _ hstatement => ?_
    obtain ⟨hh, hname⟩ := hs.of_get? hget (isDeclaration_of_isStatement hstatement)
    refine yields_bind fun _ => ?_
    refine (Statement.staysOver_not hh).bind fun n hn => ?_
    refine (Statement.staysOver_minimalReduced hn).bind fun goal hgoal => ?_
    refine (Statement.staysOver_not hs.goal).bind fun m hm => ?_
    refine (Statement.staysOver_minimalReduced hm).bind fun assumed hassumed => ?_
    exact leaves_one hgoal (hself.put hname hassumed)
  · rename_i hget
    refine yields_bind fun _ => (Statement.staysOver_not hs.goal).bind fun goal hgoal => ?_
    exact leaves_one hgoal (hself.put (Context.undeclared_of_get?_none hget) (.truth _))

theorem keeps_addAll {fallback : String} {names : List String} {ts : List Term} {s' : State}
    (hkeeps : s.context.Keeps V s'.context) (hts : ∀ t ∈ ts, t.Over V) :
    s.context.Keeps V (addAll fallback names ts s').context := by
  induction ts generalizing names s' with
  | nil => cases names <;> exact hkeeps
  | cons t ts ih =>
    obtain ⟨ht, hts⟩ := List.forall_mem_cons.1 hts
    cases names with
    | nil => exact ih (hkeeps.put_fresh ht fallback) hts
    | cons n names => exact ih (hkeeps.put_fresh ht n) hts

theorem isDeclaration_of_conjuncts {h : Term} {ts : List Term}
    (hts : (Statement.conjuncts h).result = .ok (some ts)) : isDeclaration h = false := by
  unfold isDeclaration
  split
  · cases hts
  · rfl

theorem isDeclaration_of_disjuncts {h : Term} {ts : List Term}
    (hts : (Statement.disjuncts h).result = .ok (some ts)) : isDeclaration h = false := by
  unfold isDeclaration
  split
  · cases hts
  · rfl

theorem leaves_splitHypothesis (hs : s.Over V) (hyp : String) (names : List String) :
    Leaves V s (splitHypothesisOf hyp names s) := by
  unfold splitHypothesisOf
  split
  · rename_i h hget
    refine yields_bind_of_result fun parts hparts => ?_
    cases parts with
    | none => exact yields_bind fun _ => leaves_self hs
    | some ts =>
      have hdecl := isDeclaration_of_conjuncts hparts
      obtain ⟨hh, hname⟩ := hs.of_get? hget hdecl
      have hts := Statement.parts_conjuncts hh _ hparts ts rfl
      refine yields_bind fun _ => ?_
      unfold State.remove
      rw [hget]
      dsimp only
      rw [hdecl]
      refine leaves_one ?_ (keeps_addAll ((Context.Keeps.refl V hs.names).erase hname) hts)
      rw [goal_addAll]
      exact hs.goal
  · exact yields_bind fun _ => leaves_self hs

theorem leaves_splitCases (hs : s.Over V) (hyp : String) : Leaves V s (splitCasesOf hyp s) := by
  unfold splitCasesOf
  split
  · rename_i h hget
    refine yields_bind_of_result fun parts hparts => ?_
    cases parts with
    | none => exact yields_bind fun _ => leaves_self hs
    | some ts =>
      obtain ⟨hh, hname⟩ := hs.of_get? hget (isDeclaration_of_disjuncts hparts)
      have hts := Statement.parts_disjuncts hh _ hparts ts rfl
      refine yields_bind fun _ => yields_pure ?_
      refine List.forall_mem_map.2 fun t ht => ⟨hs.goal, ?_⟩
      exact (Context.Keeps.refl V hs.names).put hname (hts t ht)
  · exact yields_bind fun _ => leaves_self hs

theorem leaves_byCases (hs : s.Over V) (ht : t.Over V) (name : String) :
    Leaves V s (byCasesOf t name s) := by
  refine yields_bind fun _ => (Statement.staysOver_not ht).bind fun opposite hopposite =>
    yields_bind fun _ => yields_pure (List.forall_mem_cons.2 ⟨?_, List.forall_mem_singleton.2 ?_⟩)
  · exact ⟨hs.goal, (Context.Keeps.refl V hs.names).put_fresh ht name⟩
  · exact ⟨hs.goal, (Context.Keeps.refl V hs.names).put_fresh hopposite name⟩

theorem leaves_option (hs : s.Over V) (n : Nat) : Leaves V s (optionOf n s) := by
  refine (Statement.parts_disjuncts hs.goal).bind fun parts hparts => ?_
  split
  · exact yields_fail _
  · rename_i ts
    split
    · exact yields_fail _
    · rename_i t ht
      exact yields_bind fun _ => leaves_goal hs (hparts ts rfl t (List.mem_of_getElem? ht))

/-- What is handed over is over the alphabet, if it has been checked to be defined. -/
def Checked (V : Alphabet) (s : State) (t : Term) : Prop :=
  t.isDefined s.declaredVariables = true → t.Over V

theorem Checked.defines (ht : Checked V s t) : (s.defines t).Yields fun defined =>
    defined = true → t.Over V := by
  unfold State.defines
  split
  · exact yields_fail _
  · exact yields_pure ht

theorem leaves_claim (hs : s.Over V) (ht : Checked V s t) (name : String) :
    Leaves V s (claimOf t name s) := by
  refine ht.defines.bind fun _ hdefined => (yields_require _ _).bind fun _ hrequired => ?_
  have ht := hdefined hrequired
  have hfirst : (s.withGoal t).goal.Over V ∧ s.context.Keeps V (s.withGoal t).context :=
    ⟨ht, .refl V hs.names⟩
  have hsecond : (s.put (s.fresh name) t).goal.Over V ∧
      s.context.Keeps V (s.put (s.fresh name) t).context :=
    ⟨hs.goal, (Context.Keeps.refl V hs.names).put_fresh ht name⟩
  refine yields_bind fun _ => yields_bind fun holds => yields_bind fun enough => ?_
  split
  · exact yields_bind fun _ => leaves_nil
  · exact yields_bind fun _ => yields_pure (List.forall_mem_singleton.2 hsecond)
  · exact yields_bind fun _ => yields_pure (List.forall_mem_singleton.2 hfirst)
  · exact yields_bind fun _ => yields_pure (List.forall_mem_cons.2 ⟨hfirst,
      List.forall_mem_singleton.2 hsecond⟩)

theorem leaves_outline (hs : s.Over V) {goals : List (Option Term)}
    (hgoals : ∀ g, some g ∈ goals → g.Over V) : Leaves V s (pure (outlineOf goals s)) := by
  refine yields_pure (List.forall_mem_map.2 fun g hg => ⟨?_, .refl V hs.names⟩)
  cases g with
  | none => exact hs.goal
  | some g => exact hgoals g hg

theorem staysOver_meansStatement {ts : List Term} (hts : ∀ t ∈ ts, t.Over V) :
    (Lemma.meansStatement ts).StaysOver V := by
  have hproduct : (ts.foldlM Operation.mul (lit (.int 1))).StaysOver V :=
    yields_foldlM (.lit nofun) fun b hb t ht => Operation.staysOver_mul hb (hts t ht)
  have hsum : (ts.foldlM Operation.add (lit (.int 0))).StaysOver V :=
    yields_foldlM (.lit nofun) fun b hb t ht => Operation.staysOver_add hb (hts t ht)
  refine hproduct.bind fun product hproduct => hsum.bind fun sum hsum => ?_
  refine (Operation.staysOver_pow hproduct (.lit (by simp))).bind fun geometric hgeometric => ?_
  refine (Operation.staysOver_div hsum (.lit (by simp))).bind fun arithmetic harithmetic => ?_
  exact Operation.staysOver_compare _ hgeometric harithmetic

theorem staysOver_statement {l : Lemma} (hl : ∀ t ∈ l.terms, Checked V s t) :
    (l.statement s).StaysOver V := by
  cases l with
  | blank => exact yields_fail _
  | means ts =>
    refine yields_bind_of_result fun _ hchecked => staysOver_meansStatement fun t ht => ?_
    obtain ⟨_, hdefines, hrequire⟩ := result_bind_eq_ok.1 (result_of_forM_ok hchecked t ht)
    exact (hl t ht).defines _ hdefines (yields_require _ _ _ hrequire)
  | reflexivity t =>
    refine (hl t (.head _)).defines.bind fun _ hdefined => (yields_require _ _).bind fun _ hrequired => ?_
    refine (staysOver_ofLiteral (hdefined hrequired)).bind fun u hu => yields_pure ?_
    exact Statement.over_rel .eq hu hu

theorem leaves_useLemma (hs : s.Over V) {l : Lemma} (hl : ∀ t ∈ l.terms, Checked V s t)
    (name : String) : Leaves V s (useLemmaOf name l s) :=
  (staysOver_statement hl).bind fun _ ht => yields_bind fun _ => leaves_put_fresh hs ht name

theorem keeps_simplifyHypotheses (hs : s.Over V) {thorough : Bool} {rest current : Context}
    (hrest : ∀ p ∈ rest, p ∈ s.context) (hkeeps : s.context.Keeps V current) :
    (simplifyHypotheses thorough rest current).Yields fun d => ∀ c ∈ d, s.context.Keeps V c := by
  induction rest generalizing current with
  | nil =>
    refine yields_pure ?_
    rintro _ ⟨⟩
    exact hkeeps
  | cons p rest ih =>
    obtain ⟨name, h⟩ := p
    obtain ⟨hmem, htail⟩ := List.forall_mem_cons.1 hrest
    cases hdecl : isDeclaration h with
    | true =>
      -- Declarations are not simplified.
      have hput := Context.put_self hkeeps.names (hkeeps.declared _ hmem hdecl)
      obtain ⟨as, rfl⟩ := exists_of_isDeclaration hdecl
      refine Yields.bind (P := fun u => u = app .declared as) (yields_pure rfl) ?_
      rintro _ rfl
      rw [if_neg nofun, if_neg nofun, hput]
      exact ih htail hkeeps
    | false =>
      have hname := Context.undeclared_of_mem hs.names hmem hdecl
      refine (Simplifier.staysOver_simplify (hs.statements _ hmem hdecl)).bind fun u hu => ?_
      refine yields_ite (ih htail (hkeeps.erase hname)) (yields_ite ?_ (ih htail (hkeeps.put hname hu)))
      exact yields_bind fun _ => yields_pure nofun

theorem leaves_simplifyPasses (hs : s.Over V) {thorough again : Bool} {n : Nat} {current : State}
    (hgoal : current.goal.Over V) (hkeeps : s.context.Keeps V current.context) :
    Leaves V s (simplifyPasses thorough again n s current) := by
  induction n generalizing current with
  | zero => exact leaves_one hgoal hkeeps
  | succ n ih =>
    refine (keeps_simplifyHypotheses hs (fun _ hp => hp) hkeeps).bind fun d hd => ?_
    split
    · exact leaves_nil
    · rename_i context
      refine (Simplifier.staysOver_simplify hgoal).bind fun goal hgoal => ?_
      refine yields_ite (yields_bind fun _ => leaves_nil) ?_
      exact yields_ite (leaves_one hgoal (hd context rfl)) (ih hgoal (hd context rfl))

theorem leaves_simplifyAll (hs : s.Over V) (thorough again : Bool) :
    Leaves V s (simplifyAllOf thorough again s) :=
  leaves_simplifyPasses hs hs.goal (.refl V hs.names)

theorem overAll_chainLinks {a b : Term} (ha : a.Over V) (hb : b.Over V) (rs : List Rel)
    {ts : List Term} (hts : ∀ t ∈ ts, t.Over V) :
    (chainLinks a b rs ts).Yields fun ls => ∀ l ∈ ls, l.Over V := by
  induction rs generalizing a ts with
  | nil => exact yields_pure (List.forall_mem_nil _)
  | cons r rs ih =>
    have hstep : ∀ {c : Term} {us : List Term}, c.Over V → (∀ u ∈ us, u.Over V) →
        (do
          let link ← Statement.relate r a c
          return link :: (← chainLinks c b rs us) : Outcome _).Yields fun ls => ∀ l ∈ ls, l.Over V := by
      intro c us hc hus
      refine (Statement.staysOver_relate r ha hc).bind fun link hlink => ?_
      exact (ih hc hus).bind fun ls hls => yields_pure (List.forall_mem_cons.2 ⟨hlink, hls⟩)
    cases ts with
    | nil => exact hstep hb (List.forall_mem_nil _)
    | cons t ts =>
      obtain ⟨ht, hts⟩ := List.forall_mem_cons.1 hts
      exact hstep ht hts

theorem leaves_chain (hs : s.Over V) {c : Chain} (hc : ∀ t ∈ c.terms, t.Over V) :
    Leaves V s (chainOf c s) := by
  unfold chainOf
  split
  · exact yields_fail _
  · rename_i r a b hrel
    obtain ⟨ha, hb⟩ := Statement.over_of_asRel? hs.goal hrel
    refine yields_bind fun _ => (overAll_chainLinks ha hb c.relations hc).bind fun links hlinks => ?_
    extract_lets leave
    have hleave : ∀ x : Outcome Unit, Leaves V s (x >>= leave) := fun _ =>
      yields_bind fun _ => leaves_goals hs hlinks
    clear_value leave
    split
    · exact yields_ite (hleave _) (hleave _)
    · exact hleave _

theorem over_equationSides (hs : s.Over V) {reversed : Bool} :
    (equationSides hyp reversed s).Yields fun sides => sides.2.Over V := by
  unfold equationSides
  split
  · exact yields_fail _
  · rename_i h hget
    split
    · rename_i a b
      have hh := (hs.of_get? hget rfl).1
      have ha := hh.args a (by simp)
      have hb := hh.args b (by simp)
      refine yields_pure ?_
      cases reversed <;> assumption
    · exact yields_fail _

theorem leaves_substituteAll (hs : s.Over V) (hyp : String) (reversed : Bool) :
    Leaves V s (substituteAllOf hyp reversed s) := by
  refine (over_equationSides hs).bind ?_
  rintro ⟨a, b⟩ hb
  refine Yields.bind (P := s.context.Keeps V) (Context.keeps_mapM hs.names ?_ ?_) fun context hcontext => ?_
  · intro p hp hdecl
    rw [hdecl]
    rfl
  · intro p hp
    cases hdecl : isDeclaration p.2 with
    | true => exact yields_pure ⟨rfl, .inl rfl⟩
    | false =>
      refine yields_ite (yields_pure ⟨rfl, .inl rfl⟩) ?_
      refine (Substitution.staysOver_replace hb (hs.statements p hp hdecl)).bind fun u hu => ?_
      exact yields_bind fun _ => yields_pure ⟨rfl, .inr hu⟩
  · refine (Substitution.staysOver_replace hb hs.goal).bind fun goal hgoal => ?_
    refine yields_bind fun _ => yields_ite (yields_bind fun _ => leaves_nil) ?_
    exact leaves_one hgoal hcontext

theorem over_substitutionTarget (hs : s.Over V) (target : Option String) :
    (substitutionTarget target s).Yields fun before =>
      before.Over V ∧ ∀ name, target = some name → s.context.Undeclared name := by
  cases target with
  | none => exact yields_pure ⟨hs.goal, nofun⟩
  | some name =>
    unfold substitutionTarget
    dsimp only
    split
    · exact yields_fail _
    · rename_i h hget
      split
      · exact yields_fail _
      · rename_i hdecl
        obtain ⟨hh, hname⟩ := hs.of_get? hget (by simpa using hdecl)
        refine yields_pure ⟨hh, ?_⟩
        rintro _ ⟨⟩
        exact hname

theorem leaves_substitute (hs : s.Over V) (hyp : String) (target : Option String) (reversed : Bool) :
    Leaves V s (substituteOf hyp target reversed s) := by
  refine (over_equationSides hs).bind ?_
  rintro ⟨a, b⟩ hb
  dsimp -zeta only
  extract_lets substituted
  have hsubstituted : ∀ u, Leaves V s (substituted u) := by
    intro u
    refine (over_substitutionTarget hs target).bind fun before hbefore => ?_
    refine (Substitution.staysOver_replace hb hbefore.1).bind fun replaced hreplaced => ?_
    refine (Simplifier.staysOver_simplify hreplaced).bind fun after hafter => yields_bind fun _ => ?_
    -- The result takes the place of the goal or of the hypothesis.
    extract_lets placed
    have hplaced : ∀ u, Leaves V s (placed u) := by
      intro u
      unfold placed
      split
      · exact yields_ite (yields_bind fun _ => leaves_nil) (leaves_goal hs hafter)
      · exact leaves_one hs.goal ((Context.Keeps.refl V hs.names).put (hbefore.2 _ rfl) hafter)
    exact yields_ite (yields_bind hplaced) (hplaced ())
  exact yields_ite (yields_bind hsubstituted) (hsubstituted ())

theorem yields_newVariable (name : String) (t : Term) (s : State) :
    (newVariable name t s).Yields fun v =>
      t.isDefined s.declaredVariables = true ∧ v.name = s.fresh name := by
  have hdefines : (s.defines t).Yields fun b => b = t.isDefined s.declaredVariables := by
    unfold State.defines
    split
    · exact yields_fail _
    · exact yields_pure rfl
  refine hdefines.bind fun defined hdefined => (yields_require _ _).bind fun _ hrequired => ?_
  refine yields_bind fun kind => ?_
  unfold Variable.named
  split
  · exact yields_pure ⟨hdefined ▸ hrequired, rfl⟩
  · exact yields_fail _

theorem put_put_fresh {c d : Context} {v : Variable} (hnames : d.names = c.names)
    (hv : v.name = c.fresh name) (u : Term) :
    (d.put v.name (declare v)).put (c.fresh (name ++ "_def")) u =
      d ++ [(v.name, declare v), (c.fresh (name ++ "_def"), u)] := by
  have hfree : ∀ n, d.contains (c.fresh n) = false := by
    intro n
    rw [← Bool.not_eq_true, Context.contains_iff, hnames, ← Context.contains_iff, Bool.not_eq_true]
    exact Context.not_contains_fresh c n
  have hne : c.fresh name ≠ c.fresh (name ++ "_def") :=
    Context.fresh_ne_fresh_append c c name (x := '_') (by decide) (by decide)
  rw [hv, Context.put_of_not_contains (hfree name), Context.put_of_not_contains, List.append_assoc]
  · rfl
  · have hdef := hfree (name ++ "_def")
    unfold Context.contains at hdef ⊢
    rw [List.any_append, hdef]
    simpa using hne

/-- **What is left when a variable is introduced.** -/
theorem yields_introduceOf (name : String) (t : Term) (s : State) :
    (introduceOf name t s).Yields fun states => t.isDefined s.declaredVariables = true ∧
      ∃ v u, v.name = s.fresh name ∧ (Statement.relate .eq (var v) t).result = .ok u ∧
        states = [⟨s.goal, s.context ++ [(v.name, declare v), (s.fresh (name ++ "_def"), u)]⟩] := by
  refine (yields_newVariable name t s).bind fun v hv => yields_bind fun _ => ?_
  refine yields_bind_of_result fun s' hs' => yields_pure ⟨hv.1, v, ?_⟩
  obtain ⟨u, hu, hs'⟩ := result_bind_eq_ok.1 hs'
  cases hs'
  exact ⟨u, hv.2, hu, congrArg (fun c => [State.mk s.goal c]) (put_put_fresh rfl hv.2 u)⟩

theorem names_replaceInContext (old new : Term) (c : Context) :
    (replaceInContext old new c).Yields fun d => Context.names d = c.names :=
  Context.names_mapM fun _ _ => yields_ite (yields_pure rfl) (yields_bind fun _ => yields_pure rfl)

/-- **What is left when a term is abbreviated.** -/
theorem yields_abbreviateOf (name : String) (t : Term) (s : State) :
    (abbreviateOf name t s).Yields fun states => t.isDefined s.declaredVariables = true ∧
      ∃ v u context goal, v.name = s.fresh name ∧ (Statement.relate .eq (var v) t).result = .ok u ∧
        (replaceInContext t (var v) s.context).result = .ok context ∧
        (Substitution.replace t (var v) s.goal).result = .ok goal ∧
        states = [⟨goal, context ++ [(v.name, declare v), (s.fresh (name ++ "_def"), u)]⟩] := by
  refine (yields_newVariable name t s).bind fun v hv => yields_bind fun _ => ?_
  refine yields_bind_of_result fun context hcontext => yields_bind_of_result fun goal hgoal => ?_
  refine yields_bind_of_result fun s' hs' => yields_pure ⟨hv.1, v, ?_⟩
  obtain ⟨u, hu, hs'⟩ := result_bind_eq_ok.1 hs'
  cases hs'
  have hnames := names_replaceInContext t (var v) s.context context hcontext
  exact ⟨u, context, goal, hv.2, hu, hcontext, hgoal,
    congrArg (fun c => [State.mk goal c]) (put_put_fresh hnames hv.2 u)⟩

/-- A hypothesis when the term `v` declared under a name has become a variable `new`. -/
def retyped (name : String) (v : Term) (new : Variable) (p : String × Term) :
    Outcome (String × Term) := do
  if p.1 == name then return (name, declare new)
  return (p.1, ← Substitution.replace v (var new) p.2)

theorem isDeclaration_of_sharpen {fact : SignFact} {v : Term} :
    (fact.sharpen name v).Yields fun _ => isDeclaration v = false := by
  unfold isDeclaration
  split
  · cases fact <;> exact nofun
  · exact fun _ _ => rfl

theorem yields_findTarget (s : State) (target : Target) : (findTarget s target).Yields fun p =>
    (p.1, app .declared [p.2]) ∈ s.context := by
  unfold findTarget
  split
  · refine Yields.bind (P := fun v => (_, app .declared [v]) ∈ s.context) ?_ fun v hv => yields_pure hv
    unfold State.lookup
    split
    · exact yields_fail _
    · rename_i h hget
      split
      · rename_i v hv
        exact yields_pure (declared?_eq_some.1 hv ▸ Context.mem_of_get? hget)
      · exact yields_fail _
  · refine Yields.bind (P := fun n => (n, app .declared [_]) ∈ s.context) ?_ fun n hn => yields_pure hn
    unfold State.nameOf
    split
    · rename_i p hp
      have hv := declared?_eq_some.1 (by simpa using List.find?_some hp)
      exact yields_pure (hv ▸ List.mem_of_find?_eq_some hp)
    · exact yields_fail _

theorem yields_noteSignOf (fact : SignFact) (target : Target) (s : State) :
    (noteSignOf fact target s).Yields fun states => states = [s] ∨
      ∃ name v new context goal, (name, app .declared [v]) ∈ s.context ∧ isDeclaration v = false ∧
        new.name = name ∧ (s.context.mapM (retyped name v new)).result = .ok context ∧
        (Substitution.replace v (var new) s.goal).result = .ok goal ∧
        (states = [] ∨ states = [⟨goal, context⟩]) := by
  refine (yields_findTarget s target).bind ?_
  rintro ⟨name, v⟩ hmem
  refine yields_ite (yields_bind fun _ => yields_pure (.inl rfl)) (yields_bind fun _ => ?_)
  refine yields_ite (yields_bind fun _ => yields_pure (.inl rfl)) ?_
  refine isDeclaration_of_sharpen.bind fun kind hv => yields_bind fun _ => ?_
  refine yields_bind_of_result fun context hcontext => yields_bind_of_result fun goal hgoal => ?_
  refine Yields.mono (P := fun states => states = [] ∨ states = [⟨goal, context⟩]) ?_ fun states h =>
    .inr ⟨name, v, ⟨name, kind⟩, context, goal, hmem, hv, rfl, hcontext, hgoal, h⟩
  exact yields_ite (yields_bind fun _ => yields_pure (.inl rfl)) (yields_pure (.inr rfl))

theorem replace_declare {v new : Term} {u : Variable} (hv : isDeclaration v = false) (hu : var u ≠ v) :
    Substitution.replace v new (declare u) = pure (declare u) := by
  have hne : declare u ≠ v := by
    rintro rfl
    cases hv
  unfold Substitution.replace
  split
  · rfl
  · change Substitution.replaceAux 8 v new (declare u) = _
    have hvar : Substitution.replaceAux 7 v new (var u) = pure (var u) := by
      rw [Substitution.replaceAux, if_neg hu]
    rw [Substitution.replaceAux, if_neg hne]
    dsimp only [declare]
    rw [List.mapM_cons, List.mapM_nil]
    dsimp only
    rw [hvar, pure_bind, pure_bind, pure_bind, if_pos rfl]

/-- **The hypotheses when a declared term has become a variable**: its declaration declares the variable,
declarations of other variables stay, and the term is replaced in all other hypotheses. -/
structure Retyped (name : String) (v : Term) (new : Variable) (c d : Context) : Prop where
  names : d.names = c.names
  declared : (name, declare new) ∈ d
  entries : ∀ q ∈ d, q = (name, declare new) ∨ ∃ p ∈ c, p.1 ≠ name ∧ q.1 = p.1 ∧
    (Substitution.replace v (var new) p.2).result = .ok q.2
  others : ∀ u n, (n, declare u) ∈ c → n ≠ name → var u ≠ v → (n, declare u) ∈ d

theorem retyped_mapM {c d : Context} {v : Term} {new : Variable}
    (hmem : (name, app .declared [v]) ∈ c) (hv : isDeclaration v = false)
    (hd : (c.mapM (retyped name v new)).result = .ok d) : Retyped name v new c d where
  names := by
    refine Context.names_mapM (fun p _ => ?_) d hd
    unfold retyped
    split
    · rename_i hname
      exact yields_pure (beq_iff_eq.1 hname).symm
    · exact yields_bind fun _ => yields_pure rfl
  declared := by
    obtain ⟨q, hq, hpq⟩ := exists_mem_of_mapM hd hmem
    rw [retyped, if_pos (beq_self_eq_true name)] at hpq
    cases hpq
    exact hq
  entries q hq := by
    obtain ⟨p, hp, hpq⟩ := exists_of_mem_mapM hd hq
    unfold retyped at hpq
    split at hpq
    · cases hpq
      exact .inl rfl
    · rename_i hname
      obtain ⟨u, hu, hpq⟩ := result_bind_eq_ok.1 hpq
      cases hpq
      exact .inr ⟨p, hp, by simpa using hname, rfl, hu⟩
  others u n hp hn hu := by
    obtain ⟨q, hq, hpq⟩ := exists_mem_of_mapM hd hp
    rw [retyped, if_neg (by simpa using hn), replace_declare hv hu] at hpq
    cases hpq
    exact hq

end Tactic

def Alphabet.insert (V : Alphabet) (v : Variable) : Alphabet :=
  { V with letters := fun u => u = v ∨ V.letters u }

theorem Term.over_insert_self (V : Alphabet) (v : Variable) : (var v).Over (V.insert v) :=
  over_var.2 (Or.inl rfl)

theorem Term.Over.insert {t : Term} (ht : t.Over V) (v : Variable) : t.Over (V.insert v) :=
  ht.mono (fun _ hu => .inr hu) id id

namespace Tactic

variable {s s' : State} {t : Term} {name : String}

/-- **A variable has been introduced** behind the hypotheses `d`, with an equation. -/
structure Introduced (V : Alphabet) (s s' : State) (v : Variable) (d : Context) (e : String × Term) :
    Prop where
  context : s'.context = d ++ [(v.name, declare v), e]
  keeps : s.context.Keeps (V.insert v) d
  names : s'.context.names.Nodup
  equation : e.2.Over (V.insert v)
  statement : isDeclaration e.2 = false
  goal : s'.goal.Over (V.insert v)

theorem isDeclaration_relate {a b u : Term} (hu : (Statement.relate .eq a b).result = .ok u) :
    isDeclaration u = false :=
  Statement.yields_relate (P := fun t => isDeclaration t = false) .eq (fun _ => rfl)
    (fun _ _ _ _ _ => rfl) u hu

theorem introduced_of_keeps (ht : t.Over V) {v : Variable} {u goal : Term}
    {d : Context} (hv : v.name = s.fresh name) (hu : (Statement.relate .eq (var v) t).result = .ok u)
    (hkeeps : s.context.Keeps (V.insert v) d) (hnames : d.names = s.context.names)
    (hgoal : goal.Over (V.insert v)) :
    Introduced V s ⟨goal, d ++ [(v.name, declare v), (s.fresh (name ++ "_def"), u)]⟩ v d
      (s.fresh (name ++ "_def"), u) where
  context := rfl
  keeps := hkeeps
  names := by
    have hput := put_put_fresh hnames hv u
    change (d ++ [(v.name, declare v), (s.context.fresh (name ++ "_def"), u)]).names.Nodup
    rw [← hput]
    exact Context.nodup_names_put (Context.nodup_names_put hkeeps.names _ _) _ _
  equation := Statement.staysOver_relate .eq (over_insert_self V v) (ht.insert v) u hu
  statement := isDeclaration_relate hu
  goal := hgoal

theorem introduced_introduce (hs : s.Over V) (ht : Checked V s t) (name : String) :
    (introduceOf name t s).Yields fun states => ∀ s' ∈ states, ∃ v e,
      Introduced V s s' v s.context e := by
  refine (yields_introduceOf name t s).mono ?_
  rintro states ⟨hdefined, v, u, hv, hu, rfl⟩
  refine List.forall_mem_singleton.2 ⟨v, (s.fresh (name ++ "_def"), u), ?_⟩
  exact introduced_of_keeps (ht hdefined) hv hu (.refl _ hs.names) rfl (hs.goal.insert v)

theorem introduced_abbreviate (hs : s.Over V) (ht : Checked V s t) (name : String) :
    (abbreviateOf name t s).Yields fun states => ∀ s' ∈ states, ∃ v d e,
      (replaceInContext t (var v) s.context).result = .ok d ∧ Introduced V s s' v d e := by
  refine (yields_abbreviateOf name t s).mono ?_
  rintro states ⟨hdefined, v, u, d, goal, hv, hu, hd, hgoal, rfl⟩
  refine List.forall_mem_singleton.2 ⟨v, d, (s.fresh (name ++ "_def"), u), hd, ?_⟩
  have hnew := over_insert_self V v
  have hnames := names_replaceInContext t (var v) s.context d hd
  refine introduced_of_keeps (ht hdefined) hv hu ?_ hnames
    (Substitution.staysOver_replace hnew (hs.goal.insert v) goal hgoal)
  refine Context.keeps_mapM hs.names (fun p _ hdecl => if_pos hdecl) (fun p hp => ?_) d hd
  cases hdecl : isDeclaration p.2 with
  | true => exact yields_pure ⟨rfl, .inl rfl⟩
  | false =>
    refine (Substitution.staysOver_replace hnew ((hs.statements p hp hdecl).insert v)).bind fun u hu => ?_
    exact yields_pure ⟨rfl, .inr hu⟩

/-- **What is handed over to a tactic is over the alphabet.**  If the tactic checks that it is defined,
this is asked only of what is. -/
def Brings (V : Alphabet) (s : State) : Tactic → Prop
  | byCases t _ => t.Over V
  | chain c => ∀ t ∈ c.terms, t.Over V
  | outline _ goals => ∀ g, some g ∈ goals → g.Over V
  | claim t _ | introduce _ t | abbreviate _ t => Checked V s t
  | useLemma _ l => ∀ t ∈ l.terms, Checked V s t
  | _ => True

def declares : Tactic → Bool
  | noteSign _ _ | introduce _ _ | abbreviate _ _ => true
  | _ => false

/-- **What tactics leave** that do not change declarations. -/
theorem leaves_run (hs : s.Over V) {tactic : Tactic} (hbrings : tactic.Brings V s)
    (hdeclares : tactic.declares = false) : Leaves V s (tactic.run s) := by
  cases tactic with
  | linear verbose => exact leaves_linear hs verbose
  | logLinear verbose splitExtrema => exact leaves_logLinear hs verbose splitExtrema
  | applyTheta hyp newName => exact leaves_applyTheta hs hyp newName
  | simplifyAll thorough again => exact leaves_simplifyAll hs thorough again
  | noteSign | introduce | abbreviate => cases hdeclares
  | chain c => exact leaves_chain hs hbrings
  | substitute hyp target reversed => exact leaves_substitute hs hyp target reversed
  | substituteAll hyp reversed => exact leaves_substituteAll hs hyp reversed
  | splitGoal => exact leaves_splitGoal hs
  | trivial => exact leaves_trivial hs
  | contrapose hyp => exact leaves_contrapose hs hyp
  | splitHypothesis hyp names => exact leaves_splitHypothesis hs hyp names
  | splitCases hyp => exact leaves_splitCases hs hyp
  | byCases t name => exact leaves_byCases hs hbrings name
  | option n => exact leaves_option hs n
  | claim t name => exact leaves_claim hs hbrings name
  | useLemma name l => exact leaves_useLemma hs hbrings name
  | outline label goals => exact leaves_outline hs hbrings

end Tactic
end Majorant
