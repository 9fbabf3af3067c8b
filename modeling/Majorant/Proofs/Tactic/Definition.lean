import Majorant.Proofs.Scope.Reading
import Majorant.Proofs.Session.Naming
import Mathlib.Data.Real.Basic

/-!
# Definitions are conservative

A variable that is introduced for a term gets the narrowest kind of the term, a name that is not in
use, and an equation that defines it.
-/

namespace Majorant
open Term Outcome Proof Reading

variable {X : Type*} {R : Reading X} {ν ν' : Variable → X}
variable {s s' : State} {t u goal : Term} {v : Variable} {d : Context} {name : String}

namespace Reading

/-- **What is known of the term is right**, and so is whether its difference from the new variable is known
to vanish. -/
structure Reliable (R : Reading X) (name : String) (t : Term) (s : State) : Prop where
  answers : ∀ ν, R.Respects s ν → ∀ k : Kind, ∀ p ∈ k.properties, t.is p = true →
    R.Has p (R.value ν t)
  vanishes : ∀ v c, (Tactic.newVariable name t s).result = .ok v → (sub (var v) t).ask .zero = some c →
    ∀ ν, R.Respects s ν → R.Range v.kind (ν v) → (c = true ↔ ν v = R.value ν t)

/-- **Replacing the term by its variable keeps the values** of the goal and of the hypotheses, as long as
the variable has the value of the term. -/
def KeepsValues (R : Reading X) (name : String) (t : Term) (s : State) : Prop :=
  ∀ v, (Tactic.newVariable name t s).result = .ok v →
    ∀ h, h = s.goal ∨ h ∈ s.context.hypotheses ∧ isDeclaration h = false →
      ∀ u, (Substitution.replace t (var v) h).result = .ok u →
        ∀ ν, R.Respects s ν → ν v = R.value ν t → R.value ν u = R.value ν h

end Reading

/-- **Each name stands once, and the names of declared variables are in use.**  It does not matter under
which names the declarations stand. -/
structure Proof.Context.NamesTaken (c : Context) : Prop where
  names : c.names.Nodup
  declared : ∀ p ∈ c, isDeclaration p.2 = true → ∃ v, p.2 = declare v ∧ c.contains v.name = true

theorem Proof.Context.Coherent.namesTaken {c : Context} (hc : c.Coherent) : c.NamesTaken := by
  refine ⟨hc.names, fun p hp hdecl => ?_⟩
  obtain ⟨k, hk⟩ := hc.declared p hp hdecl
  exact ⟨⟨p.1, k⟩, hk, Context.contains_iff.2 (List.mem_map_of_mem hp)⟩

theorem Proof.Context.NamesTaken.exists_variable {c : Context} (hc : c.NamesTaken) {k : Term}
    (hk : k ∈ c.declaredVariables) : ∃ v, k = var v ∧ c.contains v.name = true := by
  obtain ⟨n, hn⟩ := Context.mem_declaredVariables.1 hk
  obtain ⟨v, hv, hname⟩ := hc.declared _ hn rfl
  exact ⟨v, by simpa [declare] using hv, hname⟩

theorem Proof.State.WellScoped.inScope (hs : s.WellScoped) (hc : s.context.NamesTaken) : s.InScope := by
  have hknown : ∀ k ∈ s.context.declaredVariables, k.Over s.context.alphabet := by
    intro k hk
    obtain ⟨w, rfl, -⟩ := hc.exists_variable hk
    exact .var hk
  have hover : ∀ {t : Term}, t.isDefined s.declaredVariables = true → t.Over s.context.alphabet :=
    fun ht => over_of_isDefined hknown trivial ht
  exact ⟨⟨fun p hp => hover (hs.2 p.2 (List.mem_map_of_mem hp)), hc.names⟩, hover hs.1⟩

namespace Tactic

/-- **The new variable** has a name that is not in use and the narrowest kind of the term. -/
structure Names (name : String) (t : Term) (s : State) (v : Variable) : Prop where
  defined : t.isDefined s.declaredVariables = true
  name_eq : v.name = s.fresh name
  exact : ofLiteral t = pure t
  kind : Kind.ofName? t.typeName = some v.kind

theorem names_of_newVariable (hv : (newVariable name t s).result = .ok v) : Names name t s v := by
  obtain ⟨hdefined, hname⟩ := yields_newVariable name t s v hv
  unfold newVariable at hv
  obtain ⟨_, -, hv⟩ := result_bind_eq_ok.1 hv
  obtain ⟨_, -, hv⟩ := result_bind_eq_ok.1 hv
  obtain ⟨kind, hkind, hv⟩ := result_bind_eq_ok.1 hv
  unfold kindOf at hkind
  split at hkind
  · cases hkind
  · next hwritten =>
    cases hkind
    refine ⟨hdefined, hname, ?_, ?_⟩
    · cases t with
      | lit l => exact absurd rfl hwritten
      | _ => rfl
    · unfold Variable.named at hv
      split at hv
      · next k hk =>
        cases hv
        exact hk
      · cases hv

theorem Names.name_ne (h : Names name t s v) (hc : s.context.NamesTaken) {w : Variable}
    (hw : var w ∈ s.declaredVariables) : w.name ≠ v.name := by
  obtain ⟨w, ⟨⟩, hused⟩ := hc.exists_variable hw
  intro heq
  have hfree : s.context.contains v.name = false :=
    h.name_eq ▸ Context.not_contains_fresh s.context name
  rw [← heq, hused] at hfree
  cases hfree

theorem equal?_of_settled {a b : Term} {c : Bool} (ha : ofLiteral a = pure a) (hb : ofLiteral b = pure b)
    (h : (Statement.relate .eq a b).result = .ok (truth c)) : equal? a b = some c := by
  unfold Statement.relate at h
  rw [ha, hb, pure_bind, pure_bind] at h
  dsimp only at h
  split at h
  · next heq =>
    cases h
    unfold equal?
    rw [if_pos heq]
    rfl
  · obtain ⟨_, -, h⟩ := result_bind_eq_ok.1 h
    have hsettle : Statement.settle .eq a b (equal? a b) = truth c := Except.ok.inj h
    cases hequal : equal? a b with
    | none =>
      rw [hequal] at hsettle
      cases hsettle
    | some known =>
      rw [hequal] at hsettle
      cases hsettle
      rfl

/-- **A definition is settled by what is known of the difference** of its sides. -/
theorem ask_zero_of_equal? {c : Bool} (hne : var v ≠ t)
    (hk : Kind.ofName? t.typeName = some v.kind) (hequal : equal? (var v) t = some c) :
    (sub (var v) t).ask .zero = some c := by
  unfold equal? at hequal
  rw [if_neg hne] at hequal
  simp only [Bool.true_or, Bool.not_true, Bool.false_and, Bool.false_eq_true, if_false,
    Option.ite_none_right_eq_some, Bool.and_eq_true, Bool.not_eq_true'] at hequal
  obtain ⟨⟨⟨⟨-, hquantity⟩, -⟩, horder⟩, hequal⟩ := hequal
  unfold equalQuantities? at hequal
  rw [is_infinite_var, is_infinite_of_typeName hk hquantity horder] at hequal
  dsimp only at hequal
  cases hzero : (sub (var v) t).ask .zero with
  | none =>
    rw [hzero] at hequal
    cases hequal
  | some known =>
    rw [hzero] at hequal
    cases known with
    | true => exact hequal
    | false =>
      obtain ⟨-, hequal⟩ := Option.ite_none_right_eq_some.1 hequal
      exact hequal

/-- **A definition stands behind the hypotheses** `d`. -/
structure Adds (name : String) (t : Term) (s : State) (v : Variable) (d : Context) (u : Term)
    (s' : State) : Prop where
  new : (newVariable name t s).result = .ok v
  equation : (Statement.relate .eq (var v) t).result = .ok u
  context : s'.context = d ++ [(v.name, declare v), (s.fresh (name ++ "_def"), u)]

/-- **The other hypotheses and the goal say what they said before**, where the variable has the value of
the term. -/
structure Preserves (R : Reading X) (t : Term) (s : State) (v : Variable) (d : Context) (goal : Term) :
    Prop where
  declared : ∀ p ∈ s.context, isDeclaration p.2 = true → p ∈ d
  hypotheses : ∀ ν, R.Respects s ν → ν v = R.value ν t →
    ((∀ h ∈ d.hypotheses, R.Holds ν h) ↔ R.Models s ν)
  goal : ∀ ν, R.Respects s ν → ν v = R.value ν t → (R.Holds ν goal ↔ R.Holds ν s.goal)

theorem Adds.holds_iff (h : Adds name t s v d u s') (hr : R.Reliable name t s) (hν : R.Respects s ν)
    (hrange : R.Range v.kind (ν v)) : R.Holds ν u ↔ ν v = R.value ν t := by
  have hnames := names_of_newVariable h.new
  rcases Statement.relate_cases rfl hnames.exact h.equation with rfl | ⟨c, rfl⟩
  · rw [holds_equation, value_var]
  · have hequal := equal?_of_settled rfl hnames.exact h.equation
    rw [holds_truth]
    by_cases heq : var v = t
    · subst heq
      have hc : c = true := by simpa [equal?] using hequal.symm
      simp [hc]
    · exact hr.vanishes v c h.new (ask_zero_of_equal? heq hnames.kind hequal) ν hν hrange

theorem Adds.models_iff (h : Adds name t s v d u s') : R.Models s' ν ↔
    (∀ h ∈ d.hypotheses, R.Holds ν h) ∧ R.Range v.kind (ν v) ∧ R.Holds ν u := by
  unfold Models
  rw [h.context]
  simp [Context.hypotheses, or_imp, forall_and, holds_declare]

/-- **What the new hypotheses say**: the old ones, and that the variable has the value of the term. -/
theorem Adds.models_iff_of_preserves (h : Adds name t s v d u s') (hr : R.Reliable name t s)
    (ht : t.Over s.context.alphabet) (hd : Preserves R t s v d goal) :
    R.Models s' ν ↔ R.Models s ν ∧ ν v = R.value ν t := by
  rw [h.models_iff]
  constructor
  · rintro ⟨hhyps, hrange, hu⟩
    -- Declarations are among the hypotheses that stay.
    have hν : R.Respects s ν := respects_of_declarations fun p hp hdecl =>
      hhyps p.2 (List.mem_map_of_mem (hd.declared p hp hdecl))
    have hvalue := (h.holds_iff hr hν hrange).1 hu
    exact ⟨(hd.hypotheses ν hν hvalue).1 hhyps, hvalue⟩
  · rintro ⟨hmodels, hvalue⟩
    have hν := hmodels.respects
    have hrange : R.Range v.kind (ν v) := by
      rw [hvalue]
      exact range_of_typeName (names_of_newVariable h.new).kind ht hν (hr.answers ν hν)
    exact ⟨(hd.hypotheses ν hν hvalue).2 hmodels, hrange, (h.holds_iff hr hν hrange).2 hvalue⟩

/-- **The state `s'` is a conservative extension of `s`** by a variable `v` with the value of `t`.  The
valuations that satisfy the hypotheses of `s` are the restrictions of those that satisfy the hypotheses
of `s'`, each of exactly one. -/
structure Conservative (R : Reading X) (t : Term) (s s' : State) (v : Variable) : Prop where
  wellScoped : s'.WellScoped
  fresh : ∀ w, var w ∈ s.declaredVariables → w.name ≠ v.name
  declared : ∀ w, var w ∈ s'.declaredVariables ↔ w = v ∨ var w ∈ s.declaredVariables
  exists_extension : ∀ ν, R.Models s ν → ∃ ν', R.Models s' ν' ∧ AgreeOn s ν ν' ∧
    ν' v = R.value ν t ∧ R.Range v.kind (ν' v)
  unique : ∀ ν ν', R.Models s' ν → R.Models s' ν' → AgreeOn s ν ν' → AgreeOn s' ν ν'
  restricts : ∀ ν ν', R.Models s' ν' → AgreeOn s ν ν' → R.Models s ν
  goal : ∀ ν ν', R.Models s' ν' → AgreeOn s ν ν' → (R.Holds ν' s'.goal ↔ R.Holds ν s.goal)
  valid : s'.Valid R.Holds ↔ s.Valid R.Holds

theorem Introduced.mem_declaredVariables {e : String × Term} {w : Variable}
    (h : Introduced s.context.alphabet s s' v d e) :
    var w ∈ s'.declaredVariables ↔ w = v ∨ var w ∈ s.declaredVariables := by
  unfold State.declaredVariables
  rw [Context.mem_declaredVariables, Context.mem_declaredVariables, h.context]
  constructor
  · rintro ⟨n, hn⟩
    rcases List.mem_append.1 hn with hn | hn
    · rcases h.keeps.entries _ hn with hn | hover
      · exact .inr ⟨n, hn⟩
      · -- A declaration that has come in is about a variable that may occur in it.
        rcases over_var.1 (hover.args _ (List.mem_singleton_self _)) with rfl | hw
        · exact .inl rfl
        · exact .inr (Context.mem_declaredVariables.1 hw)
    · rcases List.mem_cons.1 hn with hn | hn
      · left
        simpa [declare] using congrArg Prod.snd hn
      · have hstatement := h.statement
        rw [← List.mem_singleton.1 hn] at hstatement
        cases hstatement
  · rintro (rfl | ⟨n, hn⟩)
    · exact ⟨w.name, List.mem_append_right _ (List.mem_cons_self ..)⟩
    · exact ⟨n, List.mem_append_left _ (h.keeps.declared _ hn rfl)⟩

theorem Adds.introduced {V : Alphabet} {w : Variable} {c : Context} {e : String × Term}
    (h : Adds name t s v d u s') (hintroduced : Introduced V s s' w c e) :
    Introduced V s s' v d e := by
  have happend := hintroduced.context.symm.trans h.context
  obtain ⟨rfl, htail⟩ := List.append_inj' happend rfl
  have hvar : w = v := by simpa [declare] using congrArg Prod.snd (List.cons.inj htail).1
  exact hvar ▸ hintroduced

theorem conservative_of_adds (hs : s.InScope) (hc : s.context.NamesTaken) (hr : R.Reliable name t s)
    {w : Variable} {c : Context} {e : String × Term}
    (hintroduced : Introduced s.context.alphabet s s' w c e) (hadds : Adds name t s v d u s')
    (hd : Preserves R t s v d s'.goal) : Conservative R t s s' v := by
  have hintroduced := hadds.introduced hintroduced
  have hnames := names_of_newVariable hadds.new
  have ht : t.Over s.context.alphabet := hs.context.over_of_isDefined hnames.defined
  have hmodels : ∀ {ν}, R.Models s' ν ↔ R.Models s ν ∧ ν v = R.value ν t :=
    hadds.models_iff_of_preserves hr ht hd
  have hmem : ∀ w, var w ∈ s'.declaredVariables ↔ w = v ∨ var w ∈ s.declaredVariables :=
    fun w => hintroduced.mem_declaredVariables
  -- The variable can be given the value of the term: nothing depends on its value yet.
  have hextend : ∀ ν, R.Models s ν → ∃ ν', R.Models s' ν' ∧ AgreeOn s ν ν' ∧
      ν' v = R.value ν t ∧ R.Range v.kind (ν' v) := by
    intro ν hν
    have hagree : AgreeOn s ν (Function.update ν v (R.value ν t)) := by
      intro w hw
      have hne : w ≠ v := fun heq => hnames.name_ne hc hw (congrArg Variable.name heq)
      rw [Function.update_of_ne hne]
    have hvalue : Function.update ν v (R.value ν t) v = R.value ν t := Function.update_self ..
    have hν' := (hagree.models_iff hs.context).1 hν
    refine ⟨_, hmodels.2 ⟨hν', hvalue.trans (hagree.value_eq ht)⟩, hagree, hvalue, ?_⟩
    rw [hvalue]
    exact range_of_typeName hnames.kind ht hν.respects (hr.answers ν hν.respects)
  have hrestrict : ∀ ν ν', R.Models s' ν' → AgreeOn s ν ν' → R.Models s ν := fun ν ν' hν' hagree =>
    (hagree.models_iff hs.context).2 (hmodels.1 hν').1
  have hgoal : ∀ ν ν', R.Models s' ν' → AgreeOn s ν ν' → (R.Holds ν' s'.goal ↔ R.Holds ν s.goal) := by
    intro ν ν' hν' hagree
    obtain ⟨hold, hvalue⟩ := hmodels.1 hν'
    exact (hd.goal ν' hold.respects hvalue).trans (hagree.holds_iff hs.goal).symm
  exact
    { wellScoped := (hintroduced.inScope hs).wellScoped
      fresh := fun w hw => hnames.name_ne hc hw
      declared := hmem
      exists_extension := hextend
      unique := by
        intro ν ν' hν hν' hagree w hw
        rcases (hmem w).1 hw with rfl | hw
        · rw [(hmodels.1 hν).2, (hmodels.1 hν').2, hagree.value_eq ht]
        · exact hagree w hw
      restricts := hrestrict
      goal := hgoal
      valid := by
        constructor
        · intro hvalid ν hν
          obtain ⟨ν', hν', hagree, -⟩ := hextend ν hν
          exact (hgoal ν ν' hν' hagree).1 (hvalid ν' hν')
        · intro hvalid ν hν
          have hagree : AgreeOn s ν ν := fun _ _ => rfl
          exact (hgoal ν ν hν hagree).2 (hvalid ν (hrestrict ν ν hν hagree)) }

/-- The state with the definition `u` of the variable `v` behind the hypotheses `d`. -/
def withDefinition (name : String) (s : State) (v : Variable) (d : Context) (u goal : Term) : State :=
  ⟨goal, d ++ [(v.name, declare v), (s.fresh (name ++ "_def"), u)]⟩

theorem adds_introduceOf (name : String) (t : Term) (s : State) :
    (introduceOf name t s).Yields fun states => ∃ v u,
      states = [withDefinition name s v s.context u s.goal] ∧
        Adds name t s v s.context u (withDefinition name s v s.context u s.goal) := by
  refine yields_bind_of_result fun v hv => yields_bind fun _ => ?_
  refine yields_bind_of_result fun s' hs' => yields_pure ⟨v, ?_⟩
  obtain ⟨u, hu, hs'⟩ := result_bind_eq_ok.1 hs'
  cases hs'
  have hput := put_put_fresh rfl (names_of_newVariable hv).name_eq u
  exact ⟨u, congrArg (fun c => [State.mk s.goal c]) hput, hv, hu, rfl⟩

theorem adds_abbreviateOf (name : String) (t : Term) (s : State) :
    (abbreviateOf name t s).Yields fun states => ∃ v u d goal,
      (replaceInContext t (var v) s.context).result = .ok d ∧
        (Substitution.replace t (var v) s.goal).result = .ok goal ∧
        states = [withDefinition name s v d u goal] ∧
        Adds name t s v d u (withDefinition name s v d u goal) := by
  refine yields_bind_of_result fun v hv => yields_bind fun _ => ?_
  refine yields_bind_of_result fun d hd => yields_bind_of_result fun goal hgoal => ?_
  refine yields_bind_of_result fun s' hs' => yields_pure ⟨v, ?_⟩
  obtain ⟨u, hu, hs'⟩ := result_bind_eq_ok.1 hs'
  cases hs'
  have hnames := names_replaceInContext t (var v) s.context d hd
  have hput := put_put_fresh hnames (names_of_newVariable hv).name_eq u
  exact ⟨u, d, goal, hd, hgoal, congrArg (fun c => [State.mk goal c]) hput, hv, hu, rfl⟩

theorem forall_replaceInContext {old new : Term} {c : Context} {Q : Term → Prop}
    (hd : (replaceInContext old new c).result = .ok d)
    (hQ : ∀ h ∈ c.hypotheses, isDeclaration h = false →
      ∀ u, (Substitution.replace old new h).result = .ok u → (Q u ↔ Q h)) :
    (∀ h ∈ d.hypotheses, Q h) ↔ ∀ h ∈ c.hypotheses, Q h := by
  have hall := result_mapM_eq_ok.1 hd
  clear hd
  induction hall with
  | nil => exact Iff.rfl
  | @cons p q c d hq _ ih =>
    have hhead : Q q.2 ↔ Q p.2 := by
      split at hq
      · cases hq
        exact Iff.rfl
      · next hdecl =>
        obtain ⟨u, hu, hq⟩ := result_bind_eq_ok.1 hq
        cases hq
        exact hQ p.2 (List.mem_cons_self ..) (Bool.eq_false_iff.2 hdecl) u hu
    have htail := ih fun h hh => hQ h (List.mem_cons_of_mem _ hh)
    have hcons : ∀ (p : String × Term) (c : Context), (∀ h ∈ Context.hypotheses (p :: c), Q h) ↔
        Q p.2 ∧ ∀ h ∈ c.hypotheses, Q h := fun p c => List.forall_mem_cons
    rw [hcons, hcons]
    exact and_congr hhead htail

theorem mem_replaceInContext {old new : Term} {c : Context} {p : String × Term}
    (hd : (replaceInContext old new c).result = .ok d) (hp : p ∈ c)
    (hdecl : isDeclaration p.2 = true) : p ∈ d := by
  obtain ⟨q, hq, hpq⟩ := exists_mem_of_mapM hd hp
  rw [if_pos hdecl] at hpq
  cases hpq
  exact hq

/-- **Definitions are conservative.**  In a well scoped state an introduced variable extends the state
conservatively.  So does an abbreviation, if replacing the term keeps values. -/
theorem definitions_conservative (R : Reading X) (hs : s.WellScoped) (hc : s.context.NamesTaken)
    (hr : R.Reliable name t s) :
    (∀ states, (introduceOf name t s).result = .ok states →
      ∃ v s', states = [s'] ∧ Conservative R t s s' v) ∧
    (R.KeepsValues name t s → ∀ states, (abbreviateOf name t s).result = .ok states →
      ∃ v s', states = [s'] ∧ Conservative R t s s' v) := by
  have hin := hs.inScope hc
  have hchecked : Checked s.context.alphabet s t := hin.context.over_of_isDefined
  constructor
  · intro states hstates
    obtain ⟨v, u, rfl, hadds⟩ := adds_introduceOf name t s states hstates
    obtain ⟨w, e, hintroduced⟩ :=
      introduced_introduce hin.over hchecked name _ hstates _ (List.mem_singleton_self _)
    refine ⟨v, _, rfl, conservative_of_adds hin hc hr hintroduced hadds ?_⟩
    exact ⟨fun _ hp _ => hp, fun _ _ _ => Iff.rfl, fun _ _ _ => Iff.rfl⟩
  · intro hkeeps states hstates
    obtain ⟨v, u, d, goal, hd, hgoal, rfl, hadds⟩ := adds_abbreviateOf name t s states hstates
    obtain ⟨w, c, e, -, hintroduced⟩ :=
      introduced_abbreviate hin.over hchecked name _ hstates _ (List.mem_singleton_self _)
    have hholds : ∀ ν, R.Respects s ν → ν v = R.value ν t →
        ∀ h, h = s.goal ∨ h ∈ s.context.hypotheses ∧ isDeclaration h = false →
        ∀ u, (Substitution.replace t (var v) h).result = .ok u → (R.Holds ν u ↔ R.Holds ν h) := by
      intro ν hν hvalue h hh u hu
      unfold Holds
      rw [hkeeps v hadds.new h hh u hu ν hν hvalue]
    refine ⟨v, _, rfl, conservative_of_adds hin hc hr hintroduced hadds ⟨fun p hp hdecl => ?_,
      fun ν hν hvalue => ?_, fun ν hν hvalue => ?_⟩⟩
    · exact mem_replaceInContext hd hp hdecl
    · exact forall_replaceInContext hd fun h hh hdecl => hholds ν hν hvalue h (.inr ⟨hh, hdecl⟩)
    · exact hholds ν hν hvalue s.goal (.inl rfl) goal hgoal

def numberOf : ℝ ⊕ Prop → ℝ
  | .inl x => x
  | .inr _ => 0

noncomputable def sums : Reading (ℝ ⊕ Prop) where
  Has
    | .integer, .inl x => ∃ n : ℤ, x = n
    | .rational, .inl x => ∃ q : ℚ, x = q
    | .real, .inl _ => True
    | .complex, .inl _ => True
    | .positive, .inl x => 0 < x
    | .nonnegative, .inl x => 0 ≤ x
    | .nonzero, .inl x => x ≠ 0
    | _, _ => False
  IsTruth x := x.isRight = true
  IsMagnitude _ := False
  constant
    | .num q => .inl q
    | .truth c => .inr (c = true)
    | _ => .inr False
  apply
    | .rel .eq, [x, y] => .inr (x = y)
    | .rel .le, [x, y] => .inr (numberOf x ≤ numberOf y)
    | .add, xs => .inl (xs.map numberOf).sum
    | _, _ => .inr False
  declared k x := .inr (Domain.Range _ k x)
  Accepts
    | .inl _ => False
    | .inr p => p
  accepts_declared _ _ := Iff.rfl
  accepts_equation _ _ := Iff.rfl
  accepts_truth _ := Iff.rfl
  isTruth_constant _ := rfl
  isTruth_apply h xs hh := by
    rcases hh with rfl | rfl | rfl | rfl <;> rfl

def wholeTotal : Term := app .add [var ⟨"m", .nonnegInt⟩, var ⟨"n", .posInt⟩]

def boundedTotal : State where
  goal := app (.rel .le) [var ⟨"n", .posInt⟩, num 7]
  context := [("m", declare ⟨"m", .nonnegInt⟩), ("n", declare ⟨"n", .posInt⟩),
    ("h", app (.rel .le) [wholeTotal, num 7])]

def totalVariable : Variable := ⟨"h'", .posInt⟩

theorem newVariable_total :
    (newVariable "h" wholeTotal boundedTotal).result = .ok totalVariable := by
  with_unfolding_all rfl

theorem value_total (ν : Variable → ℝ ⊕ Prop) : sums.value ν wholeTotal =
    .inl (numberOf (ν ⟨"m", .nonnegInt⟩) + numberOf (ν ⟨"n", .posInt⟩)) := by
  have hne : Head.add ≠ .declared := nofun
  unfold wholeTotal
  rw [value_app hne]
  simp [sums]

theorem exists_of_respects {ν : Variable → ℝ ⊕ Prop} (hν : sums.Respects boundedTotal ν) :
    ∃ i j : ℤ, 0 ≤ i ∧ 0 < j ∧ ν ⟨"m", .nonnegInt⟩ = .inl (i : ℝ) ∧ ν ⟨"n", .posInt⟩ = .inl (j : ℝ) := by
  have hm := (hν ⟨"m", .nonnegInt⟩ (by decide)).properties
  have hn := (hν ⟨"n", .posInt⟩ (by decide)).properties
  generalize ν ⟨"m", .nonnegInt⟩ = x at hm
  generalize ν ⟨"n", .posInt⟩ = y at hn
  rcases x with x | x
  · rcases y with y | y
    · obtain ⟨i, hi⟩ : ∃ i : ℤ, x = i := hm .integer (by decide)
      obtain ⟨j, hj⟩ : ∃ j : ℤ, y = j := hn .integer (by decide)
      have hx : 0 ≤ x := hm .nonnegative (by decide)
      have hy : 0 < y := hn .positive (by decide)
      subst hi hj
      exact ⟨i, j, by exact_mod_cast hx, by exact_mod_cast hy, rfl, rfl⟩
    · exact (hn .integer (by decide)).elim
  · exact (hm .integer (by decide)).elim

theorem reliable_total : sums.Reliable "h" wholeTotal boundedTotal := by
  refine ⟨fun ν hν k p hp _ => ?_, fun v c hv hc => ?_⟩
  · obtain ⟨i, j, hi, hj, hm, hn⟩ := exists_of_respects hν
    have hvalue : sums.value ν wholeTotal = .inl ((i + j : ℤ) : ℝ) := by
      rw [value_total, hm, hn]
      simp [numberOf]
    have hpos : (0 : ℝ) < ((i + j : ℤ) : ℝ) := by exact_mod_cast Int.add_pos_of_nonneg_of_pos hi hj
    have hrat : ∃ q : ℚ, ((i + j : ℤ) : ℝ) = q := ⟨((i + j : ℤ) : ℚ), by norm_cast⟩
    have hall : ∀ p ∈ [Property.integer, .rational, .real, .complex, .positive, .nonnegative, .nonzero],
        sums.Has p (.inl ((i + j : ℤ) : ℝ)) := by
      simp only [List.forall_mem_cons, List.not_mem_nil, false_imp_iff, implies_true, and_true]
      exact ⟨⟨i + j, rfl⟩, hrat, True.intro, True.intro, hpos, hpos.le, hpos.ne'⟩
    rw [hvalue]
    refine hall p ?_
    revert p
    cases k <;> decide
  · rw [newVariable_total] at hv
    cases hv
    have hopen : (sub (var totalVariable) wholeTotal).ask .zero = none := by
      with_unfolding_all rfl
    rw [hopen] at hc
    cases hc

theorem keepsValues_total : sums.KeepsValues "h" wholeTotal boundedTotal := by
  intro v hv h hh u hu ν hν hvalue
  rw [newVariable_total] at hv
  cases hv
  have hgoal : (Substitution.replace wholeTotal (var totalVariable) boundedTotal.goal).result =
      .ok boundedTotal.goal := by
    with_unfolding_all rfl
  have hbound : (Substitution.replace wholeTotal (var totalVariable)
      (app (.rel .le) [wholeTotal, num 7])).result = .ok (app (.rel .le) [var totalVariable, num 7]) := by
    with_unfolding_all rfl
  have hne : Head.rel .le ≠ .declared := nofun
  rcases hh with rfl | ⟨hh, hdecl⟩
  · rw [hgoal] at hu
    cases hu
    rfl
  · simp only [boundedTotal, Context.hypotheses, List.map_cons, List.map_nil, List.mem_cons,
      List.not_mem_nil, or_false] at hh
    rcases hh with rfl | rfl | rfl
    · cases hdecl
    · cases hdecl
    · rw [hbound] at hu
      cases hu
      rw [value_app hne, value_app hne, List.map_cons, List.map_cons, value_var, hvalue]
      rfl

def totalEquation : Term := app (.rel .eq) [var totalVariable, wholeTotal]

def namedTotal : State :=
  withDefinition "h" boundedTotal totalVariable boundedTotal.context totalEquation boundedTotal.goal

def abbreviatedTotal : State :=
  withDefinition "h" boundedTotal totalVariable
    [("m", declare ⟨"m", .nonnegInt⟩), ("n", declare ⟨"n", .posInt⟩),
      ("h", app (.rel .le) [var totalVariable, num 7])] totalEquation boundedTotal.goal

/-- **A sum of whole numbers is defined** and abbreviated by a positive whole number, under a variant of
the name that is not in use. -/
theorem boundedTotal_defined :
    (boundedTotal.WellScoped ∧ boundedTotal.context.NamesTaken ∧ sums.Reliable "h" wholeTotal boundedTotal ∧
      sums.KeepsValues "h" wholeTotal boundedTotal) ∧
    ((introduceOf "h" wholeTotal boundedTotal).result = .ok [namedTotal] ∧
      ∃ v, Conservative sums wholeTotal boundedTotal namedTotal v) ∧
    (abbreviateOf "h" wholeTotal boundedTotal).result = .ok [abbreviatedTotal] ∧
      ∃ v, Conservative sums wholeTotal boundedTotal abbreviatedTotal v := by
  have hscoped : boundedTotal.WellScoped := by
    unfold State.WellScoped
    decide +kernel
  have hnames : boundedTotal.context.NamesTaken := by
    have hcoherent : boundedTotal.context.Coherent := by
      refine ⟨by decide, ?_⟩
      simp [boundedTotal, declare, isDeclaration]
    exact hcoherent.namesTaken
  have hnamed : (introduceOf "h" wholeTotal boundedTotal).result = .ok [namedTotal] := by
    with_unfolding_all rfl
  have habbreviated : (abbreviateOf "h" wholeTotal boundedTotal).result = .ok [abbreviatedTotal] := by
    with_unfolding_all rfl
  obtain ⟨hintroduce, habbreviate⟩ :=
    definitions_conservative sums hscoped hnames reliable_total
  obtain ⟨v, _, heq, hv⟩ := hintroduce _ hnamed
  obtain ⟨w, _, heq', hw⟩ := habbreviate keepsValues_total _ habbreviated
  cases heq
  cases heq'
  exact ⟨⟨hscoped, hnames, reliable_total, keepsValues_total⟩, ⟨hnamed, v, hv⟩, habbreviated, w, hw⟩

end Tactic
end Majorant
