import Majorant.Proofs.Statement.World
import Majorant.Tactic.Run

/-!
# Noting the sign of a variable

A variable gets a sharper kind if a hypothesis says at once that it is positive or not negative, and then its
value in every world that satisfies the hypotheses is of the sharper kind.
-/

namespace Majorant
open Term Proof

namespace SignFact

def relation : SignFact → Rel
  | .positive => .gt
  | .nonnegative => .ge
  | .nonzero => .ne

def claim (fact : SignFact) (x : Variable) : Term := app (.rel fact.relation) [var x, num 0]

/-- The sharper kind of a real variable. -/
def kindFor (fact : SignFact) (k : Kind) : Kind :=
  if (Knowledge.ofKind k).is .integer then fact.kinds.1
  else if (Knowledge.ofKind k).is .rational then fact.kinds.2.1
  else fact.kinds.2.2

variable {fact : SignFact} {x : Variable} {k : Kind}

theorem sharpen_eq (h : (var x).is .real = true) (name : String) :
    fact.sharpen name (var x) = pure (fact.kindFor x.kind) := by
  unfold sharpen kindFor
  rw [h]
  rw [Term.is, Term.is, facts_var]
  split
  · rfl
  · split <;> rfl

/-- **The sharper kind** has the numbers of the old kind with the sign. -/
theorem admits_kindFor (hreal : (Knowledge.ofKind k).is .real = true) {y : ℝ} (hy : k.Admits y) :
    (fact.kindFor k).Admits y ↔ fact.relation.Compares y 0 := by
  obtain ⟨hcontains, -⟩ := hy
  cases k <;> first
    | exact absurd hreal (by decide)
    | (cases fact <;> exact and_iff_right hcontains)

theorem isNumeric_of_real (h : (Knowledge.ofKind k).is .real = true) : k.isNumeric = true := by
  revert h
  cases k <;> decide

theorem comparable_var (h : (var x).is .real = true) : Statement.Comparable (var x) where
  ofLiteral := rfl
  evades := rfl
  isQuantity := rfl
  isNot_extReal := by
    rw [Term.is, facts_var] at h
    rw [Term.isNot, facts_var]
    revert h
    cases x.kind <;> decide
  proper := nofun

theorem comparable_zero : Statement.Comparable (num 0) where
  ofLiteral := rfl
  evades := rfl
  isQuantity := rfl
  isNot_extReal := by decide
  proper := nofun

theorem sub_zero_var (x : Variable) : sub (num 0) (var x) = app .mul [num (-1), var x] := by
  with_unfolding_all rfl

theorem sub_var_zero (x : Variable) : sub (var x) (num 0) = var x := by
  with_unfolding_all rfl

theorem ask_opposite (hreal : (Knowledge.ofKind k).is .real = true)
    (hopen : (Knowledge.ofKind k).is .positive = false) :
    (Facts.product [⟨some (-1), Knowledge.exact (-1), none⟩,
      ⟨none, Knowledge.ofKind k, none⟩]).ask .extNonnegative = none := by
  revert hreal hopen
  cases k <;> decide

theorem not_infinite_zero : (num 0).is .infinite = false := by decide

theorem not_infinite_var (hreal : (Knowledge.ofKind x.kind).is .real = true) :
    (var x).is .infinite = false := by
  rw [Term.is, facts_var]
  revert hreal
  cases x.kind <;> decide

theorem decided?_positive (hreal : (var x).is .real = true) (hopen : (var x).is .positive = false) :
    Statement.decided? .gt (var x) (num 0) = none := by
  rw [Term.is, facts_var] at hreal hopen
  have hleast : atLeast? (num 0) (var x) = none := by
    have hask : (app .mul [num (-1), var x]).ask .extNonnegative = none := ask_opposite hreal hopen
    unfold atLeast?
    rw [not_infinite_zero, not_infinite_var hreal, sub_zero_var]
    dsimp only
    rw [hask]
    split <;> rfl
  rw [Statement.decided?, hleast]
  rfl

theorem decided?_nonnegative (hreal : (var x).is .real = true)
    (hopen : (var x).is .nonnegative = false) :
    Statement.decided? .ge (var x) (num 0) = none := by
  rw [Term.is, facts_var] at hreal hopen
  have hask : (var x).ask .extNonnegative = none := by
    rw [Term.ask, facts_var]
    revert hreal hopen
    cases x.kind <;> decide
  unfold Statement.decided? atLeast?
  rw [not_infinite_zero, not_infinite_var hreal, sub_var_zero]
  dsimp only
  rw [hask]
  split <;> rfl

theorem compare_eq (hfact : fact ≠ .nonzero) (hreal : (var x).is .real = true)
    (hopen : (var x).is fact.property = false) :
    Operation.compare fact.relation (var x) (lit (.int 0)) = pure (fact.claim x) := by
  have horder : (var x).isOrder = false := by
    rw [Term.is, facts_var] at hreal
    change (x.kind == .order) = false
    revert hreal
    cases x.kind <;> decide
  have hdecided : Statement.decided? fact.relation (var x) (num 0) = none := by
    cases fact with
    | positive => exact decided?_positive hreal hopen
    | nonnegative => exact decided?_nonnegative hreal hopen
    | nonzero => exact absurd rfl hfact
  have hrelate : Statement.relate fact.relation (var x) (num 0) = pure (fact.claim x) := by
    rw [Statement.relate_eq_settle (comparable_var hreal) comparable_zero (.inr rfl), hdecided]
    rfl
  rw [← hrelate]
  unfold Operation.compare
  dsimp only [Operation.written?, Operation.orderOnRight, Operation.isWritten]
  rw [horder]
  rfl

theorem followsFor_eq (hfact : fact ≠ .nonzero) (hreal : (var x).is .real = true)
    (hopen : (var x).is fact.property = false) (s : State) :
    fact.followsFor (var x) s = s.test (fact.claim x) true := by
  have hcompare := compare_eq hfact hreal hopen
  cases fact with
  | positive => exact congrArg (· >>= fun t => s.test t true) hcompare
  | nonnegative => exact congrArg (· >>= fun t => s.test t true) hcompare
  | nonzero => exact absurd rfl hfact

end SignFact

namespace World

variable {M : Type}

noncomputable def retype (w : World M) (x new : Variable) (h : new.kind.Admits (w.value x)) : World M :=
  w.update new (w.value x) h

def Verifies [LinearOrder M] (w : World M) (s : State) : Prop :=
  (∀ h ∈ s.context.hypotheses, w.Holds h) → w.Holds s.goal

end World

namespace Tactic

variable {M : Type} [LinearOrder M] {fact : SignFact} {target : Target} {s : State}
  {states : List State} {name : String} {x new : Variable}

def renamed (name : String) (x new : Variable) (s : State) : Outcome State := do
  let context ← s.context.mapM fun p => do
    if p.1 == name then return (name, declare new)
    return (p.1, ← Substitution.replace (var x) (var new) p.2)
  let goal ← Substitution.replace (var x) (var new) s.goal
  return ⟨goal, context⟩

theorem noteSignOf_eq (hfind : (findTarget s target).result = .ok (name, var x))
    (hreal : (var x).is .real = true) (hrun : (noteSignOf fact target s).result = .ok states) :
    states = [s] ∧ ((var x).is fact.property = true ∨ (fact.followsFor (var x) s).result = .ok false) ∨
      ((var x).is fact.property = false ∧ (fact.followsFor (var x) s).result = .ok true ∧
        ∃ s', (renamed name x ⟨name, fact.kindFor x.kind⟩ s).result = .ok s' ∧
          states = if s'.goal = top then [] else [s']) := by
  unfold noteSignOf at hrun
  rw [Outcome.result_bind_of_ok hfind] at hrun
  dsimp only at hrun
  cases hknown : (var x).is fact.property with
  | true =>
    rw [hknown] at hrun
    exact .inl ⟨(Except.ok.inj hrun).symm, .inl rfl⟩
  | false =>
    rw [hknown] at hrun
    obtain ⟨found, hfound, hrun⟩ := Outcome.result_bind_eq_ok.1 hrun
    cases found with
    | false => exact .inl ⟨(Except.ok.inj hrun).symm, .inr hfound⟩
    | true =>
      refine .inr ⟨rfl, hfound, ?_⟩
      rw [if_neg (by decide), fact.sharpen_eq hreal, pure_bind] at hrun
      obtain ⟨-, -, hrun⟩ := Outcome.result_bind_eq_ok.1 hrun
      obtain ⟨context, hcontext, hrun⟩ := Outcome.result_bind_eq_ok.1 hrun
      obtain ⟨goal, hgoal, hrun⟩ := Outcome.result_bind_eq_ok.1 hrun
      refine ⟨⟨goal, context⟩, Outcome.result_bind_eq_ok.2 ⟨context, hcontext,
        Outcome.result_bind_eq_ok.2 ⟨goal, hgoal, rfl⟩⟩, ?_⟩
      by_cases htop : goal = top
      · rw [if_pos htop] at hrun ⊢
        exact (Except.ok.inj hrun).symm
      · rw [if_neg htop] at hrun ⊢
        exact (Except.ok.inj hrun).symm

/-- Replacing the variable by a new one with its value keeps the truth of a statement. -/
def KeepsTruth (w : World M) (x new : Variable) (h : new.kind.Admits (w.value x)) (t : Term) : Prop :=
  ∀ u, (Substitution.replace (var x) (var new) t).result = .ok u →
    ((w.retype x new h).Holds u ↔ w.Holds t)

theorem verifies_of_renamed {w : World M} {s' : State} (h : new.kind.Admits (w.value x))
    (hkeeps : ∀ t ∈ s.goal :: s.context.hypotheses, KeepsTruth w x new h t)
    (hrenamed : (renamed name x new s).result = .ok s')
    (hverifies : s'.goal = top ∨ (w.retype x new h).Verifies s') : w.Verifies s := by
  obtain ⟨context, hcontext, hrenamed⟩ := Outcome.result_bind_eq_ok.1 hrenamed
  obtain ⟨goal, hgoal, hrenamed⟩ := Outcome.result_bind_eq_ok.1 hrenamed
  cases hrenamed
  intro hhyps
  refine (hkeeps s.goal List.mem_cons_self goal hgoal).1 ?_
  rcases hverifies with htop | hverifies
  · rw [show goal = top from htop]
    simp [top]
  · refine hverifies fun u hu => ?_
    -- every new hypothesis comes from an old one, or declares the new variable
    obtain ⟨p', hp', rfl⟩ := List.mem_map.1 hu
    obtain ⟨p, hp, hstep⟩ := Outcome.exists_of_mem_mapM hcontext hp'
    by_cases hname : p.1 == name
    · rw [if_pos hname] at hstep
      cases hstep
      exact World.holds_declare
    · rw [if_neg hname] at hstep
      obtain ⟨v, hv, hstep⟩ := Outcome.result_bind_eq_ok.1 hstep
      cases hstep
      have hmem : p.2 ∈ s.context.hypotheses := List.mem_map_of_mem hp
      exact (hkeeps p.2 (List.mem_cons_of_mem _ hmem) v hv).2 (hhyps p.2 hmem)

theorem relates_of_followsFor {w : World M} (hfact : fact ≠ .nonzero) (hreal : (var x).is .real = true)
    (hopen : (var x).is fact.property = false) (hfound : (fact.followsFor (var x) s).result = .ok true)
    (hinterprets : ∀ h ∈ s.context.hypotheses, w.Interprets h)
    (hhyps : ∀ h ∈ s.context.hypotheses, w.Holds h) : fact.relation.Compares (w.value x) 0 := by
  have hnumeric : x.kind.isNumeric = true := by
    rw [Term.is, facts_var] at hreal
    exact SignFact.isNumeric_of_real hreal
  have hnumbers : w.Numbers (var x) (num 0) := ⟨(denotes_var x).2 hnumeric, denotes_num 0⟩
  rw [SignFact.followsFor_eq hfact hreal hopen] at hfound
  have hclaim : w.Holds (fact.claim x) :=
    World.holds_of_test hinterprets (.rel (.inl hnumbers)) hfound hhyps
  have hrelates := (World.relates_of_numbers hnumbers).1 (World.holds_rel.1 hclaim)
  simpa [Term.val] using hrelates

/-- **Noting a sign.**  A variable with the sign keeps its declaration, and for a positive variable or one
that is not negative so does one whose sign does not follow from a hypothesis.  Where the declaration is
changed, the sharper kind has the values with the sign, the hypotheses give the variable such a value,
and the state is verified if the states left are.  That a variable does not vanish is not asked of the
hypotheses: the sharper kind is right only where the value is not zero. -/
theorem note_sign_sound (hfind : (findTarget s target).result = .ok (name, var x))
    (hreal : (var x).is .real = true) (hrun : ((noteSign fact target).run s).result = .ok states) :
    ((var x).is fact.property = true → states = [s]) ∧
      (fact ≠ .nonzero → (∀ h ∈ s.context.hypotheses,
        (Statement.follows h (fact.claim x)).result ≠ .ok true) → states = [s]) ∧
      (∀ w : World M, (fact.kindFor x.kind).Admits (w.value x) ↔
        fact.relation.Compares (w.value x) 0) ∧
      (∀ w : World M, fact ≠ .nonzero → states ≠ [s] →
        (∀ h ∈ s.context.hypotheses, w.Interprets h) →
        (∀ h ∈ s.context.hypotheses, w.Holds h) → (fact.kindFor x.kind).Admits (w.value x)) ∧
      (∀ (w : World M) (h : (fact.kindFor x.kind).Admits (w.value x)),
        (∀ t ∈ s.goal :: s.context.hypotheses, KeepsTruth w x ⟨name, fact.kindFor x.kind⟩ h t) →
        states ≠ [s] → (∀ s' ∈ states, (w.retype x ⟨name, fact.kindFor x.kind⟩ h).Verifies s') →
        w.Verifies s) ∧
      (fact = .nonzero → (var x).is .nonzero = false →
        ∃ s', (renamed name x ⟨name, fact.kindFor x.kind⟩ s).result = .ok s' ∧
          states = if s'.goal = top then [] else [s']) := by
  have hkind : (Knowledge.ofKind x.kind).is .real = true := by rwa [Term.is, facts_var] at hreal
  have hadmits : ∀ w : World M, (fact.kindFor x.kind).Admits (w.value x) ↔
      fact.relation.Compares (w.value x) 0 := fun w =>
    SignFact.admits_kindFor hkind (w.fits x (SignFact.isNumeric_of_real hkind))
  rcases noteSignOf_eq hfind hreal hrun with ⟨hsame, hwhy⟩ | ⟨hopen, hfound, s', hs', hstates⟩
  · refine ⟨fun _ => hsame, fun _ _ => hsame, hadmits, fun _ _ hne => absurd hsame hne,
      fun _ _ _ hne => absurd hsame hne, ?_⟩
    -- that a variable does not vanish is always taken to follow
    rintro rfl hopen
    rcases hwhy with hknown | hfound
    · exact absurd hknown (by rw [show SignFact.nonzero.property = .nonzero from rfl, hopen]; decide)
    · cases hfound
  · refine ⟨?_, ?_, hadmits, ?_, ?_, fun _ _ => ⟨s', hs', hstates⟩⟩
    · intro hknown
      rw [hknown] at hopen
      cases hopen
    · intro hfact hnone
      rw [SignFact.followsFor_eq hfact hreal hopen] at hfound
      rcases World.exists_of_test hfound with h | h | ⟨h, hmem, hfollows⟩
      · cases h
      · cases h
      · exact absurd hfollows (hnone h hmem)
    · intro w hfact _ hinterprets hhyps
      exact (hadmits w).2 (relates_of_followsFor hfact hreal hopen hfound hinterprets hhyps)
    · intro w hfit hkeeps _ hverifies
      refine verifies_of_renamed hfit hkeeps hs' ?_
      by_cases htop : s'.goal = top
      · exact .inl htop
      · rw [if_neg htop] at hstates
        exact .inr (hverifies s' (by rw [hstates]; exact List.mem_singleton_self s'))

abbrev free : Variable := ⟨"x", .real⟩

def positiveNumber : State :=
  ⟨app (.rel .ge) [var free, num 0],
    [("x", declare free), ("h", app (.rel .gt) [var free, num 0])]⟩

def anyNumber : State := ⟨app (.rel .ne) [var free, num 0], [("x", declare free)]⟩

noncomputable def numberWorld (c : ℝ) : World Unit := World.ones.update free c ⟨True.intro, True.intro⟩

theorem relates_numberWorld {c : ℝ} {r : Rel} :
    (numberWorld c).Relates r (var free) (num 0) ↔ r.Compares c 0 := by
  have hnumbers : (numberWorld c).Numbers (var free) (num 0) := ⟨(denotes_var _).2 rfl, denotes_num 0⟩
  rw [World.relates_of_numbers hnumbers]
  simp [Term.val, numberWorld, World.update]

theorem KeepsTruth.of_eq {w : World M} {h : new.kind.Admits (w.value x)} {t u : Term}
    (hu : (Substitution.replace (var x) (var new) t).result = .ok u)
    (hsame : (w.retype x new h).Holds u ↔ w.Holds t) : KeepsTruth w x new h t := by
  intro u' hu'
  rw [hu] at hu'
  cases hu'
  exact hsame

theorem interprets_positiveNumber :
    ∀ h ∈ positiveNumber.context.hypotheses, (numberWorld 3).Interprets h := by
  simp only [positiveNumber, Context.hypotheses, List.map_cons, List.map_nil, List.forall_mem_cons]
  exact ⟨.marker rfl _, .rel (.inr ⟨rfl, rfl⟩), nofun⟩

theorem holds_positiveNumber : ∀ h ∈ positiveNumber.context.hypotheses, (numberWorld 3).Holds h := by
  simp only [positiveNumber, Context.hypotheses, List.map_cons, List.map_nil, List.forall_mem_cons]
  refine ⟨World.holds_declare, ?_, nofun⟩
  rw [World.holds_rel, relates_numberWorld]
  norm_num [Rel.Compares]

theorem keepsTruth_positiveNumber {new : Variable} (hnew : new = ⟨"x", .posReal⟩)
    (hfit : new.kind.Admits ((numberWorld 3).value free)) :
    ∀ t ∈ positiveNumber.goal :: positiveNumber.context.hypotheses,
      KeepsTruth (numberWorld 3) free new hfit t := by
  subst hnew
  simp only [positiveNumber, Context.hypotheses, List.map_cons, List.map_nil, List.forall_mem_cons]
  have htrue : ∀ r : Rel, r.Compares (3 : ℝ) 0 →
      (((numberWorld 3).retype free ⟨"x", .posReal⟩ hfit).Holds top ↔
        (numberWorld 3).Holds (app (.rel r) [var free, num 0])) := by
    intro r hr
    simp [top, relates_numberWorld, hr]
  refine ⟨.of_eq (u := top) (by with_unfolding_all rfl) (htrue .ge ?_),
    .of_eq (u := declare ⟨"x", .posReal⟩) (by with_unfolding_all rfl) ?_,
    .of_eq (u := top) (by with_unfolding_all rfl) (htrue .gt ?_), List.forall_mem_nil _⟩
  · norm_num [Rel.Compares]
  · exact iff_of_true World.holds_declare World.holds_declare
  · norm_num [Rel.Compares]

theorem signs_noted :
    ((noteSign .positive (.named "x")).run positiveNumber).result = .ok [] ∧
      Kind.posReal.Admits ((numberWorld 3).value free) ∧ (numberWorld 3).Verifies positiveNumber ∧
      ((noteSign .nonzero (.named "x")).run anyNumber).result = .ok [] ∧
      ¬ Kind.nonzeroReal.Admits ((numberWorld 0).value free) ∧ ¬ (numberWorld 0).Verifies anyNumber := by
  have hpositive : ((noteSign .positive (.named "x")).run positiveNumber).result = .ok [] := by
    with_unfolding_all rfl
  have hnonzero : ((noteSign .nonzero (.named "x")).run anyNumber).result = .ok [] := by
    with_unfolding_all rfl
  obtain ⟨-, -, -, hadmits, hsound, -⟩ := note_sign_sound (M := Unit) (x := free) rfl (by decide) hpositive
  obtain ⟨-, -, hkind, -, -, -⟩ := note_sign_sound (M := Unit) (x := free) rfl (by decide) hnonzero
  have hfit := hadmits (numberWorld 3) (by decide) (by decide) interprets_positiveNumber
    holds_positiveNumber
  refine ⟨hpositive, hfit,
    hsound (numberWorld 3) hfit (keepsTruth_positiveNumber rfl hfit) (by decide) nofun, hnonzero, ?_, ?_⟩
  · intro h
    exact absurd ((hkind (numberWorld 0)).1 h) (by simp [SignFact.relation, Rel.Compares, numberWorld,
      World.update])
  · intro hverifies
    have hgoal := hverifies (by
      simpa only [anyNumber, Context.hypotheses, List.map_cons, List.map_nil, List.forall_mem_singleton]
        using World.holds_declare)
    rw [anyNumber, World.holds_rel, relates_numberWorld] at hgoal
    exact hgoal rfl

end Tactic
end Majorant
