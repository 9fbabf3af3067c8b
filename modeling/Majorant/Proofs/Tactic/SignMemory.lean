import Majorant.Proofs.Tactic.Renaming

/-!
# Signs that are forgotten

When the sign of a variable is noted, the new kind is found from the sign and from the sort of number alone,
so a sign that only the old kind told is lost.
-/

namespace Majorant
open Term Proof Substitution

namespace SignFact

variable {fact : SignFact} {k : Kind}

abbrev variableFor (fact : SignFact) (name : String) (x : Variable) : Variable :=
  ⟨name, fact.kindFor x.kind⟩

/-- **A sign is forgotten**: the old kind tells one that the new kind does not. -/
def forgets (fact : SignFact) (k : Kind) : Bool :=
  [Property.nonnegative, .nonzero].any fun p =>
    (Knowledge.ofKind k).is p && !(Knowledge.ofKind (fact.kindFor k)).is p

/-- Only two notes forget: that a number is not negative, if it was not zero, and that it is not zero, if
it was not negative. -/
theorem forgets_iff (hopen : (Knowledge.ofKind k).is fact.property = false) :
    fact.forgets k = true ↔
      fact = .nonnegative ∧ (Knowledge.ofKind k).is .nonzero = true ∨
        fact = .nonzero ∧ (Knowledge.ofKind k).is .nonnegative = true := by
  revert hopen
  cases fact <;> cases k <;> decide

theorem isReal_kindFor (fact : SignFact) (k : Kind) : (fact.kindFor k).isReal = true := by
  cases fact <;> cases k <;> rfl

theorem is_kindFor (fact : SignFact) (k : Kind) :
    (Knowledge.ofKind (fact.kindFor k)).is fact.property = true := by
  cases fact <;> cases k <;> decide

/-- **The values that the new kind adds**: where a sign is forgotten, the old kind had the positive ones. -/
theorem admits_iff_of_kindFor (hreal : k.isReal = true)
    (hopen : (Knowledge.ofKind k).is fact.property = false) {y : ℝ} (hy : (fact.kindFor k).Admits y) :
    k.Admits y ↔ (fact.forgets k = true → 0 < y) := by
  obtain ⟨hcontains, hsign⟩ := hy
  cases fact <;> cases k <;> first
    | exact absurd hreal (by decide)
    | exact absurd hopen (by decide)
    -- nothing was known of the sign, or the new sign is positive
    | exact iff_of_true ⟨hcontains, trivial⟩ fun h => absurd h (by decide)
    | exact iff_of_true ⟨hcontains, le_of_lt hsign⟩ fun h => absurd h (by decide)
    | exact iff_of_true ⟨hcontains, ne_of_gt hsign⟩ fun h => absurd h (by decide)
    -- the two signs together make a positive number
    | exact ⟨fun h _ => lt_of_le_of_ne hsign (Ne.symm h.2),
        fun h => ⟨hcontains, ne_of_gt (h (by decide))⟩⟩
    | exact ⟨fun h _ => lt_of_le_of_ne h.2 (Ne.symm hsign),
        fun h => ⟨hcontains, le_of_lt (h (by decide))⟩⟩

theorem forall_admits_iff (hreal : k.isReal = true)
    (hopen : (Knowledge.ofKind k).is fact.property = false) :
    (∀ y, (fact.kindFor k).Admits y → k.Admits y) ↔ fact.forgets k = false := by
  constructor
  · intro hall
    rw [Bool.eq_false_iff]
    intro hforgets
    have hpos : ∀ y, (fact.kindFor k).Admits y → 0 < y := fun y hy =>
      (admits_iff_of_kindFor hreal hopen hy).1 (hall y hy) hforgets
    rcases (forgets_iff hopen).1 hforgets with ⟨rfl, -⟩ | ⟨rfl, -⟩
    · have hzero : (nonnegative.kindFor k).Admits 0 := by
        cases k <;> first
          | exact ⟨⟨0, by simp⟩, le_refl 0⟩
          | exact ⟨trivial, le_refl 0⟩
      exact lt_irrefl 0 (hpos 0 hzero)
    · have hone : (nonzero.kindFor k).Admits (-1) := by
        have hne : (-1 : ℝ) ≠ 0 := by norm_num
        cases k <;> first
          | exact ⟨⟨-1, by simp⟩, hne⟩
          | exact ⟨trivial, hne⟩
      linarith [hpos (-1) hone]
  · intro hforgets y hy
    rw [admits_iff_of_kindFor hreal hopen hy, hforgets]
    exact nofun

end SignFact

namespace Tactic

variable {M : Type} [LinearOrder M] {fact : SignFact} {target : Target} {s s' : State}
  {states : List State} {name : String} {x new : Variable} {t : Term}

/-- **Renaming keeps the truth of a statement, read backwards**: what is made of it holds where it holds
itself, if the old variable has the value of the new one. -/
def Recalls (w : World M) (x new : Variable) (h : x.kind.Admits (w.value new)) (t : Term) : Prop :=
  ∀ u, (replace (var x) (var new) t).result = .ok u → (w.Holds u ↔ (w.retype new x h).Holds t)

/-- **Statements about linear forms are recalled.** -/
theorem recalls_of_linear (hnew : new.kind.isReal = true) (hne : x ≠ new)
    (ht : Vocabulary.linear.Sentence t) {w : World M} (h : x.kind.Admits (w.value new)) :
    Recalls w x new h t := by
  intro u hu
  rw [replace, if_neg fun heq => hne (var.inj heq)] at hu
  exact (says_rename hnew hne ht le_rfl hu).2

theorem recalls_of_declaration (ht : isDeclaration t = true) {w : World M}
    (h : x.kind.Admits (w.value new)) : Recalls w x new h t := by
  obtain ⟨as, rfl⟩ : ∃ as, t = app .declared as := by
    unfold isDeclaration at ht
    split at ht
    · exact ⟨_, rfl⟩
    · cases ht
  intro u hu
  have hdeclared : ∃ bs, u = app .declared bs := by
    unfold replace at hu
    split at hu
    · exact ⟨as, (Except.ok.inj hu).symm⟩
    · have hold : app .declared as ≠ var x := by simp
      rw [replaceAux, if_neg hold] at hu
      obtain ⟨bs, -, hu⟩ := Outcome.result_bind_eq_ok.1 hu
      split at hu
      · exact ⟨as, (Except.ok.inj hu).symm⟩
      · exact ⟨bs, (Except.ok.inj hu).symm⟩
  obtain ⟨bs, rfl⟩ := hdeclared
  exact iff_of_true True.intro True.intro

theorem isReal_of_noteSign (hfind : (findTarget s target).result = .ok (name, var x))
    (hrun : (noteSignOf fact target s).result = .ok states) (hchanged : states ≠ [s]) :
    x.kind.isReal = true := by
  unfold noteSignOf at hrun
  rw [Outcome.result_bind_of_ok hfind] at hrun
  dsimp only at hrun
  cases hknown : (var x).is fact.property with
  | true =>
    rw [hknown] at hrun
    exact absurd (Except.ok.inj hrun).symm hchanged
  | false =>
    rw [hknown] at hrun
    obtain ⟨found, hfound, hrun⟩ := Outcome.result_bind_eq_ok.1 hrun
    cases found with
    | false => exact absurd (Except.ok.inj hrun).symm hchanged
    | true =>
      rw [if_neg (by decide)] at hrun
      obtain ⟨kind, hkind, -⟩ := Outcome.result_bind_eq_ok.1 hrun
      unfold SignFact.sharpen at hkind
      rw [Term.is, Term.is, Term.is, facts_var] at hkind
      cases hx : x.kind with
      | complex | prop | order =>
        rw [hx] at hkind
        cases fact <;> cases hkind
      | _ => rfl

/-- **Where the old variable could have the value of the new one**, the hypotheses hold as before and so
does the goal. -/
theorem holds_renamed {w : World M} (h : x.kind.Admits (w.value new))
    (hdeclared : ∀ p ∈ s.context, p.1 = name → p.2 = declare x)
    (hrecalls : ∀ t ∈ s.goal :: s.context.hypotheses, Recalls w x new h t)
    (hrenamed : (renamed name x new s).result = .ok s') :
    ((∀ u ∈ s'.context.hypotheses, w.Holds u) ↔
        ∀ t ∈ s.context.hypotheses, (w.retype new x h).Holds t) ∧
      (w.Holds s'.goal ↔ (w.retype new x h).Holds s.goal) := by
  obtain ⟨context, hcontext, hrenamed⟩ := Outcome.result_bind_eq_ok.1 hrenamed
  obtain ⟨goal, hgoal, hrenamed⟩ := Outcome.result_bind_eq_ok.1 hrenamed
  cases hrenamed
  refine ⟨?_, hrecalls s.goal List.mem_cons_self goal hgoal⟩
  -- an entry and what is made of it hold together
  have hentry : ∀ {p q : String × Term}, p ∈ s.context →
      (do if p.1 == name then return (name, declare new)
          return (p.1, ← replace (var x) (var new) p.2) : Outcome (String × Term)).result = .ok q →
      (w.Holds q.2 ↔ (w.retype new x h).Holds p.2) := by
    intro p q hp hq
    by_cases hname : p.1 == name
    · rw [if_pos hname] at hq
      cases hq
      rw [hdeclared p hp (by simpa using hname)]
      exact iff_of_true World.holds_declare World.holds_declare
    · rw [if_neg hname] at hq
      obtain ⟨v, hv, hq⟩ := Outcome.result_bind_eq_ok.1 hq
      cases hq
      exact hrecalls p.2 (List.mem_cons_of_mem _ (List.mem_map_of_mem hp)) v hv
  constructor
  · intro hall t ht
    obtain ⟨p, hp, rfl⟩ := List.mem_map.1 ht
    obtain ⟨q, hq, hstep⟩ := Outcome.exists_mem_of_mapM hcontext hp
    exact (hentry hp hstep).1 (hall q.2 (List.mem_map_of_mem hq))
  · intro hall u hu
    obtain ⟨q, hq, rfl⟩ := List.mem_map.1 hu
    obtain ⟨p, hp, hstep⟩ := Outcome.exists_of_mem_mapM hcontext hq
    exact (hentry hp hstep).2 (hall p.2 (List.mem_map_of_mem hp))

theorem retyped_of_renamed (hmem : (name, declare x) ∈ s.context)
    (hrenamed : (renamed name x new s).result = .ok s') :
    Retyped name (var x) new s.context s'.context := by
  obtain ⟨context, hcontext, hrenamed⟩ := Outcome.result_bind_eq_ok.1 hrenamed
  obtain ⟨goal, -, hrenamed⟩ := Outcome.result_bind_eq_ok.1 hrenamed
  cases hrenamed
  exact retyped_mapM hmem rfl hcontext

/-- The statements of a state are about linear forms, or renaming the variable keeps their truth. -/
def Renamable (M : Type) [LinearOrder M] (x new : Variable) (s : State) : Prop :=
  ∀ t ∈ s.goal :: s.context.statements, Vocabulary.linear.Sentence t ∨
    ∀ (w : World M) (h : x.kind.Admits (w.value new)), Recalls w x new h t

theorem Renamable.recalls (hrenamable : Renamable M x new s) (hnew : new.kind.isReal = true)
    (hne : x ≠ new) {w : World M} (h : x.kind.Admits (w.value new)) :
    ∀ t ∈ s.goal :: s.context.hypotheses, Recalls w x new h t := by
  have hstatement : ∀ t ∈ s.goal :: s.context.statements, Recalls w x new h t := by
    intro t ht
    rcases hrenamable t ht with hlinear | hrecalls
    · exact recalls_of_linear hnew hne hlinear h
    · exact hrecalls w h
  obtain ⟨hgoal, hstatements⟩ := List.forall_mem_cons.1 hstatement
  refine List.forall_mem_cons.2 ⟨hgoal, fun t ht => ?_⟩
  cases hdeclaration : isDeclaration t with
  | true => exact recalls_of_declaration hdeclaration h
  | false => exact hstatements t (List.mem_filter.2 ⟨ht, by simp [hdeclaration]⟩)

/-- A number that has a sign by its kind and another one by a hypothesis is to be positive. -/
def pressed (fact : SignFact) (k : Kind) : State :=
  ⟨app (.rel .gt) [var ⟨"x", k⟩, num 0], [("x", declare ⟨"x", k⟩), ("h", fact.claim ⟨"x", k⟩)]⟩

def released (fact : SignFact) (k : Kind) : State :=
  ⟨app (.rel .gt) [var ⟨"x", fact.kindFor k⟩, num 0],
    [("x", declare ⟨"x", fact.kindFor k⟩), ("h", top)]⟩

theorem holds_compare_zero {w : World M} {r : Rel} {v : Variable} (hv : v.kind.isReal = true) :
    w.Holds (app (.rel r) [var v, num 0]) ↔ r.Compares (w.value v) 0 := by
  have hnumbers : w.Numbers (var v) (num 0) :=
    ⟨(denotes_var v).2 (Kind.isNumeric_of_isReal hv), denotes_num 0⟩
  rw [World.holds_rel, World.relates_of_numbers hnumbers]
  simp

theorem verifies_pressed {k : Kind} (hreal : k.isReal = true)
    (hopen : (Knowledge.ofKind k).is fact.property = false) (hforgets : fact.forgets k = true)
    (w : World M) : w.Verifies (pressed fact k) := by
  intro hhyps
  have hvar := var_is_real (v := ⟨"x", k⟩) hreal
  rw [Term.is, facts_var] at hvar
  have hfits : k.Admits (w.value ⟨"x", k⟩) := w.fits ⟨"x", k⟩ (Kind.isNumeric_of_isReal hreal)
  have hclaim : w.Holds (fact.claim ⟨"x", k⟩) := hhyps _ (by simp [pressed, Context.hypotheses])
  have hnoted : (fact.kindFor k).Admits (w.value ⟨"x", k⟩) :=
    (SignFact.admits_kindFor hvar hfits).2 ((holds_compare_zero hreal).1 hclaim)
  exact (holds_compare_zero hreal).2
    ((SignFact.admits_iff_of_kindFor hreal hopen hnoted).1 hfits hforgets)

theorem not_verifies_released {k : Kind} (hreal : k.isReal = true)
    (hopen : (Knowledge.ofKind k).is fact.property = false) (hforgets : fact.forgets k = true) :
    ∃ w : World Unit, ¬ w.Verifies (released fact k) := by
  have hadds : ¬ ∀ y, (fact.kindFor k).Admits y → k.Admits y := by
    simp [SignFact.forall_admits_iff hreal hopen, hforgets]
  obtain ⟨y, hy⟩ := not_forall.1 hadds
  obtain ⟨hnoted, hold⟩ := Classical.not_imp.1 hy
  have hsign : ¬ 0 < y := fun hpos =>
    hold ((SignFact.admits_iff_of_kindFor hreal hopen hnoted).2 fun _ => hpos)
  refine ⟨World.ones.update ⟨"x", fact.kindFor k⟩ y hnoted, fun hverifies => hsign ?_⟩
  have hgoal := hverifies (by
    simp only [released, Context.hypotheses, List.map_cons, List.map_nil, List.forall_mem_cons]
    exact ⟨World.holds_declare, by simp [top], List.forall_mem_nil _⟩)
  have hpos := (holds_compare_zero (fact.isReal_kindFor k)).1 hgoal
  simpa [World.update, Rel.Compares] using hpos

/-- **Wherever a sign is forgotten, a valid state becomes invalid.** -/
theorem validity_lost {k : Kind} (hreal : k.isReal = true)
    (hopen : (Knowledge.ofKind k).is fact.property = false) (hforgets : fact.forgets k = true) :
    ((noteSign fact (.named "x")).run (pressed fact k)).result = .ok [released fact k] ∧
      (∀ w : World M, w.Verifies (pressed fact k)) ∧
      ∃ w : World Unit, ¬ w.Verifies (released fact k) := by
  refine ⟨?_, verifies_pressed hreal hopen hforgets, not_verifies_released hreal hopen hforgets⟩
  rcases (SignFact.forgets_iff hopen).1 hforgets with ⟨rfl, hk⟩ | ⟨rfl, hk⟩
  all_goals
    cases k <;> first
      | exact absurd hopen (by decide)
      | exact absurd hk (by decide)
      | with_unfolding_all rfl

/-- **What noting a sign keeps, and what it forgets.**  A new declaration is only ever made of a real
variable whose sign was open.  Where the new variable has a value of the old kind, the new state says what
the old one said.  The old kind is forgotten in two cases only: a number that is not zero is noted not to
be negative, or a number that is not negative is noted not to be zero; then the new kind has values that
are not positive, and the old one had none, so that a valid state can become invalid.  In all other cases a
valid state stays valid. -/
theorem note_sign_forgets (hnames : s.context.names.Nodup)
    (hfind : (findTarget s target).result = .ok (name, var x))
    (hrun : ((noteSign fact target).run s).result = .ok states) (hchanged : states ≠ [s])
    (hrenamable : Renamable M x (fact.variableFor name x) s) :
    (fact.forgets x.kind = true ↔
        fact = .nonnegative ∧ (var x).is .nonzero = true ∨
          fact = .nonzero ∧ (var x).is .nonnegative = true) ∧
      ((∀ y, (fact.kindFor x.kind).Admits y → x.kind.Admits y) ↔ fact.forgets x.kind = false) ∧
      (fact.forgets x.kind = true →
        ((noteSign fact (.named "x")).run (pressed fact x.kind)).result = .ok [released fact x.kind] ∧
          (∀ w : World M, w.Verifies (pressed fact x.kind)) ∧
          ∃ w : World Unit, ¬ w.Verifies (released fact x.kind)) ∧
      (∀ w : World M, x.kind.Admits (w.value (fact.variableFor name x)) ↔
        (fact.forgets x.kind = true → 0 < w.value (fact.variableFor name x))) ∧
      ∃ s', states = (if s'.goal = top then [] else [s']) ∧
        Retyped name (var x) (fact.variableFor name x) s.context s'.context ∧
        (∀ (w : World M) (h : x.kind.Admits (w.value (fact.variableFor name x))),
          ((∀ u ∈ s'.context.hypotheses, w.Holds u) ↔
            ∀ t ∈ s.context.hypotheses, (w.retype (fact.variableFor name x) x h).Holds t) ∧
          (w.Verifies s' ↔ (w.retype (fact.variableFor name x) x h).Verifies s)) ∧
        (fact.forgets x.kind = false → (∀ w : World M, w.Verifies s) → ∀ w : World M, w.Verifies s') := by
  have hmem := yields_findTarget s target _ hfind
  have hdeclared : ∀ p ∈ s.context, p.1 = name → p.2 = declare x := by
    intro p hp hname
    have heq : p = (name, declare x) := List.inj_on_of_nodup_map hnames hp hmem hname
    rw [heq]
  have hreal : x.kind.isReal = true := isReal_of_noteSign hfind hrun hchanged
  have hvar := var_is_real hreal
  rcases noteSignOf_eq hfind hvar hrun with ⟨hsame, -⟩ | ⟨hopen, -, s', hs', hstates⟩
  · exact absurd hsame hchanged
  have hkind : (Knowledge.ofKind x.kind).is fact.property = false := by rwa [Term.is, facts_var] at hopen
  have hnew := fact.isReal_kindFor x.kind
  -- the new kind tells the sign, and the old one did not
  have hne : x ≠ fact.variableFor name x := by
    intro heq
    have hknown := fact.is_kindFor x.kind
    have hsame : x.kind = fact.kindFor x.kind := congrArg Variable.kind heq
    rw [← hsame, hkind] at hknown
    cases hknown
  have hfits : ∀ w : World M, (fact.kindFor x.kind).Admits (w.value (fact.variableFor name x)) :=
    fun w => w.fits (fact.variableFor name x) (Kind.isNumeric_of_isReal hnew)
  have hstate : ∀ (w : World M) (h : x.kind.Admits (w.value (fact.variableFor name x))),
      ((∀ u ∈ s'.context.hypotheses, w.Holds u) ↔
          ∀ t ∈ s.context.hypotheses, (w.retype (fact.variableFor name x) x h).Holds t) ∧
        (w.Verifies s' ↔ (w.retype (fact.variableFor name x) x h).Verifies s) := by
    intro w h
    obtain ⟨hhyps, hgoal⟩ := holds_renamed h hdeclared (hrenamable.recalls hnew hne h) hs'
    exact ⟨hhyps, imp_congr hhyps hgoal⟩
  refine ⟨fact.forgets_iff hkind, fact.forall_admits_iff hreal hkind, validity_lost hreal hkind,
    fun w => fact.admits_iff_of_kindFor hreal hkind (hfits w), s', hstates,
    retyped_of_renamed hmem hs', hstate, ?_⟩
  intro hforgets hvalid w
  have h := (fact.forall_admits_iff hreal hkind).2 hforgets _ (hfits w)
  exact (hstate w h).2.2 (hvalid _)

theorem nonzero_forgotten :
    ((noteSign .nonnegative (.named "x")).run (pressed .nonnegative .nonzeroReal)).result =
        .ok [released .nonnegative .nonzeroReal] ∧
      SignFact.nonnegative.forgets .nonzeroReal = true ∧
      (∀ w : World Unit, w.Verifies (pressed .nonnegative .nonzeroReal)) ∧
      (∃ w : World Unit, ¬ w.Verifies (released .nonnegative .nonzeroReal)) ∧
      ∀ w : World Unit, 0 < w.value ⟨"x", .nonnegReal⟩ →
        w.Verifies (released .nonnegative .nonzeroReal) := by
  have hrun : ((noteSign .nonnegative (.named "x")).run (pressed .nonnegative .nonzeroReal)).result =
      .ok [released .nonnegative .nonzeroReal] := by
    with_unfolding_all rfl
  have hlinear : Renamable Unit ⟨"x", .nonzeroReal⟩ ⟨"x", .nonnegReal⟩
      (pressed .nonnegative .nonzeroReal) := by
    have hsentence : ∀ r, Vocabulary.linear.Sentence
        (app (.rel r) [var ⟨"x", .nonzeroReal⟩, num 0]) := fun r => .rel ⟨rfl, rfl⟩ ⟨rfl, rfl⟩
    exact List.forall_mem_cons.2 ⟨.inl (hsentence .gt), List.forall_mem_cons.2
      ⟨.inl (hsentence .ge), nofun⟩⟩
  obtain ⟨hiff, -, hlost, hadmits, s', hstates, -, hstate, -⟩ := note_sign_forgets (M := Unit)
    (x := ⟨"x", .nonzeroReal⟩) (by decide) rfl hrun (by decide) hlinear
  have hforgets : SignFact.nonnegative.forgets .nonzeroReal = true := hiff.2 (.inl ⟨rfl, by decide⟩)
  obtain ⟨-, hvalid, hinvalid⟩ := hlost hforgets
  have heq : s' = released .nonnegative .nonzeroReal := by
    split at hstates
    · cases hstates
    · exact (List.cons.inj hstates).1.symm
  refine ⟨hrun, hforgets, hvalid, hinvalid, fun w hpos => ?_⟩
  rw [← heq]
  exact (hstate w ((hadmits w).2 fun _ => hpos)).2.2 (hvalid _)

end Tactic
end Majorant
