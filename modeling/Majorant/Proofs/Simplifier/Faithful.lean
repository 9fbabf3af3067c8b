import Majorant.Proofs.Simplifier.Reduce

/-!
# Simplifying with faithful evaluation

Less than a calculus is needed if only what the simplifier returns matters: where it gives something, this has
the value that it should have.
-/

namespace Majorant
open Term Proof Simplifier Substitution

/-- **Arithmetic terms**: numerals and variables that are no propositions, put together by operations. -/
inductive Term.Arithmetic : Term → Prop
  | num (q : Rat) : Arithmetic (num q)
  | var {v : Variable} (hv : v.kind ≠ .prop) : Arithmetic (var v)
  | app {h : Head} {as : List Term} (hh : h.isQuantity = true) (has : ∀ a ∈ as, Arithmetic a) :
      Arithmetic (app h as)

namespace Term.Arithmetic

variable {V : Vocabulary} {h : Head} {t u : Term} {as hyps : List Term}

theorem isQuantity (ht : Arithmetic (.app h as)) : h.isQuantity = true := by
  cases ht with
  | app hh => exact hh

theorem of_mem (ht : Arithmetic (.app h as)) : ∀ a ∈ as, Arithmetic a := by
  cases ht with
  | app _ has => exact has

theorem isWritten (ht : Arithmetic t) : Operation.isWritten t = false := by
  cases ht <;> rfl

theorem evades (ht : Arithmetic t) : t.evades = false := by
  induction ht with
  | num => rfl
  | var => rfl
  | @app h as _ has ih =>
    unfold Term.evades
    split
    · next heq =>
      cases heq
      cases has _ List.mem_cons_self
    · next heq =>
      cases heq
      cases has _ (List.mem_cons_of_mem _ List.mem_cons_self)
    · next heq =>
      cases heq
      exact Magnitude.Composed.evadesList_eq_false ih
    · rfl

theorem not_sentence (ht : Arithmetic t) : ¬ V.Sentence t := by
  intro hsentence
  cases hsentence with
  | truth => cases ht
  | proposition hprop =>
    cases ht with
    | var hv => exact hv hprop
  | _ => cases ht.isQuantity

theorem not_mem (ht : Arithmetic t) (hhyps : ∀ k ∈ hyps, V.Hypothesis k) : t ∉ hyps := by
  intro hmem
  rcases hhyps t hmem with hdeclared | hsentence
  · obtain ⟨as, rfl⟩ := exists_of_isDeclaration hdeclared
    cases ht.isQuantity
  · exact ht.not_sentence hsentence

/-- The negation of a quantity is no hypothesis, unless a truth value is one. -/
theorem not_mem_of_not (ht : Arithmetic t) (hhyps : ∀ k ∈ hyps, V.Hypothesis k)
    (htruth : ∀ c, Term.truth c ∉ hyps) (hu : (Statement.not t).result = .ok u) : u ∉ hyps := by
  have hsign : Term.app .not [t] ∉ hyps := by
    intro hmem
    rcases hhyps _ hmem with hdeclared | hsentence
    · cases hdeclared
    · exact ht.not_sentence hsentence.of_not
  cases ht with
  | num q =>
    cases hu
    exact htruth _
  | var =>
    cases hu
    exact hsign
  | @app h as hh =>
    cases h <;> first
      | (cases hu; exact hsign)
      | cases hh

theorem isNumber_of_found {found : Term → Bool} (hfind : Magnitude.FindsNumbers found)
    (ht : Arithmetic t) (hfound : found t = true) : t.isNumber = true := by
  induction ht with
  | num => rfl
  | var hv =>
    rw [hfind.var _ hv] at hfound
    cases hfound
  | app hh _ ih =>
    rcases hfind.app _ _ hh hfound with hnumber | hall
    · exact hnumber
    · exact (Magnitude.isNumber_app hh).2 fun a ha => ih a ha (hall a ha)

end Term.Arithmetic

theorem Magnitude.mapM_theta_of_isOrder {ts : List Term}
    (hts : ∀ t ∈ ts, t.isOrder = true ∧ t.evades = false) : ts.mapM Magnitude.theta = pure ts := by
  have hmap := Outcome.mapM_eq_pure (f := Magnitude.theta) (g := id) fun t ht =>
    Magnitude.theta_of_isOrder (hts t ht).1 (hts t ht).2
  rwa [List.map_id] at hmap

theorem forall₂_pair {α β : Type*} {R : α → β → Prop} {a b : α} {ys : List β} :
    List.Forall₂ R [a, b] ys ↔ ∃ c d, ys = [c, d] ∧ R a c ∧ R b d := by
  simp only [List.forall₂_cons_left_iff, List.forall₂_nil_left_iff]
  constructor
  · rintro ⟨c, _, hc, ⟨d, _, hd, rfl, rfl⟩, rfl⟩
    exact ⟨c, d, rfl, hc, hd⟩
  · rintro ⟨c, d, rfl, hc, hd⟩
    exact ⟨c, _, hc, ⟨d, [], hd, rfl, rfl⟩, rfl⟩

namespace World

variable {M : Type} [LinearOrder M] {w : World M} {ρ : Role} {g : Head} {s : Rel} {c d : Term}
  {as : List Term}

/-- **Comparisons of two terms are those of two values** in a linear order. -/
theorem exists_compares (w : World M) (a b : Term) : ∃ (K : Type) (_ : LinearOrder K) (x y : K),
    ∀ r, (w.Relates r a b ↔ r.Compares x y) ∧ (w.Relates r b a ↔ r.Compares y x) := by
  by_cases h : w.Numbers a b
  · exact ⟨ℝ, inferInstance, a.val w.value, b.val w.value,
      fun r => ⟨relates_of_numbers h, relates_of_numbers (numbers_comm.1 h)⟩⟩
  · have h' : ¬ w.Numbers b a := fun hn => h (numbers_comm.1 hn)
    exact ⟨M, inferInstance, w.size a, w.size b, fun r => ⟨by simp [Relates, h], by simp [Relates, h']⟩⟩

theorem eq_of_erase {K : Type} [LinearOrder K] {value : Term → K} {x y : K} (hs : s = .le ∨ s = .ge)
    (hall : Magnitude.IsExtremal s (as.map value) x)
    (hrest : Magnitude.IsExtremal s ((as.erase c).map value) y) (hd : d ∈ as) (hne : c ≠ d)
    (hcd : s.Compares (value c) (value d)) : y = x := by
  have hkept := hall.erase hs hd hne hcd
  rcases hs with rfl | rfl
  · exact Magnitude.IsExtremal.unique (h := .orderMax) hrest hkept
  · exact Magnitude.IsExtremal.unique (h := .orderMin) hrest hkept

/-- **An extremum keeps its value** when a dominated argument is dropped. -/
theorem same_erase (hmeasures : w.Measures) (hext : Extreme s (app g as) as)
    (hnumber : ρ = .number → (app g as).Denotes w.value)
    (horder : ρ = .order → (app g as).isOrder = true ∧ c.isOrder = true) (hc : c ∈ as) (hd : d ∈ as)
    (hne : c ≠ d) (hcd : w.Relates s c d) : w.Same ρ (app g (as.erase c)) (app g as) := by
  have hall : as ≠ [] := List.ne_nil_of_mem hd
  have hrest : as.erase c ≠ [] := List.ne_nil_of_mem ((List.mem_erase_of_ne hne.symm).2 hd)
  cases ρ with
  | number =>
    have hdenotes := hnumber rfl
    have hargs := ((denotes_app g as).1 hdenotes).1
    rw [relates_of_numbers ⟨hargs c hc, hargs d hd⟩] at hcd
    rcases hext.cases with ⟨rfl, heq | heq⟩ | ⟨rfl, heq | heq⟩ <;> cases heq
    · rw [Same, val_max, val_max]
      exact eq_of_erase (.inl rfl) (Magnitude.isExtremal_greatestOf (by simpa using hall))
        (Magnitude.isExtremal_greatestOf (by simpa using hrest)) hd hne hcd
    · cases isOrder_of_denotes hdenotes
    · rw [Same, val_min, val_min]
      exact eq_of_erase (.inr rfl) (Magnitude.isExtremal_leastOf (by simpa using hall))
        (Magnitude.isExtremal_leastOf (by simpa using hrest)) hd hne hcd
    · cases isOrder_of_denotes hdenotes
  | order =>
    obtain ⟨hg, hc⟩ := horder rfl
    rw [relates_of_isOrder_left hc] at hcd
    rcases hext.cases with ⟨rfl, heq | heq⟩ | ⟨rfl, heq | heq⟩ <;> cases heq
    · cases hg
    · exact eq_of_erase (.inl rfl) (hmeasures.extreme (.inl rfl) hall)
        (hmeasures.extreme (.inl rfl) hrest) hd hne hcd
    · cases hg
    · exact eq_of_erase (.inr rfl) (hmeasures.extreme (.inr rfl) hall)
        (hmeasures.extreme (.inr rfl) hrest) hd hne hcd

end World

section Retains

variable {ι : Type*} {M : Type} [LinearOrder M] {worlds : ι → World M} {V : Vocabulary} {S : Set ι}
  {t u v : Term} {as us : List Term} {call : Outcome Term}

theorem Stands.refl (worlds : ι → World M) (V : Vocabulary) (S : Set ι) (t : Term) :
    Stands worlds V S t t where
  quantity ht := ⟨ht, fun _ _ => .refl _ _ _⟩
  sentence ht := ⟨ht, fun _ _ => Iff.rfl⟩

theorem Stands.trans (h : Stands worlds V S t u) (h' : Stands worlds V S u v) :
    Stands worlds V S t v where
  quantity ht := by
    obtain ⟨hu, hsame⟩ := h.quantity ht
    obtain ⟨hv, hsame'⟩ := h'.quantity hu
    exact ⟨hv, fun i hi => (hsame' i hi).trans (hsame i hi)⟩
  sentence ht := by
    obtain ⟨hu, hiff⟩ := h.sentence ht
    obtain ⟨hv, hiff'⟩ := h'.sentence hu
    exact ⟨hv, fun i hi => (hiff' i hi).trans (hiff i hi)⟩

/-- **What is made stands for a term** in all of the worlds. -/
def Retains (worlds : ι → World M) (V : Vocabulary) (t : Term) (call : Outcome Term) : Prop :=
  call.Yields (Stands worlds V Set.univ t)

theorem retains_self (worlds : ι → World M) (V : Vocabulary) (t : Term) : Retains worlds V t (pure t) :=
  Outcome.yields_pure (.refl worlds V Set.univ t)

theorem Retains.bind {f : Term → Outcome Term} (h : Retains worlds V t call)
    (hf : ∀ u, Retains worlds V u (f u)) : Retains worlds V t (call >>= f) :=
  Outcome.Yields.bind h fun u hu => (hf u).mono fun _ hv => hu.trans hv

theorem retains_mapM {f : Term → Outcome Term} (h : ∀ a ∈ as, Retains worlds V a (f a)) :
    (as.mapM f).Yields (List.Forall₂ (Stands worlds V Set.univ) as) := by
  intro bs hbs
  have hall := (List.forall₂_and_left as bs).2 ⟨h, Outcome.result_mapM_eq_ok.1 hbs⟩
  exact hall.imp fun a b hab => hab.1 b hab.2

theorem retains_of
    (hquantity : ∀ {ρ}, V ρ t → call.Yields fun u => V ρ u ∧ ∀ i, (worlds i).Same ρ u t)
    (hsentence : V.Sentence t → call.Yields fun u =>
      V.Sentence u ∧ ∀ i, ((worlds i).Holds u ↔ (worlds i).Holds t)) : Retains worlds V t call := by
  intro u hu
  refine ⟨fun ht => ?_, fun ht => ?_⟩
  · obtain ⟨hrole, hsame⟩ := hquantity ht u hu
    exact ⟨hrole, fun i _ => hsame i⟩
  · obtain ⟨hmade, hiff⟩ := hsentence ht u hu
    exact ⟨hmade, fun i _ => hiff i⟩

theorem retains_of_used (h : (∃ ρ, V ρ t) ∨ V.Sentence t → Retains worlds V t call) :
    Retains worlds V t call :=
  fun u hu => ⟨fun ht => (h (.inl ⟨_, ht⟩) u hu).quantity ht,
    fun ht => (h (.inr ht) u hu).sentence ht⟩

theorem Restates.yields {P : ι → Prop} (h : Restates worlds V Set.univ call P) :
    call.Yields fun u => V.Sentence u ∧ ∀ i, ((worlds i).Holds u ↔ P i) := by
  intro u hu
  obtain ⟨v, hv, hsentence, hholds⟩ := h
  cases hu.symm.trans hv
  exact ⟨hsentence, fun i => hholds i trivial⟩

theorem Stands.members (h : List.Forall₂ (Stands worlds V S) as us) (has : ∀ a ∈ as, V.Sentence a) :
    (∀ u ∈ us, V.Sentence u) ∧
      ∀ i ∈ S, ((∀ u ∈ us, (worlds i).Holds u) ↔ ∀ a ∈ as, (worlds i).Holds a) ∧
        ((∃ u ∈ us, (worlds i).Holds u) ↔ ∃ a ∈ as, (worlds i).Holds a) :=
  members_congr (((List.forall₂_and_left as us).2 ⟨has, h⟩).imp fun _ _ hab => hab.2.sentence hab.1)

theorem Stands.orders {bs : List Term} (hbs : List.Forall₂ (Stands worlds V Set.univ) as bs)
    (has : ∀ a ∈ as, V .order a) :
    (∀ b ∈ bs, V .order b) ∧ ∀ i, bs.map (worlds i).size = as.map (worlds i).size := by
  induction hbs with
  | nil => simp
  | cons hstands _ ih =>
    obtain ⟨ha, has⟩ := List.forall_mem_cons.1 has
    obtain ⟨hb, hsame⟩ := hstands.quantity ha
    obtain ⟨hbs, hsizes⟩ := ih has
    refine ⟨List.forall_mem_cons.2 ⟨hb, hbs⟩, fun i => ?_⟩
    rw [List.map_cons, List.map_cons, hsizes i, show (worlds i).size _ = _ from hsame i trivial]

theorem sentence_connectiveMembers {h : Head} {c d : Bool} {old : Term} (has : ∀ a ∈ as, V.Sentence a) :
    ∀ a ∈ connectiveMembers h d old (truth c) as, V.Sentence a := by
  intro a ha
  rcases mem_connectiveMembers ha with rfl | ha
  · exact .truth c
  · exact has a ha

end Retains

/-- **What evaluation makes of the quantities of a vocabulary has the right value.**  Nothing is said
about evaluation that fails. -/
structure Faithful {ι : Type*} {M : Type} [LinearOrder M] (worlds : ι → World M) (V : Vocabulary) :
    Prop where
  measures : ∀ i, (worlds i).Measures
  arithmetic : ∀ {ρ t}, V ρ t → t.Arithmetic
  denotes : ∀ {t}, V .number t → ∀ i, t.Denotes (worlds i).value
  argument : ∀ {h as a}, V .number (app h as) → a ∈ as → V .number a
  isOrder : ∀ {t}, V .order t → t.isOrder = true
  part : ∀ {t a}, V .order t → a ∈ World.parts t → a.isOrder = true
  size_congr : ∀ {h as bs}, V .order (app h as) →
    List.Forall₂ (Stands worlds V Set.univ) as bs → ∀ i,
    (worlds i).size (app h bs) = (worlds i).size (app h as)
  constant : ∀ {t}, V .order (app .theta [t]) → t.isNumber = true →
    V .order Magnitude.unit ∧ ∀ i, (worlds i).size Magnitude.unit = (worlds i).size (app .theta [t])
  relate : ∀ {r a b c}, V .number a → V .number b → (Statement.relate r a b).result = .ok c →
    ∀ i, ((worlds i).Holds c ↔ (worlds i).Relates r a b)
  /-- A quantity is evaluated with arguments that stand for its own. -/
  apply : ∀ {ρ h as bs u}, V ρ (app h as) → List.Forall₂ (Stands worlds V Set.univ) as bs →
    (Evaluation.apply h bs).result = .ok u → V ρ u ∧ ∀ i, (worlds i).Same ρ u (app h bs)
  /-- An extremum is evaluated without an argument that does not matter for its value. -/
  drop : ∀ {ρ h as c u}, V ρ (app h as) → c ∈ World.parts (app h as) → as.erase c ≠ [] →
    (∀ i, (worlds i).Same ρ (app h (as.erase c)) (app h as)) →
    (Evaluation.apply h (as.erase c)).result = .ok u →
    V ρ u ∧ ∀ i, (worlds i).Same ρ u (app h (as.erase c))
  /-- A quantity is evaluated again. -/
  settle : ∀ {ρ t u}, V ρ t → (Evaluation.settle t).result = .ok u →
    V ρ u ∧ ∀ i, (worlds i).Same ρ u t

namespace Faithful

variable {ι : Type*} {M : Type} [LinearOrder M] {worlds : ι → World M} {V : Vocabulary} {ρ : Role}
  {r : Rel} {h : Head} {a b k t old : Term} {as bs us hyps : List Term} {c : Bool} {n : Nat}
  {call : Outcome Term} (hV : Faithful worlds V)

include hV

theorem readable : V.Readable worlds := by
  intro t ht i
  induction ht with
  | truth c => exact .truth c
  | proposition => exact .var _
  | @rel r ρ a b ha hb =>
    refine .rel ?_
    cases ρ with
    | number => exact .inl ⟨hV.denotes ha i, hV.denotes hb i⟩
    | order => exact .inr ⟨World.leadingMinus_of_isOrder (hV.isOrder ha),
        World.leadingMinus_of_isOrder (hV.isOrder hb)⟩
  | and _ ih => exact .and ih
  | or _ ih => exact .or ih
  | not _ ih => exact .not ih
  | interaction => exact .marker rfl _

theorem yields_relate (ha : V ρ a) (hb : V ρ b) (r : Rel) : (Statement.relate r a b).Yields fun c =>
    V.Sentence c ∧ ∀ i, ((worlds i).Holds c ↔ (worlds i).Relates r a b) := by
  intro c hc
  refine ⟨?_, fun i => ?_⟩
  · rcases Statement.relate_cases (World.ofLiteral_of_not_isWritten (hV.arithmetic ha).isWritten)
      (World.ofLiteral_of_not_isWritten (hV.arithmetic hb).isWritten) hc with rfl | ⟨v, rfl⟩
    · exact .rel ha hb
    · exact .truth v
  · cases ρ with
    | number => exact hV.relate ha hb hc i
    | order =>
      obtain ⟨d, hd, hsays⟩ := World.settles_of_isOrder (w := worlds i) (hV.isOrder ha)
        (hV.isOrder hb) (hV.arithmetic ha).evades (hV.arithmetic hb).evades r
      cases hc.symm.trans hd
      exact hsays.2

theorem relates_congr {a' b' : Term} (ha : V ρ a) (hb : V ρ b)
    (hstands : Stands worlds V Set.univ a a') (hstands' : Stands worlds V Set.univ b b') (r : Rel)
    (i : ι) : (worlds i).Relates r a' b' ↔ (worlds i).Relates r a b := by
  obtain ⟨ha', hsame⟩ := hstands.quantity ha
  obtain ⟨hb', hsame'⟩ := hstands'.quantity hb
  have hsame := hsame i trivial
  have hsame' := hsame' i trivial
  cases ρ with
  | number =>
    rw [World.relates_of_numbers ⟨hV.denotes ha' i, hV.denotes hb' i⟩,
      World.relates_of_numbers ⟨hV.denotes ha i, hV.denotes hb i⟩, show a'.val _ = _ from hsame,
      show b'.val _ = _ from hsame']
  | order =>
    rw [World.relates_of_isOrder_left (hV.isOrder ha'), World.relates_of_isOrder_left (hV.isOrder ha),
      show (worlds i).size a' = _ from hsame, show (worlds i).size b' = _ from hsame']

theorem same_app (ht : V ρ (app h as)) (hbs : List.Forall₂ (Stands worlds V Set.univ) as bs) (i : ι) :
    (worlds i).Same ρ (app h bs) (app h as) := by
  cases ρ with
  | order => exact hV.size_congr ht hbs i
  | number =>
    have hall := (List.forall₂_and_left as bs).2 ⟨fun a ha => hV.argument ht ha, hbs⟩
    have hvals : bs.map (val (worlds i).value) = as.map (val (worlds i).value) := by
      clear hbs ht
      induction hall with
      | nil => rfl
      | cons hab _ ih =>
        rw [List.map_cons, List.map_cons, ih, show val _ _ = _ from (hab.2.quantity hab.1).2 i trivial]
    rw [World.Same, val_app, val_app, hvals]

/-- **An application is built again** from arguments that stand for its own. -/
theorem retains_apply [Nonempty ι] (hbs : List.Forall₂ (Stands worlds V Set.univ) as bs) :
    Retains worlds V (app h as) (Evaluation.apply h bs) := by
  refine retains_of (fun ht u hu => ?_) fun ht => ?_
  · obtain ⟨hrole, hsame⟩ := hV.apply ht hbs hu
    exact ⟨hrole, fun i => (hsame i).trans (hV.same_app ht hbs i)⟩
  cases ht with
  | @rel r ρ a b ha hb =>
    obtain ⟨a', b', rfl, hstands, hstands'⟩ := forall₂_pair.1 hbs
    refine (hV.yields_relate (hstands.quantity ha).1 (hstands'.quantity hb).1 r).mono fun c hc => ?_
    exact ⟨hc.1, fun i => (hc.2 i).trans (hV.relates_congr ha hb hstands hstands' r i)⟩
  | and has =>
    obtain ⟨hsentences, hiff⟩ := Stands.members hbs has
    refine (restates_conj hV.readable hsentences).yields.mono fun u hu => ⟨hu.1, fun i => ?_⟩
    rw [hu.2 i, World.holds_and]
    exact (hiff i trivial).1
  | or has =>
    obtain ⟨hsentences, hiff⟩ := Stands.members hbs has
    refine (restates_disj hV.readable hsentences).yields.mono fun u hu => ⟨hu.1, fun i => ?_⟩
    rw [hu.2 i, World.holds_or]
    exact (hiff i trivial).2
  | not has =>
    obtain ⟨b, _, hstands, hnil, rfl⟩ := List.forall₂_cons_left_iff.1 hbs
    rw [List.forall₂_nil_left_iff.1 hnil]
    obtain ⟨hb, hiff⟩ := hstands.sentence has
    refine (restates_not hV.readable hb).yields.mono fun u hu => ⟨hu.1, fun i => ?_⟩
    rw [hu.2 i, World.holds_not, hiff i trivial]
  | interaction hlength has =>
    obtain ⟨horders, hsizes⟩ := Stands.orders hbs has
    have hlength' : 3 ≤ bs.length := hbs.length_eq ▸ hlength
    have htheta : bs.mapM Magnitude.theta = pure bs := Magnitude.mapM_theta_of_isOrder fun b hb =>
      ⟨hV.isOrder (horders b hb), (hV.arithmetic (horders b hb)).evades⟩
    have happly : Evaluation.apply .littlewoodPaley bs = pure (app .littlewoodPaley bs) := by
      change Magnitude.interaction bs = _
      match bs with
      | [] | [_] | [_, _] => simp at hlength'
      | b :: b' :: b'' :: rest =>
        rw [Magnitude.interaction, htheta]
        · rfl
        · simp
        · simp
        · simp
    rw [happly]
    refine Outcome.yields_pure ⟨.interaction hlength' horders, fun i => ?_⟩
    rw [Calculus.holds_interaction (hV.measures i), hsizes i]
    exact (Calculus.holds_interaction (hV.measures i)).symm

theorem retains_settle [Nonempty ι] (t : Term) : Retains worlds V t (Evaluation.settle t) := by
  induction t using args_induction with
  | step t ih =>
    refine retains_of (fun ht u hu => hV.settle ht hu) fun ht => ?_
    have happ : ∀ {h as}, V.Sentence (app h as) → (∀ a ∈ as, Retains worlds V a (Evaluation.settle a)) →
        Evaluation.settle (app h as) = (do Evaluation.apply h (← Evaluation.settleList as)) →
        (Evaluation.settle (app h as)).Yields fun u =>
          V.Sentence u ∧ ∀ i, ((worlds i).Holds u ↔ (worlds i).Holds (app h as)) := by
      intro h as ht hargs heq
      rw [heq, Calculus.settleList_eq_mapM]
      refine (retains_mapM hargs).bind fun bs hbs u hu => ?_
      obtain ⟨hmade, hiff⟩ := (hV.retains_apply hbs u hu).sentence ht
      exact ⟨hmade, fun i => hiff i trivial⟩
    cases ht with
    | truth c => exact Outcome.yields_pure ⟨.truth c, fun _ => Iff.rfl⟩
    | proposition hv => exact Outcome.yields_pure ⟨.proposition hv, fun _ => Iff.rfl⟩
    | rel ha hb => exact happ (.rel ha hb) ih rfl
    | and has => exact happ (.and has) ih rfl
    | or has => exact happ (.or has) ih rfl
    | not has => exact happ (.not has) ih rfl
    | interaction hlength has => exact happ (.interaction hlength has) ih rfl

/-- The arguments of a term of the vocabulary are no written values, and those of a power are no
statements. -/
theorem replaceable (hold : V.Sentence old) (hused : (∃ ρ, V ρ (app h as)) ∨ V.Sentence (app h as)) :
    (∀ a ∈ as, Operation.isWritten a = false) ∧ (h = .pow → ∀ a ∈ as, a ≠ old) := by
  rcases hused with ⟨ρ, ht⟩ | ht
  · have hargs := (hV.arithmetic ht).of_mem
    refine ⟨fun a ha => (hargs a ha).isWritten, ?_⟩
    rintro - a ha rfl
    exact (hargs a ha).not_sentence hold
  · cases ht with
    | rel ha hb =>
      exact ⟨by simp [(hV.arithmetic ha).isWritten, (hV.arithmetic hb).isWritten], nofun⟩
    | and has => exact ⟨fun a ha => (has a ha).isWritten, nofun⟩
    | or has => exact ⟨fun a ha => (has a ha).isWritten, nofun⟩
    | not ha => exact ⟨List.forall_mem_singleton.2 ha.isWritten, nofun⟩
    | interaction _ has => exact ⟨fun a ha => (hV.arithmetic (has a ha)).isWritten, nofun⟩

/-- A conjunction is built again, with the members that make up a replaced one taken together. -/
theorem retains_and [Nonempty ι] (hnew : ∀ i, ((worlds i).Holds old ↔ (worlds i).Holds (truth c)))
    (hbs : List.Forall₂ (Stands worlds V Set.univ) as bs) :
    Retains worlds V (app .and as) (do
      if bs.contains bot then return bot
      Statement.conj (connectiveMembers .and false old (truth c) bs)) := by
  refine retains_of (fun ht => nomatch (hV.arithmetic ht).isQuantity) fun ht => ?_
  obtain ⟨hsentences, hiff⟩ := Stands.members hbs ht.of_mem_and
  split
  · next hbot =>
    refine Outcome.yields_pure ⟨.truth false, fun i => ?_⟩
    rw [World.holds_and, ← (hiff i trivial).1]
    refine iff_of_false nofun fun hall => ?_
    exact absurd (hall bot (List.contains_iff_mem.1 hbot)) nofun
  · refine (restates_conj hV.readable (sentence_connectiveMembers hsentences)).yields.mono
      fun u hu => ⟨hu.1, fun i => ?_⟩
    rw [hu.2 i, World.forall_connectiveMembers (hnew i), World.holds_and]
    exact (hiff i trivial).1

theorem retains_or [Nonempty ι] (hnew : ∀ i, ((worlds i).Holds old ↔ (worlds i).Holds (truth c)))
    (hbs : List.Forall₂ (Stands worlds V Set.univ) as bs) :
    Retains worlds V (app .or as) (do
      if bs.contains top then return top
      Statement.disj (connectiveMembers .or true old (truth c) bs)) := by
  refine retains_of (fun ht => nomatch (hV.arithmetic ht).isQuantity) fun ht => ?_
  obtain ⟨hsentences, hiff⟩ := Stands.members hbs ht.of_mem_or
  split
  · next htop =>
    refine Outcome.yields_pure ⟨.truth true, fun i => ?_⟩
    rw [World.holds_or, ← (hiff i trivial).2]
    exact iff_of_true rfl ⟨top, List.contains_iff_mem.1 htop, rfl⟩
  · refine (restates_disj hV.readable (sentence_connectiveMembers hsentences)).yields.mono
      fun u hu => ⟨hu.1, fun i => ?_⟩
    rw [hu.2 i, World.exists_connectiveMembers (hnew i), World.holds_or]
    exact (hiff i trivial).2

/-- **A statement is replaced by its truth value** inside a term, in at most `n` nested steps. -/
theorem retains_replaceAux [Nonempty ι] (hold : V.Sentence old)
    (hvalue : ∀ i, ((worlds i).Holds old ↔ c = true)) (n : Nat) (t : Term) :
    Retains worlds V t (replaceAux n old (truth c) t) := by
  induction n generalizing t with
  | zero =>
    rw [replaceAux]
    exact retains_self worlds V t
  | succ n ih =>
    have hnew : ∀ i, ((worlds i).Holds old ↔ (worlds i).Holds (truth c)) :=
      fun i => (hvalue i).trans (World.holds_truth c).symm
    by_cases heq : t = old
    · rw [replaceAux, if_pos heq, heq]
      refine retains_of (fun ht => absurd hold (hV.arithmetic ht).not_sentence) fun _ => ?_
      exact Outcome.yields_pure ⟨.truth c, fun i => (hnew i).symm⟩
    cases t with
    | app h as =>
      have hargs := retains_mapM fun a (_ : a ∈ as) => ih a
      by_cases hand : h = .and
      · subst hand
        rw [replaceAux, if_neg heq]
        exact hargs.bind fun bs hbs => hV.retains_and hnew hbs
      by_cases hor : h = .or
      · subst hor
        rw [replaceAux, if_neg heq]
        exact hargs.bind fun bs hbs => hV.retains_or hnew hbs
      -- every other application is built again if one of its arguments has changed
      refine retains_of_used fun hused => ?_
      obtain ⟨hplain, hbase⟩ := hV.replaceable hold hused
      rw [Calculus.replaceAux_app hold heq hplain hbase hand hor]
      refine hargs.bind fun bs hbs => ?_
      split
      · exact retains_self worlds V (app h as)
      · exact hV.retains_apply hbs
    | _ =>
      rw [replaceAux, if_neg heq]
      exact retains_self worlds V _

theorem retains_replace [Nonempty ι] (hold : V.Sentence old)
    (hvalue : ∀ i, ((worlds i).Holds old ↔ c = true)) (t : Term) :
    Retains worlds V t (replace old (truth c) t) := by
  unfold replace
  split
  · exact retains_self worlds V t
  · exact hV.retains_replaceAux hold hvalue _ t

variable (hhyps : ∀ k ∈ hyps, V.Hypothesis k) (hhold : ∀ i, ∀ k ∈ hyps, (worlds i).Holds k)
include hhyps hhold

/-- **Hypotheses are replaced by their truth values**, one after another. -/
theorem retains_absorbOnce [Nonempty ι] (t : Term) : Retains worlds V t (absorbOnce hyps t) := by
  refine Outcome.yields_foldlM (.refl worlds V Set.univ t) fun g hg k hk => ?_
  refine Outcome.Yields.mono ?_ fun _ (hu : Stands worlds V Set.univ g _) => hg.trans hu
  rcases hhyps k hk with hdeclared | hsentence
  · obtain ⟨as, rfl⟩ := exists_of_isDeclaration hdeclared
    exact retains_self worlds V g
  · rw [hsentence.isStatement]
    refine (hV.retains_replace hsentence (fun i => iff_of_true (hhold i k hk) rfl) g).bind fun u => ?_
    -- of a negation, what is denied is replaced too
    split
    · refine hV.retains_replace hsentence.of_not (fun i => iff_of_false ?_ (by simp)) u
      exact World.holds_not.1 (hhold i _ hk)
    · exact retains_self worlds V u

/-- **Hypotheses are replaced until nothing changes.** -/
theorem retains_absorb [Nonempty ι] (n : Nat) (t : Term) : Retains worlds V t (absorb n hyps t) := by
  induction n generalizing t with
  | zero => exact retains_self worlds V t
  | succ n ih =>
    rw [absorb]
    refine (hV.retains_absorbOnce hhyps hhold t).bind fun u => ?_
    split
    · next heq =>
      rw [heq]
      exact retains_self worlds V t
    · exact ih u

omit hhyps in
/-- **A comparison is sharpened** by a hypothesis about the same sides. -/
theorem retains_useComparison (hk : k ∈ hyps) (huse : useComparison t k = some call) :
    Retains worlds V t call := by
  obtain ⟨r, s, a, b, c, d, rfl, rfl, same, hsides, hcall⟩ := useComparison_cases huse
  refine retains_of (fun ht => nomatch (hV.arithmetic ht).isQuantity) fun ht => ?_
  have hspec : ∀ i, (∀ v, sharpen r s same = some (.inl v) →
        ((worlds i).Relates r a b ↔ v = true)) ∧
      ∀ r', sharpen r s same = some (.inr r') →
        ((worlds i).Relates r a b ↔ (worlds i).Relates r' a b) := by
    intro i
    obtain ⟨K, _, x, y, hvalues⟩ := (worlds i).exists_compares a b
    have hholds : (worlds i).Relates s c d := hhold i _ hk
    have hknown : if same then s.Compares x y else s.Compares y x := by
      cases same with
      | true =>
        obtain ⟨rfl, rfl⟩ := hsides
        exact (hvalues s).1.1 hholds
      | false =>
        obtain ⟨rfl, rfl⟩ := hsides
        exact (hvalues s).2.1 hholds
    refine ⟨fun v hv => ?_, fun r' hr' => ?_⟩
    · rw [(hvalues r).1]
      exact (sharpen_spec hknown).1 v hv
    · rw [(hvalues r).1, (hvalues r').1]
      exact (sharpen_spec hknown).2 r' hr'
  cases ht with
  | rel ha hb =>
    rcases hcall with ⟨v, hv, rfl⟩ | ⟨r', hr', rfl⟩
    · refine Outcome.yields_pure ⟨.truth v, fun i => ?_⟩
      rw [World.holds_truth, World.holds_rel, (hspec i).1 v hv]
    · refine (hV.yields_relate ha hb r').mono fun u hu => ⟨hu.1, fun i => ?_⟩
      rw [hu.2 i, World.holds_rel, (hspec i).2 r' hr']

omit hhyps in
/-- **A dominated argument is dropped** from an extremum. -/
theorem retains_useDomination (hk : k ∈ hyps) (huse : useDomination t k = some call) :
    Retains worlds V t call := by
  obtain ⟨g, as, s, c, d, rfl, hext, hc, hd, hne, rfl, hrelates⟩ := useDomination_cases huse
  have hpart : c ∈ World.parts (app g as) := by rwa [hext.parts_eq]
  have hrest : as.erase c ≠ [] := List.ne_nil_of_mem ((List.mem_erase_of_ne hne.symm).2 hd)
  refine retains_of (fun {ρ} ht u hu => ?_) fun ht => ?_
  · have hsame : ∀ i, (worlds i).Same ρ (app g (as.erase c)) (app g as) := fun i =>
      World.same_erase (hV.measures i) hext (fun hρ => hV.denotes (hρ ▸ ht) i)
        (fun hρ => ⟨hV.isOrder (hρ ▸ ht), hV.part (hρ ▸ ht) hpart⟩) hc hd hne
        (hrelates _ (hhold i k hk))
    obtain ⟨hrole, hmade⟩ := hV.drop ht hpart hrest hsame hu
    exact ⟨hrole, fun i => (hmade i).trans (hsame i)⟩
  · rcases hext.cases with ⟨-, heq | heq⟩ | ⟨-, heq | heq⟩ <;> cases heq <;> cases ht

omit hhold in
/-- The magnitude of a quantity is replaced by that of one only if it is constant. -/
theorem retains_unit [Nonempty ι] (hunit : isUnit hyps t = true) :
    Retains worlds V t (pure Magnitude.unit) := by
  unfold isUnit at hunit
  split at hunit
  · next t =>
    refine retains_of (fun {ρ} ht => ?_) nofun
    have hargument := (hV.arithmetic ht).of_mem t List.mem_cons_self
    have hunmarked := Calculus.unmarked hhyps
    have hnumber : t.isNumber = true := by
      rw [Bool.or_eq_true, Bool.and_eq_true] at hunit
      rcases hunit with hfixed | ⟨hbounded, -⟩
      · exact hargument.isNumber_of_found (Magnitude.findsNumbers_isFixed hunmarked) hfixed
      · exact hargument.isNumber_of_found (Magnitude.findsNumbers_isBounded hunmarked) hbounded
    cases ρ with
    | number =>
      obtain ⟨i⟩ := ‹Nonempty ι›
      cases isOrder_of_denotes (hV.denotes ht i)
    | order => exact Outcome.yields_pure (hV.constant ht hnumber)
  · cases hunit

variable (htop : top ∉ hyps)
include htop

/-- **One step of the reduction** of a term whose arguments have been reduced. -/
theorem retains_reduceHead [Nonempty ι]
    (hus : ∀ {h as}, t = app h as → List.Forall₂ (Stands worlds V Set.univ) as us) :
    Retains worlds V t (reduceHead hyps us t) := by
  -- a truth value among the hypotheses would have to be the literal truth
  have htruth : ∀ c, truth c ∉ hyps := by
    obtain ⟨i⟩ := ‹Nonempty ι›
    intro c hmem
    have hholds := (World.holds_truth c).1 (hhold i _ hmem)
    rw [hholds] at hmem
    exact htop hmem
  unfold reduceHead
  split
  · next hmem =>
    have hmem := List.contains_iff_mem.1 hmem
    refine retains_of (fun ht => absurd hmem ((hV.arithmetic ht).not_mem hhyps)) fun _ => ?_
    exact Outcome.yields_pure ⟨.truth true, fun i => iff_of_true rfl (hhold i t hmem)⟩
  refine Outcome.yields_bind_of_result fun u hu => ?_
  split
  · next hmem =>
    have hmem := List.contains_iff_mem.1 hmem
    refine retains_of
      (fun ht => absurd hmem ((hV.arithmetic ht).not_mem_of_not hhyps htruth hu)) fun ht => ?_
    refine Outcome.yields_pure ⟨.truth false, fun i => iff_of_false nofun ?_⟩
    exact (World.says_not (hV.readable ht i) hu).2.1 (hhold i u hmem)
  split
  · next huse =>
    obtain ⟨k, hk, hcomparison | hdomination⟩ := exists_of_useHypotheses huse
    · exact hV.retains_useComparison hhold hk hcomparison
    · exact hV.retains_useDomination hhold hk hdomination
  split
  · next hunit => exact hV.retains_unit hhyps hunit
  split
  · exact (hV.retains_apply (hus rfl)).bind hV.retains_settle
  · exact retains_self worlds V t

/-- **Reduction keeps the values of quantities and what statements say.** -/
theorem retains_reduce [Nonempty ι] (t : Term) : Retains worlds V t (reduce hyps t) := by
  induction t using args_induction with
  | step t ih =>
    have hleaf : (∀ h as, t ≠ app h as) → Operation.isWritten t = false →
        Retains worlds V t (reduce hyps t) := by
      intro happ hplain
      rw [reduce_leaf happ hplain]
      exact hV.retains_reduceHead hhyps hhold htop fun heq => absurd heq (happ _ _)
    cases t with
    | app h as =>
      rw [reduce, reduceList_eq_mapM]
      refine (retains_mapM ih).bind fun us hus => hV.retains_reduceHead hhyps hhold htop ?_
      rintro _ _ ⟨⟩
      exact hus
    | lit l => exact Outcome.yields_fail _
    | _ => exact hleaf (by simp) rfl

end Faithful
end Majorant
