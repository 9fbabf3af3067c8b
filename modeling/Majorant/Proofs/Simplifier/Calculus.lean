import Majorant.Proofs.Magnitude.Bounded
import Majorant.Proofs.Statement.Split

/-!
# Statements over a vocabulary

A vocabulary says which numbers and orders of magnitude the simplifier may come across.  It is a calculus if
its quantities can be built again: what is evaluated belongs to it and has the value that it should have.
-/

namespace Majorant
open Term

/-- A quantity is a number or an order of magnitude. -/
inductive Role where
  | number
  | order

/-- **A vocabulary** says which terms are used as numbers and which ones as orders of magnitude. -/
abbrev Vocabulary := Role → Term → Prop

namespace Vocabulary

/-- **Statements over a vocabulary.**  Declarations and markers are none. -/
inductive Sentence (V : Vocabulary) : Term → Prop
  | truth (c : Bool) : Sentence V (truth c)
  | proposition {v : Variable} (hv : v.kind = .prop) : Sentence V (var v)
  | rel {r : Rel} {ρ : Role} {a b : Term} (ha : V ρ a) (hb : V ρ b) : Sentence V (app (.rel r) [a, b])
  | and {ts : List Term} (h : ∀ t ∈ ts, Sentence V t) : Sentence V (app .and ts)
  | or {ts : List Term} (h : ∀ t ∈ ts, Sentence V t) : Sentence V (app .or ts)
  | not {t : Term} (h : Sentence V t) : Sentence V (app .not [t])
  | interaction {as : List Term} (hlength : 3 ≤ as.length) (h : ∀ a ∈ as, V .order a) :
      Sentence V (app .littlewoodPaley as)

variable {V W : Vocabulary} {t u : Term} {ts : List Term}

theorem Sentence.of_mem_and (h : V.Sentence (app .and ts)) : ∀ t ∈ ts, V.Sentence t := by
  cases h with
  | and h => exact h

theorem Sentence.of_mem_or (h : V.Sentence (app .or ts)) : ∀ t ∈ ts, V.Sentence t := by
  cases h with
  | or h => exact h

theorem Sentence.of_not (h : V.Sentence (app .not [t])) : V.Sentence t := by
  cases h with
  | not h => exact h

theorem Sentence.mono (hle : ∀ {ρ t}, V ρ t → W ρ t) (h : V.Sentence t) : W.Sentence t := by
  induction h with
  | truth c => exact .truth c
  | proposition hv => exact .proposition hv
  | rel ha hb => exact .rel (hle ha) (hle hb)
  | and _ ih => exact .and ih
  | or _ ih => exact .or ih
  | not _ ih => exact .not ih
  | interaction hlength h => exact .interaction hlength fun a ha => hle (h a ha)

theorem Sentence.isStatement (h : V.Sentence t) : t.isStatement = true := by
  cases h <;> rfl

theorem Sentence.isWritten (h : V.Sentence t) : Operation.isWritten t = false := by
  cases h <;> rfl

theorem Sentence.exists_not (h : V.Sentence t) :
    ∃ u, (Statement.not t).result = .ok u ∧ V.Sentence u := by
  cases h with
  | truth c => exact ⟨_, rfl, .truth _⟩
  | proposition hv => exact ⟨_, rfl, .not (.proposition hv)⟩
  | rel ha hb => exact ⟨_, rfl, .rel ha hb⟩
  | and h => exact ⟨_, rfl, .not (.and h)⟩
  | or h => exact ⟨_, rfl, .not (.or h)⟩
  | not h => exact ⟨_, rfl, h⟩
  | interaction hlength h => exact ⟨_, rfl, .not (.interaction hlength h)⟩

theorem Sentence.exists_member (h : V.Sentence t) :
    ∃ u, (Statement.member t).result = .ok u ∧ V.Sentence u := by
  cases h with
  | truth c => exact ⟨_, rfl, .truth c⟩
  | @proposition v hv =>
    simp only [Statement.member]
    cases (var v).ask .zero with
    | some z => exact ⟨_, rfl, .truth _⟩
    | none => exact ⟨_, rfl, .proposition hv⟩
  | rel ha hb => exact ⟨_, rfl, .rel ha hb⟩
  | and h => exact ⟨_, rfl, .and h⟩
  | or h => exact ⟨_, rfl, .or h⟩
  | not h => exact ⟨_, rfl, .not h⟩
  | interaction hlength h => exact ⟨_, rfl, .interaction hlength h⟩

theorem exists_members (h : ∀ t ∈ ts, V.Sentence t) :
    ∃ ms, (ts.mapM Statement.member).result = .ok ms ∧ ∀ m ∈ ms, V.Sentence m := by
  obtain ⟨ms, hms, -⟩ := Outcome.exists_mapM fun t ht => (h t ht).exists_member
  refine ⟨ms, hms, fun m hm => ?_⟩
  obtain ⟨t, ht, hmember⟩ := Outcome.exists_of_mem_mapM hms hm
  obtain ⟨u, hu, hsentence⟩ := (h t ht).exists_member
  cases hu.symm.trans hmember
  exact hsentence

theorem Sentence.of_mem_flatten {h : Head} (hts : ∀ t ∈ ts, V.Sentence t)
    (hargs : ∀ as, V.Sentence (app h as) → ∀ a ∈ as, V.Sentence a) :
    ∀ t ∈ Statement.flatten h ts, V.Sentence t := by
  intro u hu
  obtain ⟨t, ht, ⟨as, rfl, hu⟩ | ⟨-, rfl⟩⟩ := World.mem_flatten.1 hu
  · exact hargs as (hts _ ht) u hu
  · exact hts u ht

theorem Sentence.ofMembers {h : Head} {c : Bool} (hts : ∀ t ∈ ts, V.Sentence t)
    (happ : ∀ us, (∀ u ∈ us, V.Sentence u) → V.Sentence (app h us)) :
    V.Sentence (Statement.ofMembers h (Term.truth c) ts) := by
  rcases World.ofMembers_cases h (Term.truth c) ts with ⟨heq, -⟩ | ⟨t, heq, hmem⟩ | ⟨us, heq, hmem⟩
  · rw [heq]
    exact .truth c
  · rw [heq]
    exact hts t ((hmem t).2 rfl)
  · rw [heq]
    exact happ us fun u hu => hts u ((hmem u).1 hu)

end Vocabulary

/-- Two quantities have the same value in a world. -/
def World.Same {M : Type} (w : World M) : Role → Term → Term → Prop
  | .number, t, u => t.val w.value = u.val w.value
  | .order, t, u => w.size t = w.size u

namespace World

variable {M : Type} {w : World M} {ρ : Role} {t u v : Term}

theorem Same.refl (w : World M) (ρ : Role) (t : Term) : w.Same ρ t t := by
  cases ρ <;> rfl

theorem Same.trans (h : w.Same ρ t u) (h' : w.Same ρ u v) : w.Same ρ t v := by
  cases ρ <;> exact Eq.trans h h'

end World

namespace Simplifier

/-- **What reduction can make of a quantity**: it is left as it is, an argument of an extremum is
dropped, the magnitude of a constant becomes that of one, or it is built again from reduced
arguments. -/
inductive Reduct : Term → Term → Prop
  | self (t : Term) : Reduct t t
  | dropped {h : Head} {as : List Term} {c u : Term} (hc : c ∈ World.parts (app h as))
      (hu : (Evaluation.apply h (as.erase c)).result = .ok u) : Reduct (app h as) u
  | constant {t : Term} (ht : t.isNumber = true) : Reduct (app .theta [t]) Magnitude.unit
  | built {h : Head} {as bs : List Term} {u v : Term} (hbs : List.Forall₂ Reduct as bs)
      (hu : (Evaluation.apply h bs).result = .ok u) (hv : (Evaluation.settle u).result = .ok v) :
      Reduct (app h as) v

/-- The arguments that a quantity can be built from again. -/
inductive Rebuilds (h : Head) (as : List Term) : List Term → Prop
  | reduced {bs : List Term} (hbs : List.Forall₂ Reduct as bs) : Rebuilds h as bs
  | dropped {c : Term} (hc : c ∈ World.parts (app h as)) (hne : as.erase c ≠ []) :
      Rebuilds h as (as.erase c)

end Simplifier

open Simplifier

variable {ι : Type*} {M : Type} [LinearOrder M]

/-- **Evaluation keeps the values of the quantities of a vocabulary.** -/
structure Calculus (worlds : ι → World M) (V : Vocabulary) : Prop where
  measures : ∀ i, (worlds i).Measures
  isWritten : ∀ {t}, V .number t → Operation.isWritten t = false
  denotes : ∀ {t}, V .number t → ∀ i, t.Denotes (worlds i).value
  isOrder : ∀ {t}, V .order t → t.isOrder = true
  evades : ∀ {t}, V .order t → t.evades = false
  argument : ∀ {ρ h as a}, V ρ (app h as) → a ∈ as → ∃ σ, V σ a
  /-- An extremum is one of numbers, or one of orders. -/
  part : ∀ {ρ t a}, V ρ t → a ∈ World.parts t → V ρ a
  /-- Comparisons of numbers say what they should. -/
  settles : ∀ {a b}, V .number a → V .number b → ∀ i, (worlds i).Settles a b
  /-- Building a quantity again gives one of the value that it should have. -/
  apply : ∀ {ρ h as bs}, V ρ (app h as) → Rebuilds h as bs →
    ∃ u, (Evaluation.apply h bs).result = .ok u ∧ V ρ u ∧ ∀ i, (worlds i).Same ρ u (app h bs)
  /-- Evaluating a quantity again does not change its value. -/
  settle : ∀ {ρ t}, V ρ t →
    ∃ u, (Evaluation.settle t).result = .ok u ∧ V ρ u ∧ ∀ i, (worlds i).Same ρ u t
  /-- The size of an order depends on the values of its arguments. -/
  size_congr : ∀ {h as bs}, V .order (app h as) → ∀ i,
    List.Forall₂ (fun a b => Reduct a b ∧ ∀ σ, V σ a → (worlds i).Same σ b a) as bs →
    (worlds i).size (app h bs) = (worlds i).size (app h as)
  /-- The magnitude of a constant is that of one. -/
  constant : ∀ {t}, V .order (app .theta [t]) → t.isNumber = true →
    V .order Magnitude.unit ∧ ∀ i, (worlds i).size Magnitude.unit = (worlds i).size (app .theta [t])

/-- **A statement is made that says what it should** in some of the worlds. -/
def Restates (worlds : ι → World M) (V : Vocabulary) (S : Set ι) (call : Outcome Term)
    (P : ι → Prop) : Prop :=
  ∃ u, call.result = .ok u ∧ V.Sentence u ∧ ∀ i ∈ S, ((worlds i).Holds u ↔ P i)

def Vocabulary.Readable (V : Vocabulary) (worlds : ι → World M) : Prop :=
  ∀ {t}, V.Sentence t → ∀ i, (worlds i).Interprets t

section Restates

variable {worlds : ι → World M} {V : Vocabulary} {S T : Set ι} {call : Outcome Term} {P Q : ι → Prop}
  {t u : Term} {ts : List Term}

theorem Restates.congr (h : Restates worlds V S call P) (hiff : ∀ i ∈ S, (P i ↔ Q i)) :
    Restates worlds V S call Q := by
  obtain ⟨u, hu, hsentence, hholds⟩ := h
  exact ⟨u, hu, hsentence, fun i hi => (hholds i hi).trans (hiff i hi)⟩

theorem Restates.mono (h : Restates worlds V S call P) (hsub : T ⊆ S) : Restates worlds V T call P := by
  obtain ⟨u, hu, hsentence, hholds⟩ := h
  exact ⟨u, hu, hsentence, fun i hi => hholds i (hsub hi)⟩

theorem Restates.bind {f : Term → Outcome Term} (h : Restates worlds V S call P)
    (hf : ∀ u, V.Sentence u → Restates worlds V S (f u) fun i => (worlds i).Holds u) :
    Restates worlds V S (call >>= f) P := by
  obtain ⟨u, hu, hsentence, hholds⟩ := h
  obtain ⟨v, hv, hsentence', hholds'⟩ := hf u hsentence
  exact ⟨v, Outcome.result_bind_eq_ok.2 ⟨u, hu, hv⟩, hsentence',
    fun i hi => (hholds' i hi).trans (hholds i hi)⟩

/-- A term stands for another one in some of the worlds. -/
structure Stands (worlds : ι → World M) (V : Vocabulary) (S : Set ι) (a b : Term) : Prop where
  quantity : ∀ {ρ}, V ρ a → V ρ b ∧ ∀ i ∈ S, (worlds i).Same ρ b a
  sentence : V.Sentence a → V.Sentence b ∧ ∀ i ∈ S, ((worlds i).Holds b ↔ (worlds i).Holds a)

/-- Statements that say the same one by one say the same together. -/
theorem members_congr {us : List Term}
    (h : List.Forall₂ (fun t u => V.Sentence u ∧
      ∀ i ∈ S, ((worlds i).Holds u ↔ (worlds i).Holds t)) ts us) :
    (∀ u ∈ us, V.Sentence u) ∧
      ∀ i ∈ S, ((∀ u ∈ us, (worlds i).Holds u) ↔ ∀ t ∈ ts, (worlds i).Holds t) ∧
        ((∃ u ∈ us, (worlds i).Holds u) ↔ ∃ t ∈ ts, (worlds i).Holds t) := by
  induction h with
  | nil => simp
  | cons hu _ ih =>
    refine ⟨List.forall_mem_cons.2 ⟨hu.1, ih.1⟩, fun i hi => ?_⟩
    obtain ⟨hforall, hexists⟩ := ih.2 i hi
    simp only [List.forall_mem_cons, List.exists_mem_cons_iff, hu.2 i hi, hforall, hexists, and_self]

theorem restates_not (hread : V.Readable worlds) (ht : V.Sentence t) :
    Restates worlds V Set.univ (Statement.not t) fun i => ¬ (worlds i).Holds t := by
  obtain ⟨u, hu, hsentence⟩ := ht.exists_not
  exact ⟨u, hu, hsentence, fun i _ => (World.says_not (hread ht i) hu).2⟩

theorem Vocabulary.Readable.kept_subset [hι : Nonempty ι] (hread : V.Readable worlds)
    (hts : ∀ t ∈ ts, V.Sentence t) {kept : List Term}
    (hkept : Statement.distinctMembers ts = some kept) : kept ⊆ ts := by
  obtain ⟨i⟩ := hι
  rcases World.distinctMembers_cases (fun t ht => hread (hts t ht) i) with ⟨kept', heq, hsub, -⟩ | ⟨heq, -⟩
  · cases heq.symm.trans hkept
    exact hsub
  · cases heq.symm.trans hkept

/-- **Conjunctions** of statements over a vocabulary. -/
theorem restates_conj [Nonempty ι] (hread : V.Readable worlds) (hts : ∀ t ∈ ts, V.Sentence t) :
    Restates worlds V Set.univ (Statement.conj ts) fun i => ∀ t ∈ ts, (worlds i).Holds t := by
  have hexists : ∃ u, (Statement.conj ts).result = .ok u ∧ V.Sentence u := by
    obtain ⟨ms, hms, hmembers⟩ := Vocabulary.exists_members hts
    have hflat := Vocabulary.Sentence.of_mem_flatten (h := .and) hmembers fun _ h => h.of_mem_and
    simp only [Statement.conj, Outcome.result_bind_of_ok hms]
    split
    · exact ⟨_, rfl, .truth _⟩
    · split
      · exact ⟨_, rfl, .truth _⟩
      · next kept hkept =>
        have hopen : ∀ t ∈ ordered ((Statement.flatten .and ms).filter (· ≠ top)), V.Sentence t := by
          intro t ht
          exact hflat t (List.mem_of_mem_filter (mem_ordered.1 ht))
        exact ⟨_, rfl, .ofMembers (fun t ht => hopen t (hread.kept_subset hopen hkept ht))
          fun us hus => .and hus⟩
  obtain ⟨u, hu, hsentence⟩ := hexists
  exact ⟨u, hu, hsentence, fun i _ => (World.says_conj (fun t ht => hread (hts t ht) i) hu).2⟩

/-- **Disjunctions** of statements over a vocabulary. -/
theorem restates_disj [Nonempty ι] (hread : V.Readable worlds) (hts : ∀ t ∈ ts, V.Sentence t) :
    Restates worlds V Set.univ (Statement.disj ts) fun i => ∃ t ∈ ts, (worlds i).Holds t := by
  have hexists : ∃ u, (Statement.disj ts).result = .ok u ∧ V.Sentence u := by
    obtain ⟨ms, hms, hmembers⟩ := Vocabulary.exists_members hts
    simp only [Statement.disj, Outcome.result_bind_of_ok hms]
    split
    · exact ⟨_, rfl, .truth _⟩
    · next kept hkept =>
      have hflat := Vocabulary.Sentence.of_mem_flatten (h := .or)
        (fun t ht => hmembers t (hread.kept_subset hmembers hkept ht)) fun _ h => h.of_mem_or
      split
      · exact ⟨_, rfl, .truth _⟩
      · exact ⟨_, rfl, .ofMembers (fun t ht => hflat t (List.mem_of_mem_filter ht))
          fun us hus => .or hus⟩
  obtain ⟨u, hu, hsentence⟩ := hexists
  exact ⟨u, hu, hsentence, fun i _ => (World.says_disj (fun t ht => hread (hts t ht) i) hu).2⟩

end Restates

namespace Calculus

variable {worlds : ι → World M} {V : Vocabulary} {ρ σ : Role} {a b t : Term} {as bs : List Term}
  {r : Rel} (hV : Calculus worlds V)

include hV

/-- **The shapes of quantities**: numerals, variables that are no propositions, and applications. -/
theorem shape [Nonempty ι] (ha : V ρ a) :
    (∃ q, a = num q) ∨ (∃ v : Variable, a = var v ∧ v.kind ≠ .prop) ∨
      ∃ h as, a = app h as ∧ h.isQuantity = true := by
  obtain ⟨i⟩ := ‹Nonempty ι›
  cases ρ with
  | number =>
    have hdenotes := hV.denotes ha i
    have hplain := hV.isWritten ha
    cases a with
    | lit => cases hplain
    | num q => exact .inl ⟨q, rfl⟩
    | special s => exact absurd hdenotes (not_denotes_special s)
    | truth => simp [Denotes] at hdenotes
    | var v =>
      refine .inr (.inl ⟨v, rfl, fun hprop => ?_⟩)
      rw [denotes_var, hprop] at hdenotes
      cases hdenotes
    | app h as =>
      refine .inr (.inr ⟨h, as, rfl, ?_⟩)
      have happlies := ((denotes_app h as).1 hdenotes).2
      cases h <;> first | rfl | exact absurd happlies (by simp [Head.AppliesTo])
  | order =>
    have horder := hV.isOrder ha
    cases a with
    | var v =>
      refine .inr (.inl ⟨v, rfl, fun hprop => ?_⟩)
      rw [Term.isOrder, hprop] at horder
      cases horder
    | app h as =>
      refine .inr (.inr ⟨h, as, rfl, ?_⟩)
      cases h <;> first | rfl | cases horder
    | _ => cases horder

theorem not_sentence [Nonempty ι] (ha : V ρ a) : ¬ V.Sentence a := by
  intro hsentence
  rcases hV.shape ha with ⟨q, rfl⟩ | ⟨v, rfl, hv⟩ | ⟨h, as, rfl, hh⟩
  · cases hsentence
  · cases hsentence with
    | proposition hprop => exact hv hprop
  · cases hsentence <;> cases hh

theorem leadingMinus_eq_false (ha : V .order a) : a.leadingMinus = false :=
  World.leadingMinus_of_isOrder (hV.isOrder ha)

theorem clear (ha : V ρ a) (hb : V ρ b) (i : ι) : (worlds i).Clear a b := by
  cases ρ with
  | number => exact .inl ⟨hV.denotes ha i, hV.denotes hb i⟩
  | order => exact .inr ⟨hV.leadingMinus_eq_false ha, hV.leadingMinus_eq_false hb⟩

/-- **Statements over a calculus have a meaning.** -/
theorem readable : V.Readable worlds := by
  intro t ht i
  induction ht with
  | truth c => exact .truth c
  | proposition => exact .var _
  | rel ha hb => exact .rel (hV.clear ha hb i)
  | and _ ih => exact .and ih
  | or _ ih => exact .or ih
  | not _ ih => exact .not ih
  | interaction => exact .marker rfl _

theorem relates_congr {a' b' : Term} {i : ι} (ha : V ρ a) (hb : V ρ b) (ha' : V ρ a') (hb' : V ρ b')
    (hsameA : (worlds i).Same ρ a' a) (hsameB : (worlds i).Same ρ b' b) :
    (worlds i).Relates r a' b' ↔ (worlds i).Relates r a b := by
  cases ρ with
  | number =>
    rw [World.relates_of_numbers ⟨hV.denotes ha' i, hV.denotes hb' i⟩,
      World.relates_of_numbers ⟨hV.denotes ha i, hV.denotes hb i⟩]
    simp only [World.Same] at hsameA hsameB
    rw [hsameA, hsameB]
  | order =>
    rw [World.relates_of_isOrder_left (hV.isOrder ha'), World.relates_of_isOrder_left (hV.isOrder ha)]
    simp only [World.Same] at hsameA hsameB
    rw [hsameA, hsameB]

omit hV in
theorem holds_interaction {w : World M} (hmeasures : w.Measures) :
    w.Holds (app .littlewoodPaley as) ↔ ∃ i x, (as.map w.size)[i]? = some x ∧
      Magnitude.IsExtremal .le ((as.map w.size).eraseIdx i) x := by
  rw [World.holds_littlewoodPaley, hmeasures.interaction]
  simp only [List.getElem?_map, Option.map_eq_some_iff, List.eraseIdx_map]
  constructor
  · rintro ⟨i, a, ha, hextremal⟩
    exact ⟨i, _, ⟨a, ha, rfl⟩, hextremal⟩
  · rintro ⟨i, _, ⟨a, ha, rfl⟩, hextremal⟩
    exact ⟨i, a, ha, hextremal⟩

omit hV in
theorem settleList_eq_mapM (ts : List Term) :
    Evaluation.settleList ts = ts.mapM Evaluation.settle := by
  induction ts with
  | nil => rfl
  | cons t ts ih => rw [Evaluation.settleList, List.mapM_cons, ih]

end Calculus
end Majorant
