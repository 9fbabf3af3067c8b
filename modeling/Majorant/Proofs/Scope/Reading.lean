import Majorant.Proofs.Session.Scope

/-!
# Readings of terms

A reading gives terms values in any domain.  Nothing is asked of operations but that an equation is accepted
exactly if its sides have the same value, and that connectives make truth values.
-/

namespace Majorant
open Term Proof

/-- The properties by which the variables of a kind are declared. -/
def Kind.properties : Kind → List Property
  | int => [.integer]
  | posInt => [.integer, .positive]
  | nonnegInt => [.integer, .nonnegative]
  | nonzeroInt => [.integer, .nonzero]
  | real => [.real]
  | posReal => [.real, .positive]
  | nonnegReal => [.real, .nonnegative]
  | nonzeroReal => [.real, .nonzero]
  | rat => [.rational]
  | posRat => [.rational, .positive]
  | nonnegRat => [.rational, .nonnegative]
  | nonzeroRat => [.rational, .nonzero]
  | complex => [.complex]
  | prop | order => []

/-- The heads that make statements of statements. -/
def Head.IsConnective (h : Head) : Prop := h = .and ∨ h = .or ∨ h = .not ∨ h = .littlewoodPaley

/-- **A domain of values**, with the properties that they have. -/
structure Domain (X : Type*) where
  Has : Property → X → Prop
  IsTruth : X → Prop
  IsMagnitude : X → Prop

/-- **The values of a kind.** -/
structure Domain.Range {X : Type*} (D : Domain X) (k : Kind) (x : X) : Prop where
  properties : ∀ p ∈ k.properties, D.Has p x
  truth : k = .prop → D.IsTruth x
  magnitude : k = .order → D.IsMagnitude x

/-- **A reading of terms** in a domain of values. -/
structure Reading (X : Type*) extends Domain X where
  constant : Term → X
  apply : Head → List X → X
  /-- The value is one of the values of the kind. -/
  declared : Kind → X → X
  Accepts : X → Prop
  accepts_declared : ∀ k x, Accepts (declared k x) ↔ toDomain.Range k x
  accepts_equation : ∀ x y, Accepts (apply (.rel .eq) [x, y]) ↔ x = y
  accepts_truth : ∀ c, Accepts (constant (truth c)) ↔ c = true
  isTruth_constant : ∀ c, IsTruth (constant (truth c))
  isTruth_apply : ∀ h xs, h.IsConnective → IsTruth (apply h xs)

namespace Reading

variable {X : Type*} (R : Reading X) (ν : Variable → X)

/-- The value of a head with its arguments, whose values are given. -/
def combine : Head → List Term → List X → X
  | .declared, [.var v], _ => R.declared v.kind (ν v)
  | h, _, xs => R.apply h xs

mutual

def value : Term → X
  | .var v => ν v
  | .app h as => R.combine ν h as (values as)
  | t => R.constant t

def values : List Term → List X
  | [] => []
  | a :: as => value a :: values as

end

/-- **A statement holds at a valuation.** -/
def Holds (ν : Variable → X) (t : Term) : Prop := R.Accepts (R.value ν t)

variable {R ν} {ν' : Variable → X} {v : Variable} {t : Term} {s : State}

theorem values_eq_map (ts : List Term) : R.values ν ts = ts.map (R.value ν) := by
  induction ts with
  | nil => simp [values]
  | cons t ts ih => simp [values, ih]

@[simp]
theorem value_var : R.value ν (var v) = ν v := by rw [value]

theorem value_app {h : Head} (hh : h ≠ .declared) (as : List Term) :
    R.value ν (app h as) = R.apply h (as.map (R.value ν)) := by
  rw [value, values_eq_map]
  unfold combine
  split
  · exact absurd rfl hh
  · rfl

theorem holds_truth (c : Bool) : R.Holds ν (truth c) ↔ c = true := by
  unfold Holds
  rw [value]
  · exact R.accepts_truth c
  · nofun
  · nofun

theorem holds_declare : R.Holds ν (declare v) ↔ R.Range v.kind (ν v) := by
  unfold Holds declare
  rw [value, combine]
  exact R.accepts_declared v.kind (ν v)

theorem holds_equation (a b : Term) :
    R.Holds ν (app (.rel .eq) [a, b]) ↔ R.value ν a = R.value ν b := by
  have hne : Head.rel .eq ≠ .declared := nofun
  unfold Holds
  rw [value_app hne]
  exact R.accepts_equation _ _

/-- **A value depends only on the variables of the term.** -/
theorem value_congr {A : Alphabet} (h : ∀ v, A.letters v → ν v = ν' v) (ht : t.Over A) :
    R.value ν t = R.value ν' t := by
  induction ht with
  | lit | num | special | truth => simp only [value]
  | var hv => simpa using h _ hv
  | @app head as parts mark args ih =>
    have hvalues : R.values ν as = R.values ν' as := by
      rw [values_eq_map, values_eq_map]
      exact List.map_congr_left ih
    rw [value, value, hvalues]
    unfold combine
    split
    · -- A declaration looks at the value of its variable.
      have hvar := args _ (List.mem_singleton_self _)
      rw [h _ (over_var.1 hvar)]
    · rfl

def Respects (R : Reading X) (s : State) (ν : Variable → X) : Prop :=
  ∀ v, var v ∈ s.declaredVariables → R.Range v.kind (ν v)

def Models (R : Reading X) (s : State) (ν : Variable → X) : Prop :=
  ∀ h ∈ s.context.hypotheses, R.Holds ν h

def AgreeOn (s : State) (ν ν' : Variable → X) : Prop :=
  ∀ v, var v ∈ s.declaredVariables → ν v = ν' v

theorem AgreeOn.value_eq (h : AgreeOn s ν ν') (ht : t.Over s.context.alphabet) :
    R.value ν t = R.value ν' t := by
  have hletters : ∀ v, s.context.alphabet.letters v → ν v = ν' v := h
  exact value_congr hletters ht

theorem AgreeOn.holds_iff (h : AgreeOn s ν ν') (ht : t.Over s.context.alphabet) :
    R.Holds ν t ↔ R.Holds ν' t := by
  unfold Holds
  rw [h.value_eq ht]

theorem AgreeOn.models_iff (h : AgreeOn s ν ν') (hs : s.context.InScope) :
    R.Models s ν ↔ R.Models s ν' := by
  have hover : ∀ t ∈ s.context.hypotheses, t.Over s.context.alphabet :=
    List.forall_mem_map.2 hs.hypotheses
  exact forall₂_congr fun t ht => h.holds_iff (hover t ht)

theorem respects_of_declarations
    (h : ∀ p ∈ s.context, isDeclaration p.2 = true → R.Holds ν p.2) : R.Respects s ν := by
  intro v hv
  obtain ⟨name, hp⟩ := Context.mem_declaredVariables.1 hv
  exact holds_declare.1 (h _ hp rfl)

theorem Models.respects (h : R.Models s ν) : R.Respects s ν :=
  respects_of_declarations fun _ hp _ => h _ (List.mem_map_of_mem hp)

theorem is_of_signName {f : Knowledge} {base : String} {p : Property} {k : Kind}
    (hbase : (base, p) ∈ [("int", .integer), ("rat", .rational), ("real", .real)])
    (hp : f.is p = true) (hk : Kind.ofName? (signName f base) = some k) :
    (∀ q ∈ k.properties, f.is q = true) ∧ k ≠ .prop ∧ k ≠ .order := by
  unfold signName at hk
  simp only [List.mem_cons, Prod.mk.injEq, List.not_mem_nil, or_false] at hbase
  rcases hbase with ⟨rfl, rfl⟩ | ⟨rfl, rfl⟩ | ⟨rfl, rfl⟩
  all_goals
    split_ifs at hk <;> cases hk <;> simp_all [Kind.properties]

/-- The terms whose values are truth values, as far as kinds tell. -/
inductive Truthful : Term → Prop
  | truth (c : Bool) : Truthful (truth c)
  | var {v : Variable} (hv : v.kind = .prop) : Truthful (var v)
  | app {h : Head} (hh : h.IsConnective) (as : List Term) : Truthful (app h as)

/-- **What the narrowest kind of a term says**: its properties are known, statements are truth values, and
only variables stand for orders of magnitude. -/
theorem is_of_typeName {k : Kind} (hk : Kind.ofName? t.typeName = some k) :
    (∀ p ∈ k.properties, t.is p = true) ∧ (k = .prop → Truthful t) ∧
      (k = .order → ∃ v, t = var v ∧ v.kind = .order) := by
  have hnumber : ∀ {base p},
      (base, p) ∈ [("int", Property.integer), ("rat", .rational), ("real", .real)] →
      t.facts.is p = true → Kind.ofName? (signName t.facts base) = some k →
      (∀ p ∈ k.properties, t.is p = true) ∧ (k = .prop → Truthful t) ∧
        (k = .order → ∃ v, t = var v ∧ v.kind = .order) := by
    intro base p hbase hp hk
    obtain ⟨hknown, hprop, horder⟩ := is_of_signName hbase hp hk
    exact ⟨hknown, fun heq => absurd heq hprop, fun heq => absurd heq horder⟩
  unfold typeName at hk
  dsimp only at hk
  split_ifs at hk with hint hrat hreal hcomplex hnonzero
  · exact hnumber (by simp) hint hk
  · exact hnumber (by simp) hrat hk
  · exact hnumber (by simp) hreal hk
  · -- Numbers that are known not to be zero are known to be real.
    have hreal' : t.facts.is .real = true :=
      Knowledge.is_of_imp hnonzero fun c hc => (Bool.and_eq_true_iff.1 hc).1
    exact absurd hreal' hreal
  · cases hk
    exact ⟨List.forall_mem_singleton.2 hcomplex, nofun, nofun⟩
  · split at hk
    · cases hk
      exact ⟨List.forall_mem_nil _, fun _ => .truth _, nofun⟩
    · split_ifs at hk with hprop horder
      · cases hk
        exact ⟨List.forall_mem_nil _, fun _ => .var (beq_iff_eq.1 hprop), nofun⟩
      · cases hk
        exact ⟨List.forall_mem_nil _, nofun, fun _ => ⟨_, rfl, beq_iff_eq.1 horder⟩⟩
      · cases hk
    · cases hk
      exact ⟨List.forall_mem_nil _, fun _ => .app (.inl rfl) _, nofun⟩
    · cases hk
      exact ⟨List.forall_mem_nil _, fun _ => .app (.inr (.inl rfl)) _, nofun⟩
    · cases hk
      exact ⟨List.forall_mem_nil _, fun _ => .app (.inr (.inr (.inl rfl))) _, nofun⟩
    · cases hk
      exact ⟨List.forall_mem_nil _, fun _ => .app (.inr (.inr (.inr rfl))) _, nofun⟩
    · cases hk

theorem exists_finite_property {k : Kind} (hprop : k ≠ .prop) (horder : k ≠ .order) :
    ∃ p ∈ k.properties, ∀ c : ValueClass, p.holds c = true → Property.infinite.holds c = false := by
  cases k with
  | prop => exact absurd rfl hprop
  | order => exact absurd rfl horder
  | _ => exact ⟨_, List.mem_cons_self .., fun c => by cases c <;> decide⟩

theorem is_infinite_of_typeName {k : Kind} (hk : Kind.ofName? t.typeName = some k)
    (hquantity : t.isQuantity = true) (horder : t.isOrder = false) : t.is .infinite = false := by
  obtain ⟨hknown, htruth, hmagnitude⟩ := is_of_typeName hk
  by_cases hprop : k = .prop
  · cases htruth hprop with
    | truth c => cases hquantity
    | @var v hv =>
      rw [Term.is, facts_var, hv]
      decide
    | @app h hh as => rcases hh with rfl | rfl | rfl | rfl <;> cases hquantity
  · by_cases hk : k = .order
    · obtain ⟨v, rfl, hv⟩ := hmagnitude hk
      rw [isOrder, hv] at horder
      cases horder
    · obtain ⟨p, hp, hfinite⟩ := exists_finite_property hprop hk
      obtain ⟨c, hc⟩ := List.exists_mem_of_ne_nil _ (facts_ne_nil t)
      rw [← Bool.not_eq_true]
      intro hinfinite
      have hholds := Knowledge.is_iff.1 hinfinite c hc
      rw [hfinite c (Knowledge.is_iff.1 (hknown p hp) c hc)] at hholds
      cases hholds

theorem is_infinite_var (v : Variable) : (var v).is .infinite = false := by
  rw [Term.is, facts_var]
  cases v.kind <;> decide

theorem Truthful.isTruth (h : Truthful t) (ht : t.Over s.context.alphabet) (hν : R.Respects s ν) :
    R.IsTruth (R.value ν t) := by
  cases h with
  | truth c =>
    rw [value]
    · exact R.isTruth_constant c
    · nofun
    · nofun
  | @var v hv =>
    rw [value_var]
    exact (hν v (over_var.1 ht)).truth hv
  | @app h hh as =>
    have hne : h ≠ .declared := by
      rintro rfl
      rcases hh with hh | hh | hh | hh <;> cases hh
    rw [value_app hne]
    exact R.isTruth_apply h _ hh

/-- **The value of a term is one of the values of its narrowest kind**, if what is known of the term is
right. -/
theorem range_of_typeName {k : Kind} (hk : Kind.ofName? t.typeName = some k)
    (ht : t.Over s.context.alphabet) (hν : R.Respects s ν)
    (hright : ∀ k : Kind, ∀ p ∈ k.properties, t.is p = true → R.Has p (R.value ν t)) :
    R.Range k (R.value ν t) := by
  obtain ⟨hknown, htruth, horder⟩ := is_of_typeName hk
  refine ⟨fun p hp => hright k p hp (hknown p hp), fun heq => (htruth heq).isTruth ht hν, fun heq => ?_⟩
  obtain ⟨v, rfl, hv⟩ := horder heq
  rw [value_var]
  exact (hν v (over_var.1 ht)).magnitude hv

end Reading
end Majorant
