import Majorant.Proofs.Growth.Exponent
import Majorant.Proofs.Magnitude.Arithmetic
import Majorant.Proofs.Magnitude.Positive
import Majorant.Proofs.Scope.Term

/-!
# Orders of magnitude and tropical values

Given exponents of the variables, an expression has a tropical value: sums and maxima count as the
larger value, products as sums, quotients as differences and powers as multiples.
-/

namespace Majorant
open Growth Magnitude

namespace Term

/-- **Quantities composed of positive numbers and variables** by sums, products, maxima and rational
powers, each of which is known to be positive. -/
inductive PositiveQuantity : Term → Prop
  | num {q : ℚ} (hq : 0 < q) : PositiveQuantity (num q)
  | var {v : Variable} (hv : (var v).is .positive = true) : PositiveQuantity (var v)
  | add {as : List Term} (hne : as ≠ []) (hpositive : (app .add as).is .positive = true)
      (has : ∀ a ∈ as, PositiveQuantity a) : PositiveQuantity (app .add as)
  | mul {as : List Term} (hpositive : (app .mul as).is .positive = true)
      (has : ∀ a ∈ as, PositiveQuantity a) : PositiveQuantity (app .mul as)
  | max {as : List Term} (hne : as ≠ []) (hpositive : (app .max as).is .positive = true)
      (has : ∀ a ∈ as, PositiveQuantity a) : PositiveQuantity (app .max as)
  | pow {b : Term} {q : ℚ} (hpositive : (app .pow [b, .num q]).is .positive = true)
      (hb : PositiveQuantity b) : PositiveQuantity (app .pow [b, .num q])

mutual

/-- **The tropical value of a quantity**, for given exponents of the variables. -/
def tropical (e : Variable → ℚ) : Term → ℚ
  | var v => e v
  | app .add as => (tropicals e as).max?.getD 0
  | app .max as => (tropicals e as).max?.getD 0
  | app .mul as => (tropicals e as).sum
  | app .pow [b, num q] => q * tropical e b
  | _ => 0

def tropicals (e : Variable → ℚ) : List Term → List ℚ
  | [] => []
  | t :: ts => tropical e t :: tropicals e ts

end

theorem num_is_rational (q : ℚ) : (num q).is .rational = true := by
  rw [num_is_iff]
  unfold ValueClass.ofRat
  split_ifs <;> rfl

variable {e : Variable → ℚ} {t : Term} {as : List Term}

-- nothing counts as zero; the equations of the definition are made here, once for all that follows
example : tropical e (app .max []) = 0 := by cbv

theorem tropicals_eq_map (e : Variable → ℚ) (ts : List Term) : tropicals e ts = ts.map (tropical e) := by
  induction ts with
  | nil => rfl
  | cons t ts ih => rw [tropicals, ih, List.map_cons]

theorem tropical_add : tropical e (app .add as) = (as.map (tropical e)).max?.getD 0 := by
  rw [tropical, tropicals_eq_map]

theorem tropical_max : tropical e (app .max as) = (as.map (tropical e)).max?.getD 0 := by
  rw [tropical, tropicals_eq_map]

theorem tropical_mul : tropical e (app .mul as) = (as.map (tropical e)).sum := by
  rw [tropical, tropicals_eq_map]

theorem tropical_pow {b : Term} {q : ℚ} : tropical e (app .pow [b, num q]) = q * tropical e b := by
  rw [tropical]

namespace PositiveQuantity

theorem is_positive (ht : PositiveQuantity t) : t.is .positive = true := by
  cases ht with
  | num hq => exact num_is_positive.2 hq
  | _ => assumption

theorem realExpression (ht : PositiveQuantity t) : RealExpression t := by
  induction ht with
  | num => exact .num _
  | @var v hv =>
    refine .var ?_
    rw [Term.is, facts_var] at hv
    revert hv
    cases v.kind <;> decide
  | add _ _ _ ih => exact .app (by simp) ih
  | mul _ _ ih => exact .app (by simp) ih
  | max _ _ _ ih => exact .app (by simp) ih
  | pow _ _ ih => exact .power ih (.num _) fun _ _ => ⟨_, rfl⟩

theorem isNumber_of_mem {h : Head} {a : Term} (hnumber : (app h as).isNumber = true) (ha : a ∈ as) :
    a.isNumber = true := by
  rw [isNumber, Bool.and_eq_true, isNumberList_iff] at hnumber
  exact hnumber.2 a ha

theorem max_tropical_eq_zero (hne : as ≠ []) (has : ∀ a ∈ as, tropical e a = 0) :
    (as.map (tropical e)).max?.getD 0 = 0 := by
  have hmap : as.map (tropical e) ≠ [] := by simpa using hne
  obtain ⟨a, ha, heq⟩ := List.mem_map.1 (isExtremal_max? hmap 0).2
  rw [← heq, has a ha]

theorem tropical_of_isNumber (ht : PositiveQuantity t) (hnumber : t.isNumber = true) :
    tropical e t = 0 := by
  induction ht with
  | num => rfl
  | var => cases hnumber
  | add hne _ _ ih =>
    rw [tropical_add]
    exact max_tropical_eq_zero hne fun a ha => ih a ha (isNumber_of_mem hnumber ha)
  | max hne _ _ ih =>
    rw [tropical_max]
    exact max_tropical_eq_zero hne fun a ha => ih a ha (isNumber_of_mem hnumber ha)
  | mul _ _ ih =>
    rw [tropical_mul]
    exact List.sum_eq_zero (List.forall_mem_map.2 fun a ha => ih a ha (isNumber_of_mem hnumber ha))
  | pow _ _ ih =>
    rw [tropical_pow, ih (isNumber_of_mem hnumber (List.mem_cons_self ..)), mul_zero]

end PositiveQuantity
end Term

namespace Magnitude
open Term

variable {t o : Term} {as : List Term}

/-- **An order whose degree is the tropical value** of a quantity, composed of orders of variables. -/
structure TropicalOrder (o t : Term) : Prop where
  normal : Normal True o
  degree : ∀ e, degree e o = t.tropical e

theorem tropicalOrder_of_eq (ht : PositiveQuantity t)
    (heq : ofPositive t = if t.isOrder then t else if t.isNumber then unit else o)
    (ho : TropicalOrder o t) : TropicalOrder (ofPositive t) t := by
  rw [heq, ht.realExpression.isOrder, if_neg Bool.false_ne_true]
  split
  · next hnumber => exact ⟨.unit, fun e => (ht.tropical_of_isNumber hnumber).symm⟩
  · exact ho

theorem all_is_positive (has : ∀ a ∈ as, PositiveQuantity a) : (as.all (·.is .positive)) = true :=
  List.all_eq_true.2 fun a ha => (has a ha).is_positive

theorem normal_ofPositiveList (has : ∀ a ∈ as, TropicalOrder (ofPositive a) a) :
    ∀ o ∈ ofPositiveList as, Normal True o := by
  rw [ofPositiveList_eq_map]
  exact List.forall_mem_map.2 fun a ha => (has a ha).normal

theorem degree_ofPositiveList (has : ∀ a ∈ as, TropicalOrder (ofPositive a) a) (e : Variable → ℚ) :
    (ofPositiveList as).map (degree e) = as.map (tropical e) := by
  rw [ofPositiveList_eq_map, List.map_map]
  exact List.map_congr_left fun a ha => (has a ha).degree e

theorem tropicalOrder_join (hne : as ≠ []) (has : ∀ a ∈ as, TropicalOrder (ofPositive a) a)
    (ht : ∀ e, t.tropical e = (as.map (tropical e)).max?.getD 0) :
    TropicalOrder (join (ofPositiveList as)) t := by
  have hnormal := normal_ofPositiveList has
  have horders : ofPositiveList as ≠ [] := by
    rw [ofPositiveList_eq_map]
    simpa using hne
  refine ⟨Normal.extremum_spread True.intro (.inl rfl) horders hnormal, fun e => ?_⟩
  have hextremal := Normal.degree_extremum_spread (.inl rfl) horders hnormal e
  rw [degree_ofPositiveList has] at hextremal
  rw [ht]
  exact hextremal.unique (h := .orderMax) (isExtremal_max? (by simpa using hne) 0)

theorem tropicalOrder_times (has : ∀ a ∈ as, TropicalOrder (ofPositive a) a) :
    TropicalOrder (times (ofPositiveList as)) (app .mul as) := by
  have hnormal := normal_ofPositiveList has
  refine ⟨Normal.times hnormal, fun e => ?_⟩
  have hdegree := ((Composed.sizing_degree _ e).times fun o ho => (hnormal o ho).composed).2
  rw [hdegree, degree_ofPositiveList has, tropical_mul]

theorem tropicalOrder_raise {b : Term} {q : ℚ} (hb : TropicalOrder (ofPositive b) b) :
    TropicalOrder (raise (ofPositive b) (num q)) (app .pow [b, num q]) := by
  refine ⟨hb.normal.raise q, fun e => ?_⟩
  rw [Operand.raise_degree hb.normal, hb.degree, tropical_pow]

/-- **The order of magnitude of a quantity** is composed of orders of variables, and its degree is the
tropical value. -/
theorem tropicalOrder_ofPositive (ht : PositiveQuantity t) : TropicalOrder (ofPositive t) t := by
  induction ht with
  | num => exact ⟨.unit, fun _ => rfl⟩
  | @var v hv =>
    have heq : ofPositive (.var v) = app .theta [.var v] := by
      unfold ofPositive
      rw [(PositiveQuantity.var hv).realExpression.isOrder]
      rfl
    rw [heq]
    exact ⟨.theta hv, fun e => by rw [Magnitude.degree, tropical]⟩
  | @add as hne hpositive has ih =>
    refine tropicalOrder_of_eq (.add hne hpositive has) (by rw [ofPositive]) ?_
    rw [if_pos (all_is_positive has)]
    exact tropicalOrder_join hne ih fun e => tropical_add
  | @max as hne hpositive has ih =>
    refine tropicalOrder_of_eq (.max hne hpositive has) (by rw [ofPositive]) ?_
    rw [if_pos (all_is_positive has)]
    exact tropicalOrder_join hne ih fun e => tropical_max
  | @mul as hpositive has ih =>
    refine tropicalOrder_of_eq (.mul hpositive has) (by rw [ofPositive]) ?_
    rw [if_pos (all_is_positive has)]
    exact tropicalOrder_times ih
  | @pow b q hpositive hb ih =>
    refine tropicalOrder_of_eq (.pow hpositive hb) (by rw [ofPositive]) ?_
    have hparts : (b.is .positive && (num q).isNumber && (num q).is .rational) = true := by
      rw [hb.is_positive, num_is_rational]
      rfl
    rw [if_pos hparts]
    exact tropicalOrder_raise ih

theorem theta_of_ofLiteral {s : Term} (hs : ofLiteral s = pure t) (ht : PositiveQuantity t) :
    theta s = pure (ofPositive t) := by
  have hexact := theta_of_realExpression ht.realExpression ht.is_positive
  cases s with
  | lit l =>
    cases l with
    | absent => cases hs
    | float q =>
      cases hs
      exact if_pos (num_is_positive.1 ht.is_positive)
    | _ =>
      cases hs
      exact hexact
  | _ =>
    cases hs
    exact hexact

end Magnitude

noncomputable def Growth.growing (e : Variable → ℚ) (x : ℝ) : Valuation := fun v => rationalPower (e v) x

/-- **A quantity grows with its tropical value.** -/
theorem Term.PositiveQuantity.hasExponent {t : Term} (ht : t.PositiveQuantity) (e : Variable → ℚ) :
    HasExponent (fun x => t.val (growing e x)) (t.tropical e) := by
  induction ht with
  | num hq =>
    simp only [val_num]
    exact .const (by exact_mod_cast hq)
  | var => exact hasExponent_rationalPower _
  | add hne _ _ ih =>
    simp only [val_add, tropical_add]
    exact .list_sum hne ih
  | max hne _ _ ih =>
    simp only [val_max, tropical_max]
    exact .list_max hne ih
  | mul _ _ ih =>
    simp only [val_mul, tropical_mul]
    exact .list_prod ih
  | pow _ _ ih =>
    simp only [val_pow, val_num, tropical_pow]
    exact ih.rpow _

namespace Expression

variable {meaning : String → Outcome Term} {E a b : Expression} {as : List Expression} {ρ : Valuation}
variable {e : Variable → ℚ}

def number? : Expression → Option ℚ
  | value l => (Term.lit l).rational?
  | form .exact [value l] => (Term.lit l).rational?
  | _ => none

/-- **Expressions built from positive numbers and positive variables** by sums, products, maxima,
quotients and rational powers. -/
inductive Positive (meaning : String → Outcome Term) : Expression → Prop
  | number {E : Expression} {q : ℚ} (hE : E.number? = some q) (hq : 0 < q) : Positive meaning E
  | named {E : Expression} {v : Variable} (hE : E.asVariable? meaning = some v)
      (hv : (Term.var v).is .positive = true) : Positive meaning E
  | add {as : List Expression} (hne : as ≠ []) (has : ∀ a ∈ as, Positive meaning a) :
      Positive meaning (form .add as)
  | mul {as : List Expression} (has : ∀ a ∈ as, Positive meaning a) : Positive meaning (form .mul as)
  | max {as : List Expression} (hne : as ≠ []) (has : ∀ a ∈ as, Positive meaning a) :
      Positive meaning (form .max as)
  | div {a b : Expression} (ha : Positive meaning a) (hb : Positive meaning b) :
      Positive meaning (form .div [a, b])
  | pow {a x : Expression} {q : ℚ} (ha : Positive meaning a) (hx : x.rational? meaning = some q) :
      Positive meaning (form .pow [a, x])

mutual

noncomputable def real (meaning : String → Outcome Term) (ρ : Valuation) : Expression → ℝ
  | form .add as => (reals meaning ρ as).sum
  | form .mul as => (reals meaning ρ as).prod
  | form .max as => greatestOf (reals meaning ρ as)
  | form .div [a, b] => real meaning ρ a / real meaning ρ b
  | form .pow [a, x] => real meaning ρ a ^ (((x.rational? meaning).getD 0 : ℚ) : ℝ)
  | E => ((E.asVariable? meaning).map ρ).getD (E.number?.getD 0 : ℚ)

noncomputable def reals (meaning : String → Outcome Term) (ρ : Valuation) : List Expression → List ℝ
  | [] => []
  | a :: as => real meaning ρ a :: reals meaning ρ as

end

mutual

/-- **The tropical value of an expression** as it is written, for given exponents of the variables. -/
def tropical (meaning : String → Outcome Term) (e : Variable → ℚ) : Expression → ℚ
  | form .add as => (tropicals meaning e as).max?.getD 0
  | form .max as => (tropicals meaning e as).max?.getD 0
  | form .mul as => (tropicals meaning e as).sum
  | form .div [a, b] => tropical meaning e a - tropical meaning e b
  | form .pow [a, x] => (x.rational? meaning).getD 0 * tropical meaning e a
  | E => ((E.asVariable? meaning).map e).getD 0

def tropicals (meaning : String → Outcome Term) (e : Variable → ℚ) : List Expression → List ℚ
  | [] => []
  | a :: as => tropical meaning e a :: tropicals meaning e as

end

example : (form .add []).real meaning ρ = 0 := by cbv

example : (form .max []).tropical meaning e = 0 := by cbv

theorem reals_eq_map : reals meaning ρ as = as.map (real meaning ρ) := by
  induction as with
  | nil => simp [reals]
  | cons a as ih => simp [reals, ih]

theorem real_add : (form .add as).real meaning ρ = (as.map (real meaning ρ)).sum := by
  rw [real, reals_eq_map]

theorem real_mul : (form .mul as).real meaning ρ = (as.map (real meaning ρ)).prod := by
  rw [real, reals_eq_map]

theorem real_max : (form .max as).real meaning ρ = greatestOf (as.map (real meaning ρ)) := by
  rw [real, reals_eq_map]

theorem real_div : (form .div [a, b]).real meaning ρ = a.real meaning ρ / b.real meaning ρ := by
  rw [real]

theorem real_pow {q : ℚ} (hx : b.rational? meaning = some q) :
    (form .pow [a, b]).real meaning ρ = a.real meaning ρ ^ (q : ℝ) := by
  rw [real, hx, Option.getD_some]

theorem tropicals_eq_map : tropicals meaning e as = as.map (tropical meaning e) := by
  induction as with
  | nil => simp [tropicals]
  | cons a as ih => simp [tropicals, ih]

theorem real_number {q : ℚ} (hE : E.number? = some q) : E.real meaning ρ = q := by
  unfold number? at hE
  split at hE
  · simp [real, asVariable?, number?, hE]
  · simp [real, asVariable?, number?, hE]
  · cases hE

theorem tropical_number {q : ℚ} (hE : E.number? = some q) : E.tropical meaning e = 0 := by
  unfold number? at hE
  split at hE
  · simp [tropical, asVariable?]
  · simp [tropical, asVariable?]
  · cases hE

theorem real_variable {v : Variable} (hE : E.asVariable? meaning = some v) : E.real meaning ρ = ρ v := by
  cases E with
  | name s => simp [real, hE]
  | typed k s => simp [real, hE]
  | _ => cases hE

theorem tropical_variable {v : Variable} (hE : E.asVariable? meaning = some v) :
    E.tropical meaning e = e v := by
  cases E with
  | name s => simp [tropical, hE]
  | typed k s => simp [tropical, hE]
  | _ => cases hE

/-- **An expression grows with its tropical value.** -/
theorem Positive.hasExponent (hE : Positive meaning E) (e : Variable → ℚ) :
    HasExponent (fun x => E.real meaning (growing e x)) (E.tropical meaning e) := by
  induction hE with
  | number hE hq =>
    simp only [real_number hE, tropical_number hE]
    exact .const (by exact_mod_cast hq)
  | named hE =>
    simp only [real_variable hE, tropical_variable hE]
    exact hasExponent_rationalPower _
  | add hne _ ih =>
    simp only [real_add, tropical, tropicals_eq_map]
    exact .list_sum hne ih
  | max hne _ ih =>
    simp only [real_max, tropical, tropicals_eq_map]
    exact .list_max hne ih
  | mul _ ih =>
    simp only [real_mul, tropical, tropicals_eq_map]
    exact .list_prod ih
  | div _ _ iha ihb =>
    simp only [real_div, tropical]
    exact iha.div ihb
  | pow _ hx ih =>
    simp only [real_pow hx, tropical, hx, Option.getD_some]
    exact ih.rpow _

/-- **The expression is evaluated to an equal quantity of the same kind.**  The two have the same value
whenever each positive variable has a value of its kind. -/
structure SettlesAs (meaning : String → Outcome Term) (E : Expression) (t : Term) : Prop where
  evaluated : ∃ s, (E.evaluate meaning).result = .ok s ∧ Term.ofLiteral s = pure t
  quantity : t.PositiveQuantity
  equal : ∀ ρ : Valuation, (∀ v, (Term.var v).is .positive = true → v.kind.Admits (ρ v)) →
    t.val ρ = E.real meaning ρ

/-- **Evaluating keeps tropical values**, if whole numbers have exponents that are not negative. -/
theorem SettlesAs.tropical_eq {t : Term} (hE : Positive meaning E) (ht : SettlesAs meaning E t)
    (he : ∀ v : Variable, v.kind = .posInt → 0 ≤ e v) : t.tropical e = E.tropical meaning e := by
  -- the quantity and the expression are the same function of a number that becomes large
  refine ((ht.quantity.hasExponent e).congr fun x hx => ?_).unique (hE.hasExponent e)
  exact ht.equal _ fun v hv => admits_rationalPower hv (he v) hx

/-- **The order of magnitude of a positive expression** is composed of orders of variables.  Its degree is
the tropical value of the quantity that the expression is evaluated to, and the tropical value of the
expression as it is written if whole numbers have exponents that are not negative. -/
theorem theta_tropical {t : Term} (hE : Positive meaning E) (ht : SettlesAs meaning E t) :
    ∃ o, ((form .theta [E]).evaluate meaning).result = .ok o ∧ Normal True o ∧
      (∀ e, Magnitude.degree e o = t.tropical e) ∧
      ∀ e, (∀ v : Variable, v.kind = .posInt → 0 ≤ e v) →
        Magnitude.degree e o = E.tropical meaning e := by
  obtain ⟨s, hs, hliteral⟩ := ht.evaluated
  have horder := tropicalOrder_ofPositive ht.quantity
  refine ⟨ofPositive t, ?_, horder.normal, horder.degree, fun e he => ?_⟩
  · rw [evaluate, evaluateList, evaluateList]
    refine Outcome.result_bind_eq_ok.2 ⟨[s], ?_, ?_⟩
    · exact Outcome.result_bind_eq_ok.2 ⟨s, hs, rfl⟩
    · exact congrArg Outcome.result (theta_of_ofLiteral hliteral ht.quantity)
  · rw [horder.degree, ht.tropical_eq hE he]

/-- A positive whole number, a positive fraction and a positive number. -/
def positiveNames : String → Outcome Term :=
  declaredIn [⟨"n", .posInt⟩, ⟨"r", .posRat⟩, ⟨"x", .posReal⟩]

/-- A whole number and a root, divided by a multiple of a fraction. -/
def rootQuotient : Expression :=
  form .div [form .add [name "n", form .pow [name "x", value (.ratio (1 / 2))]],
    form .mul [value (.int 3), name "r"]]

def rootProduct : Term :=
  .app .mul [.num (1 / 3), .app .pow [.var ⟨"r", .posRat⟩, .num (-1)],
    .app .add [.var ⟨"n", .posInt⟩, .app .pow [.var ⟨"x", .posReal⟩, .num (1 / 2)]]]

def atLeastOne : Expression := form .max [name "n", value (.int 1)]

theorem positive_rootQuotient : Positive positiveNames rootQuotient := by
  have hn : Positive positiveNames (name "n") := .named rfl (by decide)
  have hr : Positive positiveNames (name "r") := .named rfl (by decide)
  have hx : Positive positiveNames (name "x") := .named rfl (by decide)
  have hthree : Positive positiveNames (value (.int 3)) := .number rfl (by norm_num)
  have hroot : Positive positiveNames (form .pow [name "x", value (.ratio (1 / 2))]) := .pow hx rfl
  refine .div (.add (by simp) ?_) (.mul ?_)
  · exact List.forall_mem_cons.2 ⟨hn, List.forall_mem_singleton.2 hroot⟩
  · exact List.forall_mem_cons.2 ⟨hthree, List.forall_mem_singleton.2 hr⟩

theorem positiveQuantity_rootProduct : rootProduct.PositiveQuantity := by
  have hn : (Term.var ⟨"n", .posInt⟩).PositiveQuantity := .var (by decide)
  have hr : (Term.app .pow [.var ⟨"r", .posRat⟩, .num (-1)]).PositiveQuantity :=
    .pow (by decide +kernel) (.var (by decide))
  have hx : (Term.app .pow [.var ⟨"x", .posReal⟩, .num (1 / 2)]).PositiveQuantity :=
    .pow (by decide +kernel) (.var (by decide))
  have hsum := List.forall_mem_cons.2 ⟨hn, List.forall_mem_singleton.2 hx⟩
  refine .mul (by decide +kernel) ?_
  refine List.forall_mem_cons.2 ⟨.num (by norm_num), List.forall_mem_cons.2 ⟨hr, ?_⟩⟩
  exact List.forall_mem_singleton.2 (.add (by simp) (by decide +kernel) hsum)

theorem settlesAs_rootProduct : SettlesAs positiveNames rootQuotient rootProduct := by
  refine ⟨⟨rootProduct, by decide +kernel, rfl⟩, positiveQuantity_rootProduct, fun ρ hρ => ?_⟩
  have hr : 0 < ρ ⟨"r", .posRat⟩ := (hρ ⟨"r", .posRat⟩ (by decide)).2
  have hn : (name "n").real positiveNames ρ = ρ ⟨"n", .posInt⟩ := real_variable rfl
  have hfraction : (name "r").real positiveNames ρ = ρ ⟨"r", .posRat⟩ := real_variable rfl
  have hx : (name "x").real positiveNames ρ = ρ ⟨"x", .posReal⟩ := real_variable rfl
  have hthree : (value (.int 3)).real positiveNames ρ = (3 : ℚ) := real_number rfl
  have hhalf : (value (.ratio (1 / 2))).rational? positiveNames = some (1 / 2) := rfl
  have hinverse : ρ ⟨"r", .posRat⟩ ^ (((-1 : ℚ) : ℚ) : ℝ) = (ρ ⟨"r", .posRat⟩)⁻¹ := by
    rw [Rat.cast_neg, Rat.cast_one, Real.rpow_neg_one]
  simp only [rootQuotient, rootProduct, real_div, real_add, real_mul, real_pow hhalf, hn, hfraction, hx,
    hthree, Term.val_mul, Term.val_add, Term.val_pow, Term.val_num, Term.val_var, List.map_cons,
    List.map_nil, List.sum_cons, List.sum_nil, List.prod_cons, List.prod_nil, hinverse]
  push_cast
  field_simp

/-- The order of the quotient, and its degree. -/
theorem theta_rootQuotient : (Positive positiveNames rootQuotient ∧
      SettlesAs positiveNames rootQuotient rootProduct) ∧
    ((form .theta [rootQuotient]).evaluate positiveNames).result = .ok (.app .orderMul
      [.app .orderPow [.app .theta [.var ⟨"r", .posRat⟩], .num (-1)],
        .app .orderMax [.app .theta [.var ⟨"n", .posInt⟩],
          .app .orderPow [.app .theta [.var ⟨"x", .posReal⟩], .num (1 / 2)]]]) ∧
    ∃ o, ((form .theta [rootQuotient]).evaluate positiveNames).result = .ok o ∧ Normal True o ∧
      ∀ e, (∀ v : Variable, v.kind = .posInt → 0 ≤ e v) →
        Magnitude.degree e o = rootQuotient.tropical positiveNames e := by
  obtain ⟨o, ho, hnormal, -, hdegree⟩ := theta_tropical positive_rootQuotient settlesAs_rootProduct
  exact ⟨⟨positive_rootQuotient, settlesAs_rootProduct⟩, by decide +kernel, o, ho, hnormal, hdegree⟩

theorem settlesAs_atLeastOne : SettlesAs positiveNames atLeastOne (.var ⟨"n", .posInt⟩) := by
  refine ⟨⟨.var ⟨"n", .posInt⟩, by decide +kernel, rfl⟩, .var (by decide), fun ρ hρ => ?_⟩
  obtain ⟨⟨m, hm⟩, hpos⟩ := hρ ⟨"n", .posInt⟩ (by decide)
  have hn : (name "n").real positiveNames ρ = ρ ⟨"n", .posInt⟩ := real_variable rfl
  have hone : (value (.int 1)).real positiveNames ρ = (1 : ℚ) := real_number rfl
  -- a whole number that is positive is at least one
  have hle : 1 ≤ ρ ⟨"n", .posInt⟩ := by
    have hpos : 0 < ρ ⟨"n", .posInt⟩ := hpos
    rw [hm] at hpos ⊢
    exact_mod_cast hpos
  simp only [atLeastOne, real_max, List.map_cons, List.map_nil, hn, hone, Term.val_var, greatestOf,
    List.foldl_cons, List.foldl_nil, Rat.cast_one]
  exact (max_eq_left hle).symm

/-- **A negative exponent of a whole number** tells the expression from what it is evaluated to: the larger
one of the number and one is evaluated to the number. -/
theorem theta_atLeastOne : Positive positiveNames atLeastOne ∧
    SettlesAs positiveNames atLeastOne (.var ⟨"n", .posInt⟩) ∧
    ((form .theta [atLeastOne]).evaluate positiveNames).result =
      .ok (.app .theta [.var ⟨"n", .posInt⟩]) ∧
    Magnitude.degree (fun _ => -1) (.app .theta [.var ⟨"n", .posInt⟩]) = -1 ∧
    atLeastOne.tropical positiveNames (fun _ => -1) = 0 := by
  have hn : Positive positiveNames (name "n") := .named rfl (by decide)
  have hone : Positive positiveNames (value (.int 1)) := .number rfl (by norm_num)
  refine ⟨.max (by simp) ?_, settlesAs_atLeastOne, by decide +kernel, by rw [Magnitude.degree],
    by decide +kernel⟩
  exact List.forall_mem_cons.2 ⟨hn, List.forall_mem_singleton.2 hone⟩

end Expression
end Majorant
