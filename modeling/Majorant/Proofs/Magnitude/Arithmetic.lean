import Majorant.Expression
import Majorant.Proofs.Magnitude.NormalForm
import Majorant.Proofs.Number.Nearest

/-!
# Arithmetic of orders of magnitude

Given exponents of the variables, an expression written with orders, magnitudes and positive whole
numbers has an exponent.
-/

namespace Majorant
open Term Magnitude

/-- A positive whole number, or an order in normal form, and the order that it counts as. -/
inductive Magnitude.Operand (X : Prop) : Term → Term → Prop
  | order {t : Term} (ht : Normal X t) : Operand X t t
  | constant {n : ℤ} (hn : 0 < n) : Operand X (lit (.int n)) unit

namespace Magnitude.Operand

variable {X : Prop} {a b x y : Term} {ts us : List Term} {h : Head} {q : ℚ}

theorem normal (ha : Operand X a x) : Normal X x := by
  cases ha with
  | order ht => exact ht
  | constant => exact .unit

theorem theta_eq (ha : Operand X a x) : theta a = pure x := by
  cases ha with
  | order ht => exact ht.theta_eq
  | @constant n hn =>
    have hpositive : (num (n : ℚ)).is .positive = true := num_is_positive.2 (by exact_mod_cast hn)
    have htheta : theta (lit (.int n)) =
        if (num (n : ℚ)).is .positive then pure (ofPositive (num n)) else warn (num (n : ℚ)).text := rfl
    rw [htheta, hpositive]
    rfl

theorem theta_list (hts : List.Forall₂ (Operand X) ts us) : ts.mapM theta = pure us := by
  induction hts with
  | nil => rfl
  | cons ht _ ih =>
    rw [List.mapM_cons, ht.theta_eq, ih]
    rfl

theorem normal_list (hts : List.Forall₂ (Operand X) ts us) : ∀ u ∈ us, Normal X u := by
  induction hts with
  | nil => exact nofun
  | cons ht _ ih => exact List.forall_mem_cons.2 ⟨ht.normal, ih⟩

theorem acts (ha : Operand X a x) (hb : Operand X b y) (h : a = x ∨ b = y) :
    (Operation.written? a = none ∨ Operation.written? b = none) ∧
      (a.isOrder || Operation.orderOnRight a b) = true := by
  have hwritten : ∀ {t}, Normal X t → Operation.written? t = none := by
    intro t ht
    cases ht <;> rfl
  cases ha with
  | order ht => exact ⟨.inl (hwritten ht), by rw [ht.composed.isOrder]; rfl⟩
  | constant hn =>
    cases hb with
    | order ht =>
      refine ⟨.inr (hwritten ht), ?_⟩
      rw [Operation.orderOnRight, ht.composed.isOrder]
      rfl
    | constant => rcases h with h | h <;> cases h

theorem extremal_settle (hX : X) (hh : h = .orderMax ∨ h = .orderMin) (name : String)
    (hne : us ≠ []) (hts : List.Forall₂ (Operand X) ts us) :
    ∃ v, (extremal h name ts >>= Evaluation.settle) = pure v ∧ Normal X v ∧
      ∀ e, IsExtremal (side h) (us.map (degree e)) (degree e v) := by
  have hus := normal_list hts
  have hextremal : extremal h name ts = pure (Magnitude.extremum h us) := by
    unfold extremal
    rw [theta_list hts, pure_bind]
    cases us with
    | nil => exact absurd rfl hne
    | cons => rfl
  rw [hextremal, pure_bind]
  have hmem : ∀ {u}, u ∈ us.eraseDups ↔ u ∈ us := List.mem_eraseDups
  by_cases hsingle : ∃ u, us.eraseDups = [u]
  · obtain ⟨u, hu⟩ := hsingle
    have heq : Magnitude.extremum h us = u := by rw [Magnitude.extremum, hu]
    have hnormal : Normal X u := hus u (hmem.1 (by rw [hu]; exact List.mem_singleton_self u))
    rw [heq]
    exact ⟨u, hnormal.settle_eq, hnormal, fun e => heq ▸ (extremes_degree hh e).extremum hne⟩
  · have heq : Magnitude.extremum h us = app h us.eraseDups := by
      unfold Magnitude.extremum
      split
      · next u hu => exact absurd ⟨u, hu⟩ hsingle
      · rfl
    have hdups : ∀ u ∈ us.eraseDups, Normal X u := fun u hu => hus u (hmem.1 hu)
    have hnil : us.eraseDups ≠ [] := by
      obtain ⟨u, hu⟩ := List.exists_mem_of_ne_nil us hne
      exact List.ne_nil_of_mem (hmem.2 hu)
    rw [heq]
    exact ⟨_, Normal.settle_extremum hh hnil hdups, Normal.extremum_spread hX hh hnil hdups,
      fun e => (Normal.degree_extremum_spread hh hnil hdups e).of_eraseDups⟩

theorem add_eq (hX : X) (ha : Operand X a x) (hb : Operand X b y) (h : a = x ∨ b = y) :
    ∃ u, Operation.add a b = pure u ∧ Normal X u ∧
      ∀ e, degree e u = max (degree e x) (degree e y) := by
  obtain ⟨hwritten, hacts⟩ := acts ha hb h
  obtain ⟨u, hu, hnormal, hextremal⟩ := extremal_settle hX (.inl rfl) "OrderMax" (by simp)
    (.cons ha (.cons hb .nil))
  refine ⟨u, ?_, hnormal, fun e => ?_⟩
  · rw [← hu]
    unfold Operation.add
    split
    · next hp hq => simp [hp, hq] at hwritten
    · exact if_pos hacts
  · refine (hextremal e).unique (h := .orderMax) ⟨?_, ?_⟩
    · simp [side, Rel.Compares]
    · rcases max_choice (degree e x) (degree e y) with hmax | hmax <;> simp [hmax]

theorem times_pair (hx : Normal X x) (hy : Normal X y) :
    Normal X (times [x, y]) ∧ ∀ e, degree e (times [x, y]) = degree e x + degree e y := by
  have hboth : ∀ t ∈ [x, y], Normal X t := List.forall_mem_cons.2 ⟨hx, List.forall_mem_singleton.2 hy⟩
  refine ⟨Normal.times hboth, fun e => ?_⟩
  rw [((Composed.sizing_degree _ e).times fun t ht => (hboth t ht).composed).2]
  simp

theorem multiply_settle (ha : Operand X a x) (hy : Normal X y) (hb : theta b = pure y) :
    (multiply [a, b] >>= Evaluation.settle) = pure (times [x, y]) :=
  (Composed.sizing_degree _ 0).multiply_settle_eq ha.normal.composed hy.composed ha.theta_eq hb

theorem mul_eq (ha : Operand X a x) (hb : Operand X b y) (h : a = x ∨ b = y) :
    ∃ u, Operation.mul a b = pure u ∧ Normal X u ∧ ∀ e, degree e u = degree e x + degree e y := by
  obtain ⟨hwritten, hacts⟩ := acts ha hb h
  refine ⟨times [x, y], ?_, times_pair ha.normal hb.normal⟩
  rw [← multiply_settle ha hb.normal hb.theta_eq]
  unfold Operation.mul
  split
  · next hp hq => simp [hp, hq] at hwritten
  · exact if_pos hacts

theorem settle_rawPower (hx : Normal X x) (q : ℚ) :
    Evaluation.settle (Magnitude.rawPower x (num q)) = pure (Magnitude.raise x (num q)) := by
  by_cases htrivial : num q = zero ∨ num q = one ∨ x = unit
  · have hraised := hx.raise q
    rw [Sizing.raise_eq_rawPower htrivial] at hraised ⊢
    exact hraised.settle_eq
  · rw [not_or, not_or] at htrivial
    obtain ⟨hzero, hone, hunit⟩ := htrivial
    rw [Magnitude.rawPower, if_neg hzero, if_neg hone, if_neg hunit]
    exact (Composed.sizing_degree _ 0).toPowerSpread_eq hx.composed _

theorem raise_degree (hx : Normal X x) (q : ℚ) (e : Variable → ℚ) :
    degree e (Magnitude.raise x (num q)) = q * degree e x :=
  ((Composed.sizing_degree _ e).raise hx.composed q).2

theorem pow_eq (hx : Normal X x) (hb : ofLiteral b = pure (num q)) :
    Operation.pow x b = pure (Magnitude.raise x (num q)) := by
  rw [(Composed.sizing_degree _ 0).pow_eq hx.composed hb, settle_rawPower hx]

theorem reciprocal_constant {n : ℤ} (hn : 0 < n) (hfits : Binary64.overflows n = false) :
    ∃ b, Operation.reciprocal (lit (.int n)) = pure b ∧ theta b = pure unit := by
  obtain ⟨hpos, hrecip⟩ := Binary64.nearest_reciprocal_pos hn hfits
  refine ⟨lit (.float (Binary64.nearest (1 / Binary64.nearest n))), ?_, if_pos hrecip⟩
  have hmeasure : Operation.measure n = pure (Binary64.nearest n) := by
    rw [Operation.measure, hfits]
    rfl
  have heq : Operation.reciprocal (lit (.int n)) = Operation.measure n >>= fun q =>
      if q = 0 then .fail .divisionByZero else pure (lit (.float (Binary64.nearest (1 / q)))) := rfl
  rw [heq, hmeasure, pure_bind, if_neg hpos.ne']

/-- **Quotients**, by anything but a number that is too large. -/
theorem div_eq (ha : Operand X a x) (hb : Operand X b y) (h : a = x ∨ b = y)
    (hfits : ∀ n, b = lit (.int n) → Binary64.overflows n = false) :
    ∃ u, Operation.div a b = pure u ∧ Normal X u ∧ ∀ e, degree e u = degree e x - degree e y := by
  -- the quotient is a product with the reciprocal
  suffices hproduct : ∃ c z, Operation.div a b = (multiply [a, c] >>= Evaluation.settle) ∧
      theta c = pure z ∧ Normal X z ∧ ∀ e, degree e z = - degree e y by
    obtain ⟨c, z, hdiv, htheta, hz, hdegree⟩ := hproduct
    obtain ⟨hnormal, htimes⟩ := times_pair ha.normal hz
    refine ⟨times [x, z], by rw [hdiv, multiply_settle ha hz htheta], hnormal, fun e => ?_⟩
    rw [htimes, hdegree, ← sub_eq_add_neg]
  have hraised : ∀ {t}, Normal X t → Normal X (Magnitude.raise t (num (-1))) ∧
      ∀ e, degree e (Magnitude.raise t (num (-1))) = - degree e t := by
    intro t ht
    exact ⟨ht.raise (-1), fun e => by rw [raise_degree ht, neg_one_mul]⟩
  obtain ⟨-, hacts⟩ := acts ha hb h
  unfold Operation.div
  cases hb with
  | order hb =>
    refine ⟨_, _, ?_, (hraised hb).1.theta_eq, hraised hb⟩
    by_cases horder : a.isOrder = true
    · rw [if_pos horder, (Composed.sizing_degree _ 0).reciprocal_eq hb.composed, pure_bind]
    · have hright : Operation.orderOnRight a b = true := by simpa [horder] using hacts
      rw [if_neg horder, if_pos hright, pow_eq hb rfl, pure_bind]
  | @constant n hn =>
    obtain ⟨c, hc, htheta⟩ := reciprocal_constant hn (hfits n rfl)
    have horder : a.isOrder = true := by
      cases ha with
      | order ht => exact ht.composed.isOrder
      | constant => rcases h with h | h <;> cases h
    refine ⟨c, Magnitude.unit, ?_, htheta, .unit, fun e => by rw [degree_unit, neg_zero]⟩
    rw [if_pos horder, hc, pure_bind]

theorem div_eq_fail {n : ℤ} (hx : Normal X x) (hoverflows : Binary64.overflows n = true) :
    Operation.div x (lit (.int n)) = .fail .overflow := by
  unfold Operation.div
  rw [if_pos hx.composed.isOrder]
  have heq : Operation.reciprocal (lit (.int n)) = Operation.measure n >>= fun q =>
      if q = 0 then .fail .divisionByZero else pure (lit (.float (Binary64.nearest (1 / q)))) := rfl
  rw [heq, Operation.measure, hoverflows]
  rfl

end Magnitude.Operand

namespace Term

def rational? : Term → Option ℚ
  | num q => some q
  | lit (.int n) => some n
  | lit (.ratio q) => some q
  | _ => none

theorem ofLiteral_of_rational? {t : Term} {q : ℚ} (h : t.rational? = some q) :
    ofLiteral t = pure (num q) := by
  unfold rational? at h
  split at h <;> cases h <;> rfl

end Term

namespace Expression

variable {meaning : String → Outcome Term} {E : Expression} {a b x : Expression}

def asVariable? (meaning : String → Outcome Term) : Expression → Option Variable
  | name s =>
    match (meaning s).result with
    | .ok (.var v) => some v
    | _ => none
  | typed kind s => (Kind.ofName? kind).map fun k => ⟨s, k⟩
  | _ => none

def rational? (meaning : String → Outcome Term) (E : Expression) : Option ℚ :=
  match (E.evaluate meaning).result with
  | .ok t => t.rational?
  | .error _ => none

def isConstant : Expression → Bool
  | value _ => true
  | _ => false

/-- **Expressions of magnitudes**: orders, magnitudes of positive variables and positive whole numbers,
combined by operations.  Each arithmetic operation has an operand that is no number. -/
inductive Scales (meaning : String → Outcome Term) : Expression → Prop
  | constant {n : ℤ} (hn : 0 < n) : Scales meaning (value (.int n))
  | order {E : Expression} {v : Variable} (hE : E.asVariable? meaning = some v) (hv : v.kind = .order) :
      Scales meaning E
  | theta {E : Expression} {v : Variable} (hE : E.asVariable? meaning = some v)
      (hv : (var v).is .positive = true) : Scales meaning (form .theta [E])
  | add {a b : Expression} (ha : Scales meaning a) (hb : Scales meaning b)
      (h : a.isConstant = false ∨ b.isConstant = false) : Scales meaning (form .add [a, b])
  | mul {a b : Expression} (ha : Scales meaning a) (hb : Scales meaning b)
      (h : a.isConstant = false ∨ b.isConstant = false) : Scales meaning (form .mul [a, b])
  | div {a b : Expression} (ha : Scales meaning a) (hb : Scales meaning b)
      (h : a.isConstant = false ∨ b.isConstant = false) : Scales meaning (form .div [a, b])
  | pow {a x : Expression} {q : ℚ} (ha : Scales meaning a) (h : a.isConstant = false)
      (hx : x.rational? meaning = some q) : Scales meaning (form .pow [a, x])
  | least {as : List Expression} (hne : as ≠ []) (has : ∀ a ∈ as, Scales meaning a) :
      Scales meaning (form .settle [form .orderMin as])

mutual

/-- **The exponent of an expression**, for given exponents of the variables. -/
def exponent (meaning : String → Outcome Term) (e : Variable → ℚ) : Expression → ℚ
  | form .add [a, b] => max (exponent meaning e a) (exponent meaning e b)
  | form .mul [a, b] => exponent meaning e a + exponent meaning e b
  | form .div [a, b] => exponent meaning e a - exponent meaning e b
  | form .pow [a, x] => (x.rational? meaning).getD 0 * exponent meaning e a
  | form .theta [a] => exponent meaning e a
  | form .settle [form .orderMin as] => (exponents meaning e as).min?.getD 0
  | E => ((E.asVariable? meaning).map e).getD 0

def exponents (meaning : String → Outcome Term) (e : Variable → ℚ) : List Expression → List ℚ
  | [] => []
  | a :: as => exponent meaning e a :: exponents meaning e as

end

mutual

/-- Every whole number that an order is divided by can be measured. -/
def divisorsFit : Expression → Bool
  | form .div [a, value (.int n)] => divisorsFit a && !Binary64.overflows n
  | form .pow [a, _] => divisorsFit a
  | form _ as => allDivisorsFit as
  | _ => true

def allDivisorsFit : List Expression → Bool
  | [] => true
  | a :: as => divisorsFit a && allDivisorsFit as

end

mutual

def hasExtrema : Expression → Bool
  | form .add _ | form .settle _ => true
  | form .pow [a, _] => hasExtrema a
  | form _ as => anyHasExtrema as
  | _ => false

def anyHasExtrema : List Expression → Bool
  | [] => false
  | a :: as => hasExtrema a || anyHasExtrema as

end

theorem evaluate_asVariable? {v : Variable} (h : E.asVariable? meaning = some v) :
    (E.evaluate meaning).result = .ok (.var v) := by
  unfold asVariable? at h
  split at h
  · next s =>
    rw [evaluate]
    split at h
    · next w hw =>
      rw [hw]
      exact congrArg (fun v => Except.ok (Term.var v)) (Option.some.inj h)
    · cases h
  · next kind s =>
    obtain ⟨k, hk, rfl⟩ := Option.map_eq_some_iff.1 h
    rw [evaluate, Variable.named, hk]
    rfl
  · cases h

/-- **What an expression evaluates to**: an order in normal form, or a positive whole number, of the right
degree. -/
structure Scaled (meaning : String → Outcome Term) (X : Prop) (E : Expression) (t u : Term) : Prop where
  result : (E.evaluate meaning).result = .ok t
  operand : Operand X t u
  order : E.isConstant = false → t = u
  degree : ∀ e, degree e u = E.exponent meaning e

/-- An expression evaluates as it should, or a divisor is too large. -/
def Evaluates (meaning : String → Outcome Term) (X : Prop) (E : Expression) : Prop :=
  (E.divisorsFit = true ∧ ∃ t u, Scaled meaning X E t u) ∨
    (E.divisorsFit = false ∧ (E.evaluate meaning).result = .error .overflow)

theorem scaled_order {X : Prop} {t : Term} (hresult : (E.evaluate meaning).result = .ok t)
    (ht : Normal X t) (hdegree : ∀ e, Magnitude.degree e t = E.exponent meaning e) :
    ∃ t u, Scaled meaning X E t u :=
  ⟨t, t, hresult, .order ht, fun _ => rfl, hdegree⟩

theorem evaluate_pair {f : Former} {s t : Term} (ha : (a.evaluate meaning).result = .ok s)
    (hb : (b.evaluate meaning).result = .ok t) :
    ((form f [a, b]).evaluate meaning).result = (f.make [s, t]).result := by
  have hlist : (evaluateList meaning [a, b]).result = .ok [s, t] := by
    rw [evaluateList, Outcome.result_bind_of_ok ha, evaluateList, evaluateList]
    refine Outcome.result_bind_eq_ok.2 ⟨[t], ?_, rfl⟩
    exact Outcome.result_bind_eq_ok.2 ⟨t, hb, rfl⟩
  rw [evaluate, Outcome.result_bind_of_ok hlist]

theorem evaluate_first_error {f : Former} {as : List Expression} {c : Failure}
    (h : (a.evaluate meaning).result = .error c) :
    ((form f (a :: as)).evaluate meaning).result = .error c := by
  rw [evaluate, evaluateList]
  exact Outcome.result_bind_of_error (Outcome.result_bind_of_error h _) _

/-- A binary operation: if both operands evaluate as they should and the operation does what it should
with them, so does the expression. -/
theorem evaluates_pair {X : Prop} {f : Former} (ha : Evaluates meaning X a) (hb : Evaluates meaning X b)
    (h : a.isConstant = false ∨ b.isConstant = false)
    (hfits : (form f [a, b]).divisorsFit = (a.divisorsFit && b.divisorsFit))
    (hmake : ∀ {s t y z}, Scaled meaning X a s y → Scaled meaning X b t z → (s = y ∨ t = z) →
      ∃ u, f.make [s, t] = pure u ∧ Normal X u ∧
        ∀ e, Magnitude.degree e u = (form f [a, b]).exponent meaning e) :
    Evaluates meaning X (form f [a, b]) := by
  rcases ha with ⟨hfitsA, s, y, hs⟩ | ⟨hfitsA, herror⟩
  · rcases hb with ⟨hfitsB, t, z, ht⟩ | ⟨hfitsB, herror⟩
    · obtain ⟨u, hu, hnormal, hdegree⟩ := hmake hs ht (h.imp hs.order ht.order)
      refine .inl ⟨by rw [hfits, hfitsA, hfitsB]; rfl, scaled_order ?_ hnormal hdegree⟩
      rw [evaluate_pair hs.result ht.result, hu, Outcome.result_pure]
    · refine .inr ⟨by rw [hfits, hfitsB, Bool.and_false], ?_⟩
      rw [evaluate, evaluateList, evaluateList]
      refine Outcome.result_bind_of_error ?_ _
      rw [Outcome.result_bind_of_ok hs.result]
      exact Outcome.result_bind_of_error (Outcome.result_bind_of_error herror _) _
  · exact .inr ⟨by rw [hfits, hfitsA, Bool.false_and], evaluate_first_error herror⟩

theorem leftFold_pair (f : Term → Term → Outcome Term) (s t : Term) :
    Former.leftFold f [s, t] = f s t := by
  simp [Former.leftFold]

theorem Scales.exists_int (h : Scales meaning E) (hconst : E.isConstant = true) :
    ∃ n : ℤ, 0 < n ∧ E = value (.int n) := by
  cases h with
  | constant hn => exact ⟨_, hn, rfl⟩
  | order hE =>
    cases E with
    | value => cases hE
    | _ => cases hconst
  | _ => cases hconst

theorem exponent_asVariable? {v : Variable} (hE : E.asVariable? meaning = some v)
    (e : Variable → ℚ) : E.exponent meaning e = e v := by
  cases E with
  | name s => simp only [exponent, hE, Option.map_some, Option.getD_some]
  | typed k s => simp only [exponent, hE, Option.map_some, Option.getD_some]
  | _ => cases hE

theorem divisorsFit_asVariable? {v : Variable} (hE : E.asVariable? meaning = some v) :
    E.divisorsFit = true := by
  cases E with
  | name => rfl
  | typed => rfl
  | _ => cases hE

theorem evaluates_order {X : Prop} {v : Variable} (hE : E.asVariable? meaning = some v)
    (hv : v.kind = .order) : Evaluates meaning X E :=
  .inl ⟨divisorsFit_asVariable? hE, scaled_order (evaluate_asVariable? hE) (.order hv) fun e =>
    (exponent_asVariable? hE e).symm⟩

theorem evaluates_theta {X : Prop} {v : Variable} (hE : E.asVariable? meaning = some v)
    (hv : (var v).is .positive = true) : Evaluates meaning X (form .theta [E]) := by
  have hfits : (form .theta [E]).divisorsFit = true := by
    simp [divisorsFit, allDivisorsFit, divisorsFit_asVariable? hE]
  have hresult : ((form .theta [E]).evaluate meaning).result = .ok (app .theta [var v]) := by
    rw [evaluate, evaluateList, evaluateList]
    refine Outcome.result_bind_eq_ok.2 ⟨[var v], ?_, ?_⟩
    · exact Outcome.result_bind_eq_ok.2 ⟨_, evaluate_asVariable? hE, rfl⟩
    · exact congrArg Outcome.result (Normal.theta_of_positive hv)
  exact .inl ⟨hfits, scaled_order hresult (.theta hv) fun e =>
    (exponent_asVariable? hE e).symm⟩

theorem evaluates_div {X : Prop} (ha : Evaluates meaning X a) (hb : Evaluates meaning X b)
    (hscales : Scales meaning b) (h : a.isConstant = false ∨ b.isConstant = false) :
    Evaluates meaning X (form .div [a, b]) := by
  by_cases hconst : b.isConstant = true
  · obtain ⟨n, hn, rfl⟩ := hscales.exists_int hconst
    have horder : a.isConstant = false := h.resolve_right (by simp [isConstant])
    have hfits : (form .div [a, value (.int n)]).divisorsFit =
        (a.divisorsFit && !Binary64.overflows n) := rfl
    have hvalue : ((value (.int n)).evaluate meaning).result = .ok (lit (.int n)) := rfl
    rcases ha with ⟨hfitsA, s, y, hs⟩ | ⟨hfitsA, herror⟩
    · obtain rfl := hs.order horder
      have hy := hs.operand.normal
      have hmake : Former.make .div [s, lit (.int n)] = Operation.div s (lit (.int n)) :=
        leftFold_pair _ _ _
      cases hover : Binary64.overflows n with
      | true =>
        refine .inr ⟨by rw [hfits, hover, Bool.not_true, Bool.and_false], ?_⟩
        rw [evaluate_pair hs.result hvalue, hmake, Operand.div_eq_fail hy hover]
        rfl
      | false =>
        obtain ⟨u, hu, hnormal, hdegree⟩ := Operand.div_eq hs.operand (.constant hn) (.inl rfl)
          (by rintro m ⟨⟩; exact hover)
        refine .inl ⟨by rw [hfits, hfitsA, hover]; rfl, scaled_order ?_ hnormal fun e => ?_⟩
        · rw [evaluate_pair hs.result hvalue, hmake, hu, Outcome.result_pure]
        · rw [hdegree, hs.degree, degree_unit]
          rfl
    · exact .inr ⟨by rw [hfits, hfitsA, Bool.false_and], evaluate_first_error herror⟩
  · have hconst : b.isConstant = false := Bool.eq_false_iff.2 hconst
    have hfits : (form .div [a, b]).divisorsFit = (a.divisorsFit && b.divisorsFit) := by
      cases b with
      | value => cases hconst
      | _ => simp [divisorsFit, allDivisorsFit]
    refine evaluates_pair ha hb h hfits fun {s t y z} hs ht hside => ?_
    have hmake : Former.make .div [s, t] = Operation.div s t := leftFold_pair _ _ _
    have hnot : ∀ n, t ≠ lit (.int n) := by
      rintro n rfl
      have horder := ht.operand.normal.composed.isOrder
      rw [← ht.order hconst] at horder
      cases horder
    obtain ⟨u, hu, hnormal, hdegree⟩ := Operand.div_eq hs.operand ht.operand hside
      fun n heq => absurd heq (hnot n)
    exact ⟨u, hmake.trans hu, hnormal, fun e => by rw [hdegree, hs.degree, ht.degree]; rfl⟩

theorem evaluates_pow {X : Prop} {q : ℚ} (ha : Evaluates meaning X a) (h : a.isConstant = false)
    (hx : x.rational? meaning = some q) : Evaluates meaning X (form .pow [a, x]) := by
  have hfits : (form .pow [a, x]).divisorsFit = a.divisorsFit := rfl
  obtain ⟨r, hr, hrational⟩ : ∃ r, (x.evaluate meaning).result = .ok r ∧ r.rational? = some q := by
    unfold rational? at hx
    split at hx
    · next r hr => exact ⟨r, hr, hx⟩
    · cases hx
  rcases ha with ⟨hfitsA, s, y, hs⟩ | ⟨hfitsA, herror⟩
  · obtain rfl := hs.order h
    have hy := hs.operand.normal
    refine .inl ⟨hfits.trans hfitsA, scaled_order ?_ (hy.raise q) fun e => ?_⟩
    · have hmake : Former.make .pow [s, r] = Operation.pow s r := rfl
      rw [evaluate_pair hs.result hr, hmake, Operand.pow_eq hy (ofLiteral_of_rational? hrational),
        Outcome.result_pure]
    · rw [Operand.raise_degree hy, hs.degree, exponent, hx, Option.getD_some]
  · exact .inr ⟨hfits.trans hfitsA, evaluate_first_error herror⟩

theorem evaluateList_spec {X : Prop} {as : List Expression} (has : ∀ a ∈ as, Evaluates meaning X a) :
    (allDivisorsFit as = true ∧ ∃ ts us, (evaluateList meaning as).result = .ok ts ∧
      List.Forall₂ (Operand X) ts us ∧ ∀ e, us.map (Magnitude.degree e) = exponents meaning e as) ∨
    (allDivisorsFit as = false ∧ (evaluateList meaning as).result = .error .overflow) := by
  induction as with
  | nil => exact .inl ⟨rfl, [], [], rfl, .nil, fun _ => rfl⟩
  | cons a as ih =>
    obtain ⟨ha, hrest⟩ := List.forall_mem_cons.1 has
    rw [allDivisorsFit, evaluateList]
    rcases ha with ⟨hfits, t, u, ht⟩ | ⟨hfits, herror⟩
    · rw [hfits, Bool.true_and, Outcome.result_bind_of_ok ht.result]
      rcases ih hrest with ⟨hfits, ts, us, hts, hoperands, hdegrees⟩ | ⟨hfits, herror⟩
      · refine .inl ⟨hfits, t :: ts, u :: us, ?_, .cons ht.operand hoperands, fun e => ?_⟩
        · exact Outcome.result_bind_eq_ok.2 ⟨ts, hts, rfl⟩
        · rw [List.map_cons, ht.degree, hdegrees, exponents]
      · exact .inr ⟨hfits, Outcome.result_bind_of_error herror _⟩
    · exact .inr ⟨by rw [hfits, Bool.false_and], Outcome.result_bind_of_error herror _⟩

theorem evaluates_least {X : Prop} {as : List Expression} (hX : X) (hne : as ≠ [])
    (has : ∀ a ∈ as, Evaluates meaning X a) :
    Evaluates meaning X (form .settle [form .orderMin as]) := by
  have hfits : (form .settle [form .orderMin as]).divisorsFit = allDivisorsFit as := by
    simp [divisorsFit, allDivisorsFit]
  have hresult : ((form .settle [form .orderMin as]).evaluate meaning).result =
      (evaluateList meaning as >>= fun ts => smallest ts >>= Evaluation.settle).result := by
    rw [evaluate, evaluateList, evaluateList, evaluate, bind_assoc, bind_assoc]
    rfl
  rcases evaluateList_spec has with ⟨hall, ts, us, hts, hoperands, hdegrees⟩ | ⟨hall, herror⟩
  · have hus : us ≠ [] := by
      rintro rfl
      have hnil := hdegrees 0
      cases as with
      | nil => exact hne rfl
      | cons => cases hnil
    obtain ⟨v, hv, hnormal, hextremal⟩ :=
      Operand.extremal_settle hX (.inr rfl) "OrderMin" hus hoperands
    refine .inl ⟨hfits.trans hall, scaled_order ?_ hnormal fun e => ?_⟩
    · rw [hresult, Outcome.result_bind_of_ok hts]
      exact congrArg Outcome.result hv
    · rw [exponent, ← hdegrees]
      exact (hextremal e).unique (h := .orderMin) (isExtremal_min? (by simpa using hus) 0)
  · refine .inr ⟨hfits.trans hall, ?_⟩
    rw [hresult]
    exact Outcome.result_bind_of_error herror _

/-- **Evaluating an expression of magnitudes** finds an order in normal form of the right degree, unless a
divisor is too large. -/
theorem evaluate_spec {X : Prop} (hE : Scales meaning E) (hX : E.hasExtrema = true → X) :
    Evaluates meaning X E := by
  induction hE generalizing X with
  | @constant n hn =>
    refine .inl ⟨rfl, lit (.int n), Magnitude.unit, rfl, .constant hn, nofun, fun e => ?_⟩
    rw [degree_unit]
    rfl
  | order hE hv => exact evaluates_order hE hv
  | theta hE hv => exact evaluates_theta hE hv
  | add _ _ h iha ihb =>
    have hX : X := hX (by simp [hasExtrema])
    refine evaluates_pair (iha fun _ => hX) (ihb fun _ => hX) h (by simp [divisorsFit, allDivisorsFit])
      fun hs ht hside => ?_
    obtain ⟨u, hu, hnormal, hdegree⟩ := Operand.add_eq hX hs.operand ht.operand hside
    exact ⟨u, (leftFold_pair _ _ _).trans hu, hnormal,
      fun e => by rw [hdegree, hs.degree, ht.degree]; rfl⟩
  | mul _ _ h iha ihb =>
    refine evaluates_pair (iha fun ha => hX (by simp [hasExtrema, anyHasExtrema, ha]))
      (ihb fun hb => hX (by simp [hasExtrema, anyHasExtrema, hb])) h
      (by simp [divisorsFit, allDivisorsFit]) fun hs ht hside => ?_
    obtain ⟨u, hu, hnormal, hdegree⟩ := Operand.mul_eq hs.operand ht.operand hside
    exact ⟨u, (leftFold_pair _ _ _).trans hu, hnormal,
      fun e => by rw [hdegree, hs.degree, ht.degree]; rfl⟩
  | div _ hb h iha ihb =>
    exact evaluates_div (iha fun ha => hX (by simp [hasExtrema, anyHasExtrema, ha]))
      (ihb fun hb => hX (by simp [hasExtrema, anyHasExtrema, hb])) hb h
  | pow _ h hx iha => exact evaluates_pow (iha fun ha => hX (by simp [hasExtrema, ha])) h hx
  | least hne _ ih =>
    have hX : X := hX (by simp [hasExtrema])
    exact evaluates_least hX hne fun a ha => ih a ha fun _ => hX

theorem evaluate_order {X : Prop} (hE : Scales meaning E) (hX : E.hasExtrema = true → X)
    (horder : E.isConstant = false) (hfits : E.divisorsFit = true) :
    ∃ t, (E.evaluate meaning).result = .ok t ∧ Normal X t ∧
      ∀ e, Magnitude.degree e t = E.exponent meaning e := by
  rcases evaluate_spec hE hX with ⟨-, t, u, ht⟩ | ⟨hover, -⟩
  · obtain rfl := ht.order horder
    exact ⟨t, ht.result, ht.operand.normal, ht.degree⟩
  · cases hfits.symm.trans hover

/-- **Arithmetic of orders of magnitude.**  An expression all of whose divisors can be measured evaluates
to an order in normal form, which evaluates to itself and whose degree is the exponent of the expression.
With a divisor that is too large, evaluation fails.  Without sums and minima, the orders that two
expressions evaluate to have the same factors exactly if the expressions have the same exponents. -/
theorem magnitude_arithmetic {meaning : String → Outcome Term} {E : Expression}
    (hE : Scales meaning E) (horder : E.isConstant = false) :
    (E.divisorsFit = true → ∃ t, (E.evaluate meaning).result = .ok t ∧ Normal True t ∧
      Evaluation.settle t = pure t ∧ ∀ e, Magnitude.degree e t = E.exponent meaning e) ∧
    (E.divisorsFit = false → (E.evaluate meaning).result = .error .overflow) ∧
    ∀ E', Scales meaning E' → E'.isConstant = false → E.hasExtrema = false → E'.hasExtrema = false →
      ∀ t t', (E.evaluate meaning).result = .ok t → (E'.evaluate meaning).result = .ok t' →
        ((∀ e, E.exponent meaning e = E'.exponent meaning e) ↔
          (Magnitude.factors t).Perm (Magnitude.factors t')) := by
  -- without extrema an expression that evaluates has a normal form without extrema
  have hproduct : ∀ {E t}, Scales meaning E → E.isConstant = false → E.hasExtrema = false →
      (E.evaluate meaning).result = .ok t →
        Normal False t ∧ ∀ e, Magnitude.degree e t = E.exponent meaning e := by
    intro E t hE horder hextrema ht
    rcases evaluate_spec (X := False) hE (by simp [hextrema]) with ⟨hfits, -⟩ | ⟨-, herror⟩
    · obtain ⟨u, hu, hnormal, hdegree⟩ := evaluate_order hE (by simp [hextrema]) horder hfits
      cases hu.symm.trans ht
      exact ⟨hnormal, hdegree⟩
    · cases herror.symm.trans ht
  refine ⟨fun hfits => ?_, fun hover => ?_, fun E' hE' horder' hextrema hextrema' t t' ht ht' => ?_⟩
  · obtain ⟨t, ht, hnormal, hdegree⟩ := evaluate_order hE (fun _ => True.intro) horder hfits
    exact ⟨t, ht, hnormal, hnormal.settle_eq, hdegree⟩
  · rcases evaluate_spec (X := True) hE (fun _ => True.intro) with ⟨hfits, -⟩ | ⟨-, herror⟩
    · cases hfits.symm.trans hover
    · exact herror
  · obtain ⟨hnormal, hdegree⟩ := hproduct hE horder hextrema ht
    obtain ⟨hnormal', hdegree'⟩ := hproduct hE' horder' hextrema' ht'
    rw [← hnormal.degree_eq_iff_perm hnormal']
    exact forall_congr' fun e => by rw [hdegree, hdegree']

def scaleNames : String → Outcome Term :=
  declaredIn [⟨"A", .order⟩, ⟨"B", .order⟩, ⟨"x", .posReal⟩]

def halfRoot : Expression :=
  form .div [form .pow [form .mul [name "A", name "B"], value (.ratio (1 / 2))], 2]

def twoRoots : Expression :=
  form .mul [form .pow [name "B", value (.ratio (1 / 2))], form .pow [name "A", value (.ratio (1 / 2))]]

def rootSum : Expression :=
  halfRoot + form .settle [form .orderMin [name "A", form .theta [name "x"]]]

def hugeQuotient : Expression := form .div [name "A", value (.int (10 ^ 400))]

theorem scales_halfRoot : Scales scaleNames halfRoot :=
  .div (.pow (.mul (.order rfl rfl) (.order rfl rfl) (.inl rfl)) rfl rfl) (.constant (by decide))
    (.inl rfl)

theorem scales_twoRoots : Scales scaleNames twoRoots :=
  .mul (.pow (.order rfl rfl) rfl rfl) (.pow (.order rfl rfl) rfl rfl) (.inl rfl)

theorem scales_rootSum : Scales scaleNames rootSum := by
  refine .add scales_halfRoot (.least (by simp) ?_) (.inl rfl)
  refine List.forall_mem_cons.2 ⟨.order rfl rfl, List.forall_mem_singleton.2 (.theta rfl ?_)⟩
  decide

theorem scales_hugeQuotient : Scales scaleNames hugeQuotient :=
  .div (.order rfl rfl) (.constant (by positivity)) (.inl rfl)

theorem roots_and_minima :
    (∃ t, (rootSum.evaluate scaleNames).result = .ok t ∧ Normal True t ∧
      ∀ e, Magnitude.degree e t = rootSum.exponent scaleNames e) ∧
    (rootSum.evaluate scaleNames).result = .ok (app .orderMax
      [app .orderMul [app .orderPow [var ⟨"A", .order⟩, num (1 / 2)],
        app .orderPow [var ⟨"B", .order⟩, num (1 / 2)]],
      app .orderMin [var ⟨"A", .order⟩, app .theta [var ⟨"x", .posReal⟩]]]) ∧
    (∀ e, halfRoot.exponent scaleNames e = twoRoots.exponent scaleNames e) ∧
    (hugeQuotient.evaluate scaleNames).result = .error .overflow := by
  obtain ⟨hsum, -, -⟩ := magnitude_arithmetic scales_rootSum rfl
  obtain ⟨-, -, hroots⟩ := magnitude_arithmetic scales_halfRoot rfl
  obtain ⟨-, hhuge, -⟩ := magnitude_arithmetic scales_hugeQuotient rfl
  refine ⟨?_, by decide +kernel, ?_, ?_⟩
  · obtain ⟨t, ht, hnormal, -, hdegree⟩ := hsum (by decide +kernel)
    exact ⟨t, ht, hnormal, hdegree⟩
  · exact (hroots twoRoots scales_twoRoots rfl rfl rfl
      (app .orderMul [app .orderPow [var ⟨"A", .order⟩, num (1 / 2)],
        app .orderPow [var ⟨"B", .order⟩, num (1 / 2)]])
      (app .orderMul [app .orderPow [var ⟨"B", .order⟩, num (1 / 2)],
        app .orderPow [var ⟨"A", .order⟩, num (1 / 2)]])
      (by decide +kernel) (by decide +kernel)).2 (by decide +kernel)
  · exact hhuge (by decide +kernel)

end Expression
end Majorant
