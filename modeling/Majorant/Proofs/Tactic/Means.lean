import Majorant.Proofs.Tactic.Definition
import Mathlib.Analysis.MeanInequalities

/-!
# The inequality between the means

The geometric mean of nonnegative quantities is at most their arithmetic mean.
-/

namespace Majorant
open Term Proof

/-- **The geometric mean is at most the arithmetic mean**, for a list of numbers. -/
theorem geometric_le_arithmetic {xs : List ℝ} (hne : xs ≠ []) (hxs : ∀ x ∈ xs, 0 ≤ x) :
    xs.prod ^ (1 / (xs.length : ℝ)) ≤ xs.sum / xs.length := by
  have hlength : (0 : ℝ) < xs.length := by exact_mod_cast List.length_pos_iff.2 hne
  have hmeans := Real.geom_mean_le_arith_mean Finset.univ (fun _ : Fin xs.length => 1)
    (fun i => xs.get i) (fun _ _ => zero_le_one) (by simpa using hlength)
    fun i _ => hxs _ (xs.get_mem i)
  simpa [Fin.prod_univ_getElem, Fin.sum_univ_getElem] using hmeans

namespace Lemma

def geometricMean (ts : List Term) : Outcome Term := do
  let product ← ts.foldlM Operation.mul (lit (.int 1))
  Operation.pow product (lit (.ratio (1 / (ts.length : Rat))))

def arithmeticMean (ts : List Term) : Outcome Term := do
  let sum ← ts.foldlM Operation.add (lit (.int 0))
  Operation.div sum (lit (.int ts.length))

theorem meansStatement_eq_ok {ts : List Term} {u : Term} :
    (meansStatement ts).result = .ok u ↔
      ∃ g a, (geometricMean ts).result = .ok g ∧ (arithmeticMean ts).result = .ok a ∧
        (Operation.compare .le g a).result = .ok u := by
  simp only [meansStatement, geometricMean, arithmeticMean, Outcome.result_bind_eq_ok]
  constructor
  · rintro ⟨p, hp, q, hq, g, hg, a, ha, hu⟩
    exact ⟨g, a, ⟨p, hp, hg⟩, ⟨q, hq, ha⟩, hu⟩
  · rintro ⟨g, a, ⟨p, hp, hg⟩, ⟨q, hq, ha⟩, hu⟩
    exact ⟨p, hp, q, hq, g, hg, a, ha, hu⟩

theorem ofMeans_eq_ok {ts : List Term} {l : Lemma} (h : (ofMeans ts).result = .ok l) :
    l = .means ts ∧ ts ≠ [] ∧ ∀ t ∈ ts, t.is .nonnegative = true := by
  obtain ⟨_, hne, h⟩ := Outcome.result_bind_eq_ok.1 h
  obtain ⟨_, hall, h⟩ := Outcome.result_bind_eq_ok.1 h
  cases h
  refine ⟨rfl, ?_, fun t ht => ?_⟩
  · rintro rfl
    cases hne
  · have hchecked := Outcome.result_of_forM_ok hall t ht
    split at hchecked
    · cases hchecked
    · exact Outcome.yields_require _ _ _ hchecked

theorem statement_means_eq_ok {ts : List Term} {s : State} {u : Term}
    (h : ((means ts).statement s).result = .ok u) : (meansStatement ts).result = .ok u := by
  obtain ⟨_, -, h⟩ := Outcome.result_bind_eq_ok.1 h
  exact h

end Lemma

namespace Reading

variable {X : Type*} (R : Reading X) (real : ℝ → X) (ν : Variable → X)

/-- **An operation is calculated rightly** at two terms: if they stand for numbers, the result stands for
the number it should be. -/
def Right (op : Term → Term → Outcome Term) (f : ℝ → ℝ → ℝ) (a b : Term) : Prop :=
  ∀ c x y, (op a b).result = .ok c → R.value ν a = real x → R.value ν b = real y →
    R.value ν c = real (f x y)

/-- An operation is calculated rightly at each turn of a loop over some terms. -/
def RightAlong (op : Term → Term → Outcome Term) (f : ℝ → ℝ → ℝ) : Term → List Term → Prop
  | _, [] => True
  | a, t :: ts => R.Right real ν op f a t ∧ ∀ b, (op a t).result = .ok b → RightAlong op f b ts

/-- **The means of some terms are calculated rightly**, and compared as they compare. -/
structure CalculatesMeans (ts : List Term) : Prop where
  integer : ∀ n : ℤ, R.value ν (lit (.int n)) = real n
  fraction : ∀ q : ℚ, R.value ν (lit (.ratio q)) = real q
  nonnegative : ∀ t ∈ ts, t.is .nonnegative = true → ∃ x, 0 ≤ x ∧ R.value ν t = real x
  product : R.RightAlong real ν Operation.mul (· * ·) (lit (.int 1)) ts
  sum : R.RightAlong real ν Operation.add (· + ·) (lit (.int 0)) ts
  root : ∀ p, (ts.foldlM Operation.mul (lit (.int 1))).result = .ok p →
    R.Right real ν Operation.pow (· ^ ·) p (lit (.ratio (1 / (ts.length : Rat))))
  quotient : ∀ p, (ts.foldlM Operation.add (lit (.int 0))).result = .ok p →
    R.Right real ν Operation.div (· / ·) p (lit (.int ts.length))
  comparison : ∀ g a u x y, (Lemma.geometricMean ts).result = .ok g →
    (Lemma.arithmeticMean ts).result = .ok a → (Operation.compare .le g a).result = .ok u →
    R.value ν g = real x → R.value ν a = real y → (R.Holds ν u ↔ x ≤ y)

variable {R real ν} {op : Term → Term → Outcome Term} {f : ℝ → ℝ → ℝ} {a c : Term} {x : ℝ}
  {ts : List Term} {xs : List ℝ}

theorem RightAlong.value (h : R.RightAlong real ν op f a ts) (hx : R.value ν a = real x)
    (hxs : List.Forall₂ (fun t y => R.value ν t = real y) ts xs)
    (hc : (ts.foldlM op a).result = .ok c) : R.value ν c = real (xs.foldl f x) := by
  induction hxs generalizing a x with
  | nil =>
    cases hc
    exact hx
  | @cons t y ts xs hy _ ih =>
    obtain ⟨b, hb, hc⟩ := Outcome.result_bind_eq_ok.1 hc
    exact ih (h.2 b hb) (h.1 b x y hb hx hy) hc

namespace CalculatesMeans

theorem exists_numbers (h : R.CalculatesMeans real ν ts) (hts : ∀ t ∈ ts, t.is .nonnegative = true) :
    ∃ xs : List ℝ, List.Forall₂ (fun t x => R.value ν t = real x) ts xs ∧ ∀ x ∈ xs, 0 ≤ x := by
  have hvalues := fun t ht => h.nonnegative t ht (hts t ht)
  clear h hts
  induction ts with
  | nil => exact ⟨[], .nil, List.forall_mem_nil _⟩
  | cons t ts ih =>
    obtain ⟨⟨x, hx, ht⟩, hrest⟩ := List.forall_mem_cons.1 hvalues
    obtain ⟨xs, hxs, hall⟩ := ih hrest
    exact ⟨x :: xs, .cons ht hxs, List.forall_mem_cons.2 ⟨hx, hall⟩⟩

theorem value_geometricMean (h : R.CalculatesMeans real ν ts)
    (hxs : List.Forall₂ (fun t x => R.value ν t = real x) ts xs)
    (hg : (Lemma.geometricMean ts).result = .ok a) :
    R.value ν a = real (xs.prod ^ (1 / (xs.length : ℝ))) := by
  obtain ⟨p, hp, hg⟩ := Outcome.result_bind_eq_ok.1 hg
  have hone : R.value ν (lit (.int 1)) = real 1 := by simpa using h.integer 1
  have hproduct := h.product.value hone hxs hp
  rw [← List.prod_eq_foldl] at hproduct
  rw [h.root p hp a _ _ hg hproduct (h.fraction _), hxs.length_eq]
  simp

theorem value_arithmeticMean (h : R.CalculatesMeans real ν ts)
    (hxs : List.Forall₂ (fun t x => R.value ν t = real x) ts xs)
    (ha : (Lemma.arithmeticMean ts).result = .ok a) :
    R.value ν a = real (xs.sum / xs.length) := by
  obtain ⟨p, hp, ha⟩ := Outcome.result_bind_eq_ok.1 ha
  have hzero : R.value ν (lit (.int 0)) = real 0 := by simpa using h.integer 0
  have hsum := h.sum.value hzero hxs hp
  rw [← List.sum_eq_foldl] at hsum
  rw [h.quotient p hp a _ _ ha hsum (h.integer _), hxs.length_eq]
  simp

/-- **The inequality between the means holds** where it is calculated rightly. -/
theorem holds_meansStatement {u : Term} (h : R.CalculatesMeans real ν ts) (hne : ts ≠ [])
    (hts : ∀ t ∈ ts, t.is .nonnegative = true) (hu : (Lemma.meansStatement ts).result = .ok u) :
    ∃ xs : List ℝ, List.Forall₂ (fun t x => R.value ν t = real x) ts xs ∧ (∀ x ∈ xs, 0 ≤ x) ∧
      xs.prod ^ (1 / (xs.length : ℝ)) ≤ xs.sum / xs.length ∧ R.Holds ν u := by
  obtain ⟨g, a, hg, ha, hu⟩ := Lemma.meansStatement_eq_ok.1 hu
  obtain ⟨xs, hxs, hnonneg⟩ := h.exists_numbers hts
  have hlist : xs ≠ [] := by
    rintro rfl
    exact hne (List.forall₂_nil_right_iff.1 hxs)
  have hmeans := geometric_le_arithmetic hlist hnonneg
  refine ⟨xs, hxs, hnonneg, hmeans, ?_⟩
  exact (h.comparison g a u _ _ hg ha hu (h.value_geometricMean hxs hg)
    (h.value_arithmeticMean hxs ha)).2 hmeans

end CalculatesMeans
end Reading

namespace Tactic

theorem result_useLemmaOf {l : Lemma} {s : State} {u : Term} (name : String)
    (hu : (l.statement s).result = .ok u) :
    (useLemmaOf name l s).result = .ok [⟨s.goal, s.context ++ [(s.fresh name, u)]⟩] := by
  have hfree : s.context.contains (s.fresh name) = false := Context.not_contains_fresh s.context name
  have hput : s.put (s.fresh name) u = ⟨s.goal, s.context ++ [(s.fresh name, u)]⟩ := by
    rw [State.put, Context.put_of_not_contains hfree]
  unfold useLemmaOf
  dsimp only
  rw [Outcome.result_bind_of_ok hu, hput]
  rfl

theorem valid_append_iff {W : Type*} {Holds : W → Term → Prop} {s : State} {u : Term} (name : String)
    (hu : ∀ w, (∀ h ∈ s.context.hypotheses, Holds w h) → Holds w u) :
    State.Valid Holds ⟨s.goal, s.context ++ [(name, u)]⟩ ↔ s.Valid Holds := by
  refine forall_congr' fun w => ⟨fun hvalid hhyps => hvalid ?_, fun hvalid hhyps => hvalid ?_⟩
  · simp only [Context.hypotheses, List.map_append, List.forall_mem_append]
    exact ⟨hhyps, List.forall_mem_singleton.2 (hu w hhyps)⟩
  · simp only [Context.hypotheses, List.map_append, List.forall_mem_append] at hhyps
    exact hhyps.1

/-- **The lemma about the means only adds true statements.**  Wherever the variables have values of their
kinds, the geometric mean of the values is at most their arithmetic mean and the statement that is added
holds.  It is added behind the old hypotheses, under a name that was not in use, and the state that is left
is valid exactly if the old one is. -/
theorem means_lemma_sound {X : Type*} (R : Reading X) (real : ℝ → X) {ts : List Term} {l : Lemma}
    {s : State} {u : Term} (hl : (Lemma.ofMeans ts).result = .ok l)
    (hu : (l.statement s).result = .ok u)
    (hright : ∀ ν, R.Respects s ν → R.CalculatesMeans real ν ts) (name : String) :
    (∀ ν, R.Respects s ν → ∃ xs : List ℝ,
      List.Forall₂ (fun t x => R.value ν t = real x) ts xs ∧ (∀ x ∈ xs, 0 ≤ x) ∧
        xs.prod ^ (1 / (xs.length : ℝ)) ≤ xs.sum / xs.length ∧ R.Holds ν u) ∧
    s.context.contains (s.fresh name) = false ∧
    (useLemmaOf name l s).result = .ok [⟨s.goal, s.context ++ [(s.fresh name, u)]⟩] ∧
    (State.Valid R.Holds ⟨s.goal, s.context ++ [(s.fresh name, u)]⟩ ↔ s.Valid R.Holds) := by
  obtain ⟨rfl, hne, hnonneg⟩ := Lemma.ofMeans_eq_ok hl
  have hmeans := fun ν hν => (hright ν hν).holds_meansStatement hne hnonneg
    (Lemma.statement_means_eq_ok hu)
  refine ⟨hmeans, Context.not_contains_fresh s.context name, result_useLemmaOf name hu, ?_⟩
  refine valid_append_iff _ fun ν hhyps => ?_
  obtain ⟨xs, -, -, -, hholds⟩ := hmeans ν (Reading.Models.respects hhyps)
  exact hholds

/-- Real numbers and truth values, with arithmetic and comparisons. -/
noncomputable def arithmetic : Reading (ℝ ⊕ Prop) where
  toDomain := sums.toDomain
  constant
    | .num q => .inl q
    | .lit (.int n) => .inl n
    | .lit (.ratio q) => .inl q
    | .truth c => .inr (c = true)
    | _ => .inr False
  apply
    | .rel .eq, [x, y] => .inr (x = y)
    | .rel .le, [x, y] => .inr (numberOf x ≤ numberOf y)
    | .add, xs => .inl (xs.map numberOf).sum
    | .mul, xs => .inl (xs.map numberOf).prod
    | .pow, [x, y] => .inl (numberOf x ^ numberOf y)
    | _, _ => .inr False
  declared k x := .inr (Domain.Range _ k x)
  Accepts
    | .inl _ => False
    | .inr p => p
  accepts_declared _ _ := Iff.rfl
  accepts_equation _ _ := Iff.rfl
  accepts_truth _ := Iff.rfl
  isTruth_constant _ := rfl
  isTruth_apply h xs hh := by
    rcases hh with rfl | rfl | rfl | rfl <;> rfl

abbrev weightA : Term := var ⟨"a", .nonnegReal⟩

abbrev weightB : Term := var ⟨"b", .nonnegReal⟩

def weightProduct : Term := app .mul [weightA, app .pow [weightB, num 2]]

def weightRoot : Term := app .mul [app .pow [weightA, num (1 / 3)], app .pow [weightB, num (2 / 3)]]

def weightSum : Term := app .add [weightA, app .mul [num 2, weightB]]

def weightMean : Term := app .add [app .mul [num (1 / 3), weightA], app .mul [num (2 / 3), weightB]]

def twoWeights : State where
  goal := app (.rel .le) [weightA, app .add [num 1, weightB]]
  context := [("a", declare ⟨"a", .nonnegReal⟩), ("b", declare ⟨"b", .nonnegReal⟩)]

variable {ν : Variable → ℝ ⊕ Prop}

theorem value_sum (as : List Term) : arithmetic.value ν (app .add as) =
    .inl (as.map fun a => numberOf (arithmetic.value ν a)).sum := by
  have hne : Head.add ≠ .declared := nofun
  rw [Reading.value_app hne]
  simp [arithmetic, Function.comp_def]

theorem value_product (as : List Term) : arithmetic.value ν (app .mul as) =
    .inl (as.map fun a => numberOf (arithmetic.value ν a)).prod := by
  have hne : Head.mul ≠ .declared := nofun
  rw [Reading.value_app hne]
  simp [arithmetic, Function.comp_def]

theorem value_power (b e : Term) : arithmetic.value ν (app .pow [b, e]) =
    .inl (numberOf (arithmetic.value ν b) ^ numberOf (arithmetic.value ν e)) := by
  have hne : Head.pow ≠ .declared := nofun
  rw [Reading.value_app hne]
  rfl

theorem value_constant {t : Term} (hvar : ∀ v, t ≠ var v) (happ : ∀ h as, t ≠ app h as) :
    arithmetic.value ν t = arithmetic.constant t := by
  rw [Reading.value]
  · exact hvar
  · exact happ

theorem value_number (q : ℚ) : arithmetic.value ν (num q) = .inl (q : ℝ) := value_constant nofun nofun

theorem right_of_result {op : Term → Term → Outcome Term} {f : ℝ → ℝ → ℝ} {a b c : Term} {x y : ℝ}
    (hc : (op a b).result = .ok c) (ha : arithmetic.value ν a = .inl x)
    (hb : arithmetic.value ν b = .inl y) (hvalue : arithmetic.value ν c = .inl (f x y)) :
    arithmetic.Right Sum.inl ν op f a b := by
  intro c' x' y' hc' hx' hy'
  rw [hc] at hc'
  cases hc'
  rw [ha] at hx'
  rw [hb] at hy'
  cases hx'
  cases hy'
  exact hvalue

theorem rightAlong_of_result {op : Term → Term → Outcome Term} {f : ℝ → ℝ → ℝ} {a t c : Term}
    {ts : List Term} {x y : ℝ} (hc : (op a t).result = .ok c) (ha : arithmetic.value ν a = .inl x)
    (ht : arithmetic.value ν t = .inl y) (hvalue : arithmetic.value ν c = .inl (f x y))
    (hrest : arithmetic.RightAlong Sum.inl ν op f c ts) :
    arithmetic.RightAlong Sum.inl ν op f a (t :: ts) := by
  refine ⟨right_of_result hc ha ht hvalue, fun b hb => ?_⟩
  rw [hc] at hb
  cases hb
  exact hrest

theorem exists_of_respects_twoWeights (hν : arithmetic.Respects twoWeights ν) {name : String}
    (hname : name = "a" ∨ name = "b") :
    ∃ x : ℝ, 0 ≤ x ∧ arithmetic.value ν (var ⟨name, .nonnegReal⟩) = .inl x := by
  have hdeclared : var ⟨name, .nonnegReal⟩ ∈ twoWeights.declaredVariables := by
    rcases hname with rfl | rfl <;> decide
  have hmem : Property.nonnegative ∈ Kind.properties .nonnegReal := by decide
  have hx := (hν ⟨name, .nonnegReal⟩ hdeclared).properties .nonnegative hmem
  rw [Reading.value_var]
  cases hvalue : ν ⟨name, .nonnegReal⟩ with
  | inl x =>
    rw [hvalue] at hx
    exact ⟨x, hx, rfl⟩
  | inr p =>
    rw [hvalue] at hx
    exact hx.elim

section Weights

variable {x y : ℝ} (ha : arithmetic.value ν weightA = .inl x) (hb : arithmetic.value ν weightB = .inl y)

include ha hb

theorem value_weightProduct : arithmetic.value ν weightProduct = .inl (x * y * y) := by
  have hsquare : y ^ (2 : ℝ) = y * y := by
    rw [← sq]
    exact_mod_cast Real.rpow_natCast y 2
  simp [weightProduct, value_product, value_power, value_number, ha, hb, numberOf, hsquare, mul_assoc]

theorem value_weightSum : arithmetic.value ν weightSum = .inl (x + y + y) := by
  simp only [weightSum, value_sum, value_product, value_number, ha, hb, numberOf, List.map_cons,
    List.map_nil, List.sum_cons, List.sum_nil, List.prod_cons, List.prod_nil]
  push_cast
  ring_nf

theorem value_weightRoot (hx : 0 ≤ x) (hy : 0 ≤ y) :
    arithmetic.value ν weightRoot = .inl ((x * y * y) ^ ((1 / 3 : ℚ) : ℝ)) := by
  have hroot : (x * y * y) ^ ((1 / 3 : ℚ) : ℝ) = x ^ ((1 / 3 : ℚ) : ℝ) * y ^ ((2 / 3 : ℚ) : ℝ) := by
    have hsplit : ((2 / 3 : ℚ) : ℝ) = ((1 / 3 : ℚ) : ℝ) + ((1 / 3 : ℚ) : ℝ) := by norm_num
    rw [Real.mul_rpow (mul_nonneg hx hy) hy, Real.mul_rpow hx hy, mul_assoc, hsplit,
      Real.rpow_add_of_nonneg hy (by norm_num) (by norm_num)]
  simp only [weightRoot, value_product, value_power, value_number, ha, hb, numberOf, List.map_cons,
    List.map_nil, List.prod_cons, List.prod_nil, mul_one, hroot]

theorem value_weightMean : arithmetic.value ν weightMean = .inl ((x + y + y) / ((3 : ℤ) : ℝ)) := by
  simp only [weightMean, value_sum, value_product, value_number, ha, hb, numberOf, List.map_cons,
    List.map_nil, List.sum_cons, List.sum_nil, List.prod_cons, List.prod_nil]
  push_cast
  ring_nf

end Weights

/-- **The means of the two numbers are calculated rightly.** -/
theorem calculatesMeans_twoWeights (hν : arithmetic.Respects twoWeights ν) :
    arithmetic.CalculatesMeans Sum.inl ν [weightA, weightB, weightB] := by
  obtain ⟨x, hx, ha⟩ := exists_of_respects_twoWeights hν (.inl rfl)
  obtain ⟨y, hy, hb⟩ := exists_of_respects_twoWeights hν (.inr rfl)
  have hinteger : ∀ n : ℤ, arithmetic.value ν (lit (.int n)) = .inl (n : ℝ) := fun n =>
    value_constant nofun nofun
  have hfraction : ∀ q : ℚ, arithmetic.value ν (lit (.ratio q)) = .inl (q : ℝ) := fun q =>
    value_constant nofun nofun
  have hpair : arithmetic.value ν (app .mul [weightA, weightB]) = .inl (x * y) := by
    simp [value_product, ha, hb, numberOf]
  have hpair' : arithmetic.value ν (app .add [weightA, weightB]) = .inl (x + y) := by
    simp [value_sum, ha, hb, numberOf]
  exact {
    integer := hinteger
    fraction := hfraction
    nonnegative := by
      simp only [List.forall_mem_cons]
      exact ⟨fun _ => ⟨x, hx, ha⟩, fun _ => ⟨y, hy, hb⟩, fun _ => ⟨y, hy, hb⟩, List.forall_mem_nil _⟩
    product := by
      refine rightAlong_of_result (c := weightA) (by decide +kernel) (hinteger 1) ha (by simp [ha]) ?_
      refine rightAlong_of_result (by decide +kernel) ha hb hpair ?_
      exact rightAlong_of_result (by decide +kernel) hpair hb (value_weightProduct ha hb) True.intro
    sum := by
      refine rightAlong_of_result (c := weightA) (by decide +kernel) (hinteger 0) ha (by simp [ha]) ?_
      refine rightAlong_of_result (by decide +kernel) ha hb hpair' ?_
      exact rightAlong_of_result (by decide +kernel) hpair' hb (value_weightSum ha hb) True.intro
    root := by
      have hproduct : ([weightA, weightB, weightB].foldlM Operation.mul (lit (.int 1))).result =
          .ok weightProduct := by decide +kernel
      intro p hp
      rw [hproduct] at hp
      cases hp
      exact right_of_result (c := weightRoot) (by decide +kernel) (value_weightProduct ha hb)
        (hfraction _) (value_weightRoot ha hb hx hy)
    quotient := by
      have hsum : ([weightA, weightB, weightB].foldlM Operation.add (lit (.int 0))).result =
          .ok weightSum := by decide +kernel
      intro p hp
      rw [hsum] at hp
      cases hp
      exact right_of_result (c := weightMean) (by decide +kernel) (value_weightSum ha hb) (hinteger _)
        (value_weightMean ha hb)
    comparison := by
      have hroot : (Lemma.geometricMean [weightA, weightB, weightB]).result = .ok weightRoot := by
        decide +kernel
      have hmean : (Lemma.arithmeticMean [weightA, weightB, weightB]).result = .ok weightMean := by
        decide +kernel
      have hcompare : (Operation.compare .le weightRoot weightMean).result =
          .ok (app (.rel .le) [weightRoot, weightMean]) := by decide +kernel
      have hne : Head.rel .le ≠ .declared := by decide
      intro g a u r m hg ha hu hr hm
      rw [hroot] at hg
      rw [hmean] at ha
      cases hg
      cases ha
      rw [hcompare] at hu
      cases hu
      rw [Reading.Holds, Reading.value_app hne, List.map_cons, List.map_cons, List.map_nil, hr, hm]
      rfl }

/-- The state that the lemma leaves: the name that is asked for is in use. -/
def comparedWeights : State where
  goal := twoWeights.goal
  context := twoWeights.context ++ [("a'", app (.rel .le) [weightRoot, weightMean])]

/-- **The lemma about the means of `a`, `b` and `b`** says that `a ^ (1/3) * b ^ (2/3)` is at most
`a / 3 + 2 * b / 3`. -/
theorem twoWeights_means :
    (Lemma.ofMeans [weightA, weightB, weightB]).result = .ok (.means [weightA, weightB, weightB]) ∧
      (useLemmaOf "a" (.means [weightA, weightB, weightB]) twoWeights).result = .ok [comparedWeights] ∧
      (∀ ν, arithmetic.Respects twoWeights ν →
        arithmetic.Holds ν (app (.rel .le) [weightRoot, weightMean])) ∧
      (comparedWeights.Valid arithmetic.Holds ↔ twoWeights.Valid arithmetic.Holds) := by
  have haccepted : (Lemma.ofMeans [weightA, weightB, weightB]).result =
      .ok (.means [weightA, weightB, weightB]) := by rfl
  have hstatement : ((Lemma.means [weightA, weightB, weightB]).statement twoWeights).result =
      .ok (app (.rel .le) [weightRoot, weightMean]) := by decide +kernel
  have hname : twoWeights.fresh "a" = "a'" := by decide +kernel
  obtain ⟨hholds, -, hstep, hvalid⟩ := means_lemma_sound arithmetic Sum.inl haccepted hstatement
    (fun ν hν => calculatesMeans_twoWeights hν) "a"
  rw [hname] at hstep hvalid
  refine ⟨haccepted, hstep, fun ν hν => ?_, hvalid⟩
  obtain ⟨xs, -, -, -, htrue⟩ := hholds ν hν
  exact htrue

end Tactic
end Majorant
