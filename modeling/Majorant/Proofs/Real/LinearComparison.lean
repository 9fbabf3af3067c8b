import Majorant.Proofs.Real.Facts
import Majorant.Proofs.Real.LinearForm
import Majorant.Proofs.Statement.Split

/-!
# Comparisons of linear forms are settled rightly

What is known of a linear form is right wherever the variables have values of their kinds.
-/

namespace Majorant

namespace Facts
open Knowledge

/-- A number times a variable is known to be an integer only if both are. -/
theorem productInteger_scaled (q : Rat) (κ : Kind) :
    productInteger [⟨some q, exact q, none⟩, ⟨none, ofKind κ, none⟩] =
      yesIf ((exact q).is .integer && (ofKind κ).is .integer) := by
  have hodd : (ofKind κ).is .odd = false := by cases κ <;> decide
  have heven : (ofKind κ).is .even = false := by cases κ <;> decide
  -- a reduced fraction with an even numerator is no half
  have hhalf : (exact (q.num : Rat)).is .even = true → q.den ≠ 2 := by
    intro hnum hden
    obtain ⟨n, hn, heq⟩ : Property.even.Of ((q.num : Rat) : ℝ) := (allows_exact _).of_is hnum
    have hnum : Even q.num := by
      rwa [show q.num = n by exact_mod_cast heq]
    have hreduced := q.reduced
    rw [hden, Nat.coprime_two_right, Int.natAbs_odd] at hreduced
    exact Int.not_odd_iff_even.2 hnum hreduced
  unfold productInteger yesIf
  cases hκ : (ofKind κ).is .integer with
  | false => simp [hκ]
  | true =>
    cases hq : (exact q).is .integer with
    | true => simp [hκ, hq]
    | false =>
      by_cases hone : q.num = 1 ∨ q.num = -1
      · simp [hκ, hq, hone, hodd, heven]
      · simpa [hκ, hq, hone, hodd, heven] using hhalf

theorem answers_productWhole {q : Rat} {κ : Kind} {x : ℝ} (hx : κ.Admits x) :
    Answers (Property.integer.Of ((q : ℝ) * x))
      (productWhole [⟨some q, exact q, none⟩, ⟨none, ofKind κ, none⟩]) := by
  have hallows : List.Forall₂ Allows [exact q, ofKind κ] [(q : ℝ), x] :=
    .cons (allows_exact q) (.cons (allows_ofKind hx) .nil)
  unfold productWhole
  split_ifs with hrational
  · have hnot := answers_productRational hallows false (by simpa using hrational)
    rw [List.prod_pair] at hnot
    refine answers_false ?_
    rintro ⟨n, hn⟩
    exact absurd (hnot.1 ⟨n, by simpa using hn⟩) nofun
  · rw [productInteger_scaled]
    refine answers_yesIf fun hboth => ?_
    rw [Bool.and_eq_true] at hboth
    obtain ⟨m, hm⟩ : Property.integer.Of (q : ℝ) := (allows_exact q).of_is hboth.1
    obtain ⟨n, rfl⟩ : Property.integer.Of x := (allows_ofKind hx).of_is hboth.2
    exact ⟨m * n, by simp [hm]⟩

end Facts

namespace Term
open Knowledge

variable {M : Type} {w : World M}

theorem allows_facts_of_isLinearSummand {t : Term} (h : t.isLinearSummand = true) :
    t.facts.Allows (t.val w.value) := by
  have hfits : ∀ {v : Variable}, v.kind.isReal = true → v.kind.Admits (w.value v) :=
    fun hv => w.fits _ (Kind.isNumeric_of_isReal hv)
  rcases isLinearSummand_cases h with ⟨q, rfl⟩ | ⟨v, hv, rfl⟩ | ⟨q, v, hv, rfl⟩
  · exact allows_exact q
  · exact allows_ofKind (hfits hv)
  · have hval : (app .mul [num q, var v]).val w.value = [(q : ℝ), w.value v].prod := by simp
    rw [facts_mul, hval]
    refine Facts.allows_product ?_ ?_ ?_
    · exact .cons (allows_exact q) (.cons (allows_ofKind (hfits hv)) .nil)
    · simp only [List.map_cons, List.map_nil, List.forall_mem_cons]
      exact ⟨num_is_real q, var_is_real hv, nofun⟩
    · rw [List.prod_pair]
      exact Facts.answers_productWhole (hfits hv)

/-- **What is known of a linear form is right.** -/
theorem allows_facts {t : Term} (h : t.isLinear = true) : t.facts.Allows (t.val w.value) := by
  rcases isLinear_cases h with hsummand | ⟨as, rfl, hall⟩
  · exact allows_facts_of_isLinearSummand hsummand
  · have hks : (as.map factor).map (·.known) = as.map facts := by
      rw [List.map_map]
      rfl
    have hallows : List.Forall₂ Allows (as.map facts) (as.map (val w.value)) := by
      rw [List.forall₂_map_left_iff, List.forall₂_map_right_iff, List.forall₂_same]
      exact fun s hs => allows_facts_of_isLinearSummand (hall s hs)
    have hsum : (Facts.sum (as.map facts)).Allows (as.map (val w.value)).sum := by
      refine Facts.allows_sum hallows fun k hk => ?_
      obtain ⟨s, hs, rfl⟩ := List.mem_map.1 hk
      exact is_real_of_isLinear (isLinear_of_isLinearSummand (hall s hs))
    rw [facts_add, val_add]
    unfold sumFactor
    rw [hks]
    split
    · next c rest f a heq =>
      obtain ⟨t, rfl, rfl⟩ := List.map_eq_singleton_iff.1 (List.cons.inj heq).2
      have hval : ([num c, t].map (val w.value)).sum = c + t.val w.value := by simp
      rw [hval] at hsum ⊢
      refine Facts.allows_shift (allows_facts_of_isLinearSummand (hall t ?_)) hsum
      exact List.mem_cons_of_mem _ (List.mem_singleton_self t)
    · exact hsum

/-- **Linear forms are compared as their values compare**, as far as this is decided. -/
theorem answers_atLeast? {a b : Term} (ha : a.isLinear = true) (hb : b.isLinear = true) :
    Answers (b.val w.value ≤ a.val w.value) (atLeast? a b) := by
  have hsub := isLinear_sub ha hb
  have hval := val_sub (denotes_of_isLinear (ρ := w.value) ha) (denotes_of_isLinear hb)
  have hask := (allows_facts (w := w) hsub).answers_ask .extNonnegative
  rw [hval] at hask
  unfold atLeast?
  split
  · next p q =>
    intro v hv
    cases hv
    simp
  · rw [is_extReal_of_isLinear ha, is_extReal_of_isLinear hb, is_infinite_of_isLinear ha,
      is_infinite_of_isLinear hb]
    simp only [Bool.and_self, Bool.false_and, Bool.or_self, if_true, Bool.false_eq_true, if_false]
    split
    · exact answers_none _
    · simpa [Property.Of, Term.ask, Answers] using hask

theorem answers_equal? {a b : Term} (ha : a.isLinear = true) (hb : b.isLinear = true) :
    Answers (a.val w.value = b.val w.value) (equal? a b) := by
  by_cases heq : a = b
  · have hequal : equal? a b = some true := by simp [equal?, heq]
    rw [hequal]
    exact answers_true (by rw [heq])
  · have hsub := isLinear_sub ha hb
    have hval := val_sub (denotes_of_isLinear (ρ := w.value) ha) (denotes_of_isLinear hb)
    have hask := (allows_facts (w := w) hsub).answers_ask .zero
    rw [equal?_of_isLinear ha hb heq]
    rw [hval] at hask
    simpa [Property.Of, Term.ask, Answers, sub_eq_zero] using hask

end Term

theorem Answers.not {P : Prop} {a : Option Bool} (h : Answers P a) : Answers (¬ P) (a.map (!·)) := by
  cases a with
  | none => exact answers_none _
  | some v =>
    intro b hb
    cases hb
    rw [h v rfl]
    cases v <;> simp

section Comparisons
open Term

variable {M : Type} {w : World M} {a b : Term}

/-- **What is decided about linear forms is right.** -/
theorem Statement.answers_decided? (ha : a.isLinear = true) (hb : b.isLinear = true) (r : Rel) :
    Answers (r.Compares (a.val w.value) (b.val w.value)) (decided? r a b) := by
  cases r with
  | ge => exact answers_atLeast? ha hb
  | le => exact answers_atLeast? hb ha
  | lt => simpa [Rel.Compares, decided?] using (answers_atLeast? (w := w) ha hb).not
  | gt => simpa [Rel.Compares, decided?] using (answers_atLeast? (w := w) hb ha).not
  | eq => exact answers_equal? ha hb
  | ne => exact (answers_equal? ha hb).not

theorem World.numbers_of_isLinear (ha : a.isLinear = true) (hb : b.isLinear = true) : w.Numbers a b :=
  ⟨denotes_of_isLinear ha, denotes_of_isLinear hb⟩

/-- **Comparisons of linear forms say what they should.** -/
theorem World.settles_of_isLinear [LinearOrder M] (ha : a.isLinear = true) (hb : b.isLinear = true) :
    w.Settles a b := by
  intro r
  refine ⟨_, Statement.relate_of_isLinear ha hb r, ?_⟩
  have hnumbers := numbers_of_isLinear (w := w) ha hb
  cases hdecided : Statement.decided? r a b with
  | none => exact ⟨.rel (.inl hnumbers), Iff.rfl⟩
  | some v =>
    have hright := Statement.answers_decided? (w := w) ha hb r v hdecided
    rw [relates_of_numbers hnumbers, hright]
    exact ⟨.truth v, Iff.rfl⟩

end Comparisons
end Majorant
