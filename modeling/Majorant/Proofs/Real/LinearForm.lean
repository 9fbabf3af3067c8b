import Majorant.Proofs.Real.Truth
import Majorant.Tactic.Linear

/-!
# Linear forms

A linear form is a number, a real variable, such a variable with a number in front, or a sum of these.
-/

namespace Majorant

def Kind.isReal : Kind → Bool
  | complex | prop | order => false
  | _ => true

theorem Kind.isNumeric_of_isReal {k : Kind} (h : k.isReal = true) : k.isNumeric = true := by
  cases k <;> first | rfl | cases h

namespace Term

/-- A number, a real variable, or such a variable with a number in front. -/
def isLinearSummand : Term → Bool
  | num _ => true
  | var v => v.kind.isReal
  | app .mul [num _, var v] => v.kind.isReal
  | _ => false

/-- **Linear forms.** -/
def isLinear (t : Term) : Bool := t.summands.all isLinearSummand

theorem isLinearSummand_cases {t : Term} (h : t.isLinearSummand = true) :
    (∃ q, t = num q) ∨ (∃ v, v.kind.isReal = true ∧ t = var v) ∨
      ∃ q v, v.kind.isReal = true ∧ t = app .mul [num q, var v] := by
  unfold isLinearSummand at h
  split at h
  · exact .inl ⟨_, rfl⟩
  · exact .inr (.inl ⟨_, h, rfl⟩)
  · exact .inr (.inr ⟨_, _, h, rfl⟩)
  · cases h

theorem isLinear_iff {t : Term} : t.isLinear = true ↔ ∀ s ∈ t.summands, s.isLinearSummand = true :=
  List.all_eq_true

theorem isLinear_add {as : List Term} :
    (app .add as).isLinear = true ↔ ∀ s ∈ as, s.isLinearSummand = true :=
  isLinear_iff

theorem summands_of_isLinearSummand {t : Term} (h : t.isLinearSummand = true) :
    t.summands = [t] := by
  rcases isLinearSummand_cases h with ⟨q, rfl⟩ | ⟨v, -, rfl⟩ | ⟨q, v, -, rfl⟩ <;> rfl

theorem isLinear_of_isLinearSummand {t : Term} (h : t.isLinearSummand = true) :
    t.isLinear = true := by
  rw [isLinear_iff, summands_of_isLinearSummand h]
  intro s hs
  rwa [List.mem_singleton.1 hs]

theorem isLinear_cases {t : Term} (h : t.isLinear = true) :
    t.isLinearSummand = true ∨ ∃ as, t = app .add as ∧ ∀ s ∈ as, s.isLinearSummand = true := by
  by_cases hadd : ∃ as, t = app .add as
  · obtain ⟨as, rfl⟩ := hadd
    exact .inr ⟨as, rfl, isLinear_add.1 h⟩
  · left
    have hsummands : t.summands = [t] := by
      unfold summands
      split
      · exact absurd ⟨_, rfl⟩ hadd
      · rfl
    exact isLinear_iff.1 h t (by rw [hsummands]; exact List.mem_singleton_self t)

variable {ρ : Valuation}

theorem denotes_of_isLinearSummand {t : Term} (h : t.isLinearSummand = true) : t.Denotes ρ := by
  rcases isLinearSummand_cases h with ⟨q, rfl⟩ | ⟨v, hv, rfl⟩ | ⟨q, v, hv, rfl⟩
  · exact denotes_num q
  · exact (denotes_var v).2 (Kind.isNumeric_of_isReal hv)
  · simp [Kind.isNumeric_of_isReal hv]

theorem denotes_of_isLinear {t : Term} (h : t.isLinear = true) : t.Denotes ρ := by
  rcases isLinear_cases h with hsummand | ⟨as, rfl, hall⟩
  · exact denotes_of_isLinearSummand hsummand
  · exact (denotes_add as).2 fun s hs => denotes_of_isLinearSummand (hall s hs)

theorem written?_of_isLinear {t : Term} (h : t.isLinear = true) : Operation.written? t = none := by
  rcases isLinear_cases h with h | ⟨as, rfl, -⟩
  · rcases isLinearSummand_cases h with ⟨q, rfl⟩ | ⟨v, -, rfl⟩ | ⟨q, v, -, rfl⟩ <;> rfl
  · rfl

theorem isRational_ofRat (q : Rat) : (ValueClass.ofRat q).isRational = true := by
  unfold ValueClass.ofRat
  split_ifs <;> rfl

theorem num_is_real (q : Rat) : (num q).is .real = true := by
  rw [Term.is, facts_num, Knowledge.is_iff]
  intro c hc
  rw [Knowledge.exact, List.mem_singleton] at hc
  have hrational := isRational_ofRat q
  rw [← hc] at hrational
  revert hrational
  cases c <;> decide

theorem var_is_real {v : Variable} (h : v.kind.isReal = true) : (var v).is .real = true := by
  rw [Term.is, facts_var]
  revert h
  cases v.kind <;> decide

theorem scaled_is_real {q : Rat} {v : Variable} (h : v.kind.isReal = true) :
    (app .mul [num q, var v]).is .real = true := by
  have hclass : ∀ c : ValueClass, c.isRational = true → ∀ k : Kind, k.isReal = true →
      (Knowledge.unknown.learnAll (Facts.productNature [⟨[c]⟩, Knowledge.ofKind k])).is .real
        = true := by
    intro c hc k
    revert hc
    cases c <;> cases k <;> decide
  rw [Term.is, facts_mul]
  refine Knowledge.is_mono (hclass _ (isRational_ofRat q) _ h) ?_
  have hks : ([num q, var v].map factor).map (·.known) =
      [Knowledge.exact q, Knowledge.ofKind v.kind] := by
    simp [factor]
  have hsub := Facts.possible_product_subset ([num q, var v].map factor)
  rw [hks] at hsub
  exact hsub

theorem is_real_of_isLinear {t : Term} (h : t.isLinear = true) : t.is .real = true := by
  have hsummand : ∀ s : Term, s.isLinearSummand = true → s.is .real = true := by
    intro s hs
    rcases isLinearSummand_cases hs with ⟨q, rfl⟩ | ⟨v, hv, rfl⟩ | ⟨q, v, hv, rfl⟩
    · exact num_is_real q
    · exact var_is_real hv
    · exact scaled_is_real hv
  rcases isLinear_cases h with hs | ⟨as, rfl, hall⟩
  · exact hsummand t hs
  · refine Knowledge.is_mono (Facts.sum_is_real fun k hk => ?_) (possible_add_subset as)
    obtain ⟨a, ha, rfl⟩ := List.mem_map.1 hk
    exact hsummand a (hall a ha)

theorem splitCoeff_of_isLinearSummand {t : Term} (h : t.isLinearSummand = true) :
    t.splitCoeff.2 = one ∧ t.isSymbolic = false ∨
      ∃ v, v.kind.isReal = true ∧ t.splitCoeff.2 = var v := by
  rcases isLinearSummand_cases h with ⟨q, rfl⟩ | ⟨v, hv, rfl⟩ | ⟨q, v, hv, rfl⟩
  · exact .inl ⟨rfl, rfl⟩
  · exact .inr ⟨v, hv, rfl⟩
  · exact .inr ⟨v, hv, rfl⟩

theorem isLinearSummand_withCoeff {v : Variable} (h : v.kind.isReal = true) (c : Rat) :
    (withCoeff c [var v]).isLinearSummand = true := by
  unfold withCoeff
  split
  · exact h
  · exact h

theorem isLinearSummand_scaleSummand {t : Term} (h : t.isLinearSummand = true) (c : Rat) :
    (scaleSummand c t).isLinearSummand = true := by
  rcases isLinearSummand_cases h with ⟨q, rfl⟩ | ⟨v, hv, rfl⟩ | ⟨q, v, hv, rfl⟩
  · rfl
  · exact isLinearSummand_withCoeff hv c
  · exact isLinearSummand_withCoeff hv (c * q)

theorem var_of_mem_gathered {ts : List Term} (h : ∀ t ∈ ts, t.isLinearSummand = true)
    {p : Term × Rat} (hp : p ∈ gathered ts) : ∃ v, v.kind.isReal = true ∧ p.1 = var v := by
  obtain ⟨t, ht, hsymbolic, heq⟩ := exists_of_mem_gathered hp
  rcases splitCoeff_of_isLinearSummand (h t ht) with ⟨-, hnum⟩ | ⟨v, hv, hvar⟩
  · rw [hnum] at hsymbolic
    cases hsymbolic
  · exact ⟨v, hv, heq.trans hvar⟩

theorem isLinear_ofSummands {ts : List Term} (h : ∀ t ∈ ts, t.isLinearSummand = true) :
    (ofSummands ts).isLinear = true := by
  unfold ofSummands
  split
  · rfl
  · exact isLinear_of_isLinearSummand (h _ (List.mem_singleton_self _))
  · exact isLinear_add.2 h

theorem isLinear_sumFinite {ts : List Term} (h : ∀ t ∈ ts, t.isLinearSummand = true) :
    (sumFinite ts).isLinear = true := by
  apply isLinear_ofSummands
  refine fun s hs => mem_summands_sumFinite
    (P := fun t => t.isLinearSummand = true) (fun q => rfl) (fun p hp => ?_) hs
  obtain ⟨v, hv, hvar⟩ := var_of_mem_gathered h hp
  rw [hvar]
  exact isLinearSummand_scaleSummand (t := var v) hv p.2

theorem mem_flatMap_summands {ts : List Term} (h : ∀ t ∈ ts, t.isLinear = true) {s : Term}
    (hs : s ∈ ts.flatMap summands) : s.isLinearSummand = true := by
  obtain ⟨t, ht, hs⟩ := List.mem_flatMap.1 hs
  exact isLinear_iff.1 (h t ht) s hs

theorem sum_of_isLinear {ts : List Term} (h : ∀ t ∈ ts, t.isLinear = true) :
    sum ts = sumFinite (ts.flatMap summands) :=
  (inherited_denotes (ρ := 0)).sum_eq_sumFinite fun t ht => denotes_of_isLinear (h t ht)

theorem isLinear_sum {ts : List Term} (h : ∀ t ∈ ts, t.isLinear = true) :
    (sum ts).isLinear = true := by
  rw [sum_of_isLinear h]
  exact isLinear_sumFinite fun s hs => mem_flatMap_summands h hs

theorem isLinear_neg {t : Term} (h : t.isLinear = true) : t.neg.isLinear = true := by
  have hone : ¬ (-1 : Rat) = 1 := by norm_num
  have hzero : ¬ (-1 : Rat) = 0 := by norm_num
  have hcomm : t.is .commutative = true :=
    Knowledge.is_of_imp (is_real_of_isLinear h) (by intro c; cases c <;> decide)
  unfold neg scale
  rw [if_neg hone]
  rcases isLinear_cases h with hs | ⟨as, rfl, hall⟩
  · rcases isLinearSummand_cases hs with ⟨q, rfl⟩ | ⟨v, hv, rfl⟩ | ⟨q, v, hv, rfl⟩ <;>
      exact isLinear_of_isLinearSummand (isLinearSummand_scaleSummand hs (-1))
  · dsimp only
    rw [if_neg hzero, if_pos hcomm]
    apply isLinear_sum
    intro s hs
    obtain ⟨a, ha, rfl⟩ := List.mem_map.1 hs
    exact isLinear_of_isLinearSummand (isLinearSummand_scaleSummand (hall a ha) (-1))

theorem isLinear_pair {a b : Term} (ha : a.isLinear = true) (hb : b.isLinear = true) :
    ∀ t ∈ [a, b.neg], t.isLinear = true := by
  intro t ht
  rcases List.mem_cons.1 ht with rfl | ht
  · exact ha
  · rw [List.mem_singleton.1 ht]
    exact isLinear_neg hb

/-- **Differences of linear forms are linear forms.** -/
theorem isLinear_sub {a b : Term} (ha : a.isLinear = true) (hb : b.isLinear = true) :
    (sub a b).isLinear = true :=
  isLinear_sum (isLinear_pair ha hb)

theorem mem_keys_coefficients {t : Term} (h : t.isLinear = true) (hne : t ≠ zero) {k : Term}
    (hk : k ∈ keys t.coefficients) : k = one ∨ ∃ v, v.kind.isReal = true ∧ k = var v := by
  unfold coefficients at hk
  rw [if_neg hne] at hk
  rcases mem_keys_foldl_gatherSummand hk with hnil | ⟨s, hs, rfl⟩
  · cases hnil
  · rcases splitCoeff_of_isLinearSummand (isLinear_iff.1 h s hs) with ⟨hone, -⟩ | hvar
    · exact .inl hone
    · exact .inr hvar

def ofRational (q : Variable → ℚ) : Valuation := fun v => q v

def indicator (v : Variable) : Variable → ℚ := fun w => if w = v then 1 else 0

theorem combination_indicator {cs : List (Term × Rat)} (hnodup : (keys cs).Nodup)
    (hvars : ∀ p ∈ cs, ∃ w, p.1 = var w) {v : Variable} {c : Rat} (hmem : (var v, c) ∈ cs) :
    combination (ofRational (indicator v)) cs = c := by
  unfold combination
  induction cs with
  | nil => cases hmem
  | cons p cs ih =>
    have hcons : p.1 ∉ keys cs ∧ (keys cs).Nodup := List.nodup_cons.1 hnodup
    rw [List.map_cons, List.sum_cons]
    rcases List.mem_cons.1 hmem with rfl | hmem
    · -- no other key is the variable, so the rest vanishes
      have hrest : (cs.map fun p => (p.2 : ℝ) * p.1.val (ofRational (indicator v))).sum = 0 := by
        apply List.sum_eq_zero
        intro x hx
        obtain ⟨q, hq, rfl⟩ := List.mem_map.1 hx
        obtain ⟨w, hw⟩ := hvars q (List.mem_cons_of_mem _ hq)
        have hne : w ≠ v := by
          rintro rfl
          exact hcons.1 (List.mem_map.2 ⟨q, hq, hw⟩)
        rw [hw, val_var]
        simp [ofRational, indicator, hne]
      rw [hrest, val_var]
      simp [ofRational, indicator]
    · obtain ⟨w, hw⟩ := hvars p List.mem_cons_self
      have hne : w ≠ v := by
        rintro rfl
        exact hcons.1 (List.mem_map.2 ⟨_, hmem, hw.symm⟩)
      rw [ih hcons.2 (fun q hq => hvars q (List.mem_cons_of_mem _ hq)) hmem, hw, val_var]
      simp [ofRational, indicator, hne]

/-- **The only sum of linear summands that vanishes everywhere is zero.** -/
theorem sumFinite_eq_zero {ts : List Term} (h : ∀ t ∈ ts, t.isLinearSummand = true)
    (hval : ∀ q : Variable → ℚ, (sumFinite ts).val (ofRational q) = 0) : sumFinite ts = zero := by
  have hvars : ∀ p ∈ gathered ts, ∃ w, p.1 = var w := by
    intro p hp
    obtain ⟨v, -, hv⟩ := var_of_mem_gathered h hp
    exact ⟨v, hv⟩
  have hconstant : constantTerm ts = 0 := by
    have hat := hval 0
    have hrest : combination (ofRational 0) (gathered ts) = 0 := by
      apply List.sum_eq_zero
      intro x hx
      obtain ⟨p, hp, rfl⟩ := List.mem_map.1 hx
      obtain ⟨w, hw⟩ := hvars p hp
      rw [hw, val_var]
      simp [ofRational]
    rw [val_sumFinite_gathered, hrest, add_zero] at hat
    exact_mod_cast hat
  have hgathered : gathered ts = [] := by
    rw [List.eq_nil_iff_forall_not_mem]
    rintro ⟨k, c⟩ hp
    obtain ⟨v, rfl⟩ := hvars _ hp
    have hat := hval (indicator v)
    rw [val_sumFinite_gathered, hconstant, combination_indicator (nodup_gathered ts) hvars hp] at hat
    refine ne_zero_of_mem_gathered hp ?_
    simpa using hat
  unfold sumFinite
  rw [hconstant, hgathered]
  simp [sortArgs, sortBy, ofSummands]

theorem sub_eq_zero_of_val {a b : Term} (ha : a.isLinear = true) (hb : b.isLinear = true)
    (hval : ∀ q : Variable → ℚ, a.val (ofRational q) = b.val (ofRational q)) : sub a b = zero := by
  have hsum := sum_of_isLinear (isLinear_pair ha hb)
  have hvanish : ∀ q : Variable → ℚ, (sub a b).val (ofRational q) = 0 := by
    intro q
    rw [val_sub (denotes_of_isLinear ha) (denotes_of_isLinear hb), hval q, sub_self]
  unfold sub at hvanish ⊢
  rw [hsum] at hvanish ⊢
  exact sumFinite_eq_zero (fun s hs => mem_flatMap_summands (isLinear_pair ha hb) hs) hvanish

theorem sub_eq_zero_comm {a b : Term} (ha : a.isLinear = true) (hb : b.isLinear = true)
    (h : sub a b = zero) : sub b a = zero := by
  refine sub_eq_zero_of_val hb ha fun q => ?_
  have hval := val_sub (ρ := ofRational q) (denotes_of_isLinear ha) (denotes_of_isLinear hb)
  rw [h, val_zero] at hval
  linarith

theorem ofLiteral_of_isLinear {t : Term} (h : t.isLinear = true) : ofLiteral t = pure t := by
  rcases isLinear_cases h with hs | ⟨as, rfl, -⟩
  · rcases isLinearSummand_cases hs with ⟨q, rfl⟩ | ⟨v, -, rfl⟩ | ⟨q, v, -, rfl⟩ <;> rfl
  · rfl

theorem isQuantity_of_isLinear {t : Term} (h : t.isLinear = true) : t.isQuantity = true := by
  have hquantity := isQuantity_of_denotes (ρ := 0) (denotes_of_isLinear h)
  rw [written?_of_isLinear h] at hquantity
  simpa using hquantity

theorem isOrder_of_isLinear {t : Term} (h : t.isLinear = true) : t.isOrder = false :=
  isOrder_of_denotes (ρ := 0) (denotes_of_isLinear h)

theorem isStatement_of_isLinear {t : Term} (h : t.isLinear = true) :
    (∃ v, t = var v) ∨ t.isStatement = false := by
  rcases isLinear_cases h with hs | ⟨as, rfl, -⟩
  · rcases isLinearSummand_cases hs with ⟨q, rfl⟩ | ⟨v, -, rfl⟩ | ⟨q, v, -, rfl⟩
    · exact .inr rfl
    · exact .inl ⟨v, rfl⟩
    · exact .inr rfl
  · exact .inr rfl

theorem linear_ne_nil {t : Term} (h : t.isLinear = true) : t.facts.possible ≠ [] := by
  rcases isLinear_cases h with hs | ⟨as, rfl, -⟩
  · rcases isLinearSummand_cases hs with ⟨q, rfl⟩ | ⟨v, hv, rfl⟩ | ⟨q, v, hv, rfl⟩
    · rw [facts_num]
      exact List.cons_ne_nil _ _
    · rw [facts_var]
      cases v.kind <;> decide
    · rw [facts_mul]
      exact Facts.product_ne_nil _
  · exact add_ne_nil as

theorem is_extReal_of_isLinear {t : Term} (h : t.isLinear = true) : t.is .extReal = true :=
  Knowledge.is_of_imp (is_real_of_isLinear h) (by intro c; cases c <;> decide)

theorem is_infinite_of_isLinear {t : Term} (h : t.isLinear = true) : t.is .infinite = false := by
  rw [Bool.eq_false_iff]
  intro hinf
  obtain ⟨c, hc⟩ := List.exists_mem_of_ne_nil _ (linear_ne_nil h)
  have hreal := Knowledge.is_iff.1 (is_real_of_isLinear h) c hc
  have hinfinite := Knowledge.is_iff.1 hinf c hc
  revert hreal hinfinite
  cases c <;> decide

theorem sub_num (p q : Rat) : sub (num p) (num q) = num (p - q) := by
  have hneg : neg (num q) = num (-q) := by
    have hone : ¬ (-1 : Rat) = 1 := by norm_num
    simp [neg, scale, scaleSummand, hone]
  have hgathered : gathered [num p, num (-q)] = [] := by simp [gathered, isSymbolic]
  have hconstant : constantTerm [num p, num (-q)] = p - q := by
    simp [constantTerm, constantOf, sub_eq_add_neg]
  have hflat : [num p, num (-q)].flatMap summands = [num p, num (-q)] := rfl
  unfold sub
  rw [hneg, sum_of_isLinear (by simp [isLinear, summands, isLinearSummand]), hflat]
  unfold sumFinite
  rw [hgathered, hconstant]
  split
  · next h => simp [sortArgs, sortBy, ofSummands, h, zero]
  · simp [sortArgs, sortBy, ofSummands]

theorem ask_exact_ne_none (q : Rat) (p : Property) : (Knowledge.exact q).ask p ≠ none := by
  unfold Knowledge.ask Knowledge.exact
  cases hp : p.holds (ValueClass.ofRat q) <;> simp [hp]

theorem atLeast?_of_sub_eq_zero {a b : Term} (ha : a.isLinear = true) (hb : b.isLinear = true)
    (h : sub a b = zero) : atLeast? a b = some true := by
  unfold atLeast?
  split
  · next p q =>
    have hval := val_sub (ρ := 0) (denotes_of_isLinear ha) (denotes_of_isLinear hb)
    rw [h, val_zero, val_num, val_num] at hval
    have hle : q ≤ p := by exact_mod_cast (sub_eq_zero.1 hval.symm).ge
    simpa using hle
  · rw [is_extReal_of_isLinear ha, is_extReal_of_isLinear hb, is_infinite_of_isLinear ha,
      is_infinite_of_isLinear hb, h]
    rfl

theorem equal?_of_isLinear {a b : Term} (ha : a.isLinear = true) (hb : b.isLinear = true)
    (hne : a ≠ b) : equal? a b = (sub a b).ask .zero := by
  have hcomm : (sub a b).is .commutative = true :=
    Knowledge.is_of_imp (is_real_of_isLinear (isLinear_sub ha hb))
      (by intro c; cases c <;> decide)
  have hquantities : equalQuantities? a b = (sub a b).ask .zero := by
    unfold equalQuantities?
    rw [is_infinite_of_isLinear ha, is_infinite_of_isLinear hb]
    dsimp only
    rw [hcomm]
    cases (sub a b).ask .zero with
    | none => rfl
    | some z => cases z <;> rfl
  unfold equal?
  rw [if_neg hne]
  split
  · next heq => cases ha
  · rw [isQuantity_of_isLinear ha, isQuantity_of_isLinear hb, isOrder_of_isLinear ha,
      isOrder_of_isLinear hb, hquantities]
    rcases isStatement_of_isLinear ha with ⟨v, rfl⟩ | hsa
    · rfl
    · rcases isStatement_of_isLinear hb with ⟨v, rfl⟩ | hsb
      · simp
      · simp [hsa, hsb]

end Term

namespace Statement
open Term

variable {a b : Term}

theorem comparable_of_isLinear (ha : a.isLinear = true) : Comparable a where
  ofLiteral := ofLiteral_of_isLinear ha
  evades := evades_of_denotes (ρ := 0) a (denotes_of_isLinear ha)
  isQuantity := isQuantity_of_isLinear ha
  isNot_extReal := by
    have hask := Knowledge.ask_eq_some_true_iff.2 (Knowledge.is_iff.1 (is_extReal_of_isLinear ha))
    unfold Term.isNot Knowledge.isNot
    rw [hask]
    rfl
  proper := by
    rintro rfl
    cases ha

theorem relate_of_isLinear (ha : a.isLinear = true) (hb : b.isLinear = true) (r : Rel) :
    (relate r a b).result = .ok (settle r a b (decided? r a b)) := by
  rw [relate_eq_settle (comparable_of_isLinear ha) (comparable_of_isLinear hb)
    (.inr (isOrder_of_isLinear hb))]
  rfl

theorem relate_eq_self_iff (ha : a.isLinear = true) (hb : b.isLinear = true) (r : Rel) :
    (relate r a b).result = .ok (app (.rel r) [a, b]) ↔ decided? r a b = none := by
  rw [relate_of_isLinear ha hb, Except.ok.injEq]
  cases decided? r a b with
  | none => simp [settle]
  | some v => simp [settle]

/-- **Linear forms whose comparison is open differ.** -/
theorem sub_ne_zero_of_decided (ha : a.isLinear = true) (hb : b.isLinear = true) {r : Rel}
    (h : decided? r a b = none) : sub a b ≠ zero := by
  intro hzero
  have hleft := atLeast?_of_sub_eq_zero ha hb hzero
  have hright := atLeast?_of_sub_eq_zero hb ha (sub_eq_zero_comm ha hb hzero)
  have hequal : equal? a b = some true := by
    by_cases heq : a = b
    · simp [equal?, heq]
    · rw [equal?_of_isLinear ha hb heq, hzero]
      rfl
  cases r <;> simp [decided?, hleft, hright, hequal] at h

theorem settle_lt_of_decided_eq (ha : a.isLinear = true) (hb : b.isLinear = true)
    (h : decided? .eq a b = none) :
    settle .lt a b (decided? .lt a b) = bot ∨
      settle .lt a b (decided? .lt a b) = app (.rel .lt) [a, b] := by
  have hne : a ≠ b := by
    rintro rfl
    simp [decided?, equal?] at h
  have hask : (sub a b).ask .zero = none := by
    rw [← equal?_of_isLinear ha hb hne]
    exact h
  have hleast : atLeast? a b ≠ some false := by
    unfold atLeast?
    split
    · next p q =>
      rw [sub_num, Term.ask, facts_num] at hask
      exact absurd hask (ask_exact_ne_none _ _)
    · rw [is_extReal_of_isLinear ha, is_extReal_of_isLinear hb, is_infinite_of_isLinear ha,
        is_infinite_of_isLinear hb]
      simp only [Bool.and_self, Bool.false_and, Bool.or_self, if_true, Bool.false_eq_true, if_false]
      have hzero := Knowledge.exists_of_ask_eq_none hask
      split
      · intro hnone
        cases hnone
      · intro hneg
        obtain ⟨c, hc, hczero⟩ := hzero
        have hcneg := (Knowledge.ask_eq_some_false_iff
          (linear_ne_nil (isLinear_sub ha hb))).1 hneg c hc
        revert hczero hcneg
        cases c <;> decide
  unfold decided?
  cases hcase : atLeast? a b with
  | none => exact .inr rfl
  | some v =>
    cases v with
    | true => exact .inl rfl
    | false => exact absurd hcase hleast

end Statement
end Majorant
