import Majorant.Proofs.Scope.Statement
import Majorant.Proofs.Simplifier.Calculus

/-!
# Evaluation over an alphabet

Orders of magnitude are built from orders of the parts of a term, and to evaluate a term again is
to build it from its evaluated arguments.
-/

namespace Majorant
open Term Outcome

variable {A : Alphabet} {a b e t : Term} {as ts : List Term} {h : Head}

namespace Magnitude

theorem over_unit : unit.Over A := (over_quantity rfl).2 (List.forall_mem_singleton.2 (.num _))

theorem over_undefined : undefined.Over A := (over_quantity rfl).2 (List.forall_mem_nil _)

theorem over_thetaOf (ht : t.Over A) : (app .theta [t]).Over A :=
  (over_quantity rfl).2 (List.forall_mem_singleton.2 ht)

theorem over_of_mem_spread (hts : ∀ t ∈ ts, t.Over A) : ∀ t ∈ spread h ts, t.Over A :=
  Statement.over_of_mem_flatten hts

theorem over_extremum (hh : h.isQuantity = true) (hts : ∀ t ∈ ts, t.Over A) : (extremum h ts).Over A := by
  have hdistinct : ∀ t ∈ ts.eraseDups, t.Over A := fun t ht => hts t (List.mem_eraseDups.1 ht)
  unfold extremum
  split
  · rename_i heq
    exact hdistinct _ (by simp [heq])
  · exact (over_quantity hh).2 hdistinct

theorem over_join (hts : ∀ t ∈ ts, t.Over A) : (join ts).Over A := over_extremum rfl (over_of_mem_spread hts)

theorem over_meet (hts : ∀ t ∈ ts, t.Over A) : (meet ts).Over A := over_extremum rfl (over_of_mem_spread hts)

theorem over_rawTimes (hts : ∀ t ∈ ts, t.Over A) : (rawTimes ts).Over A := by
  unfold rawTimes
  split
  · exact over_unit
  · exact hts _ (by simp)
  · exact (over_quantity rfl).2 hts

theorem over_baseExponent (ht : t.Over A) : (baseExponent t).1.Over A ∧ (baseExponent t).2.Over A := by
  unfold baseExponent
  split
  · exact ⟨ht.args _ (by simp), ht.args _ (by simp)⟩
  · exact ⟨ht, .num _⟩

def OverFactors (A : Alphabet) (ps : List (Term × Term)) : Prop := ∀ p ∈ ps, p.1.Over A ∧ p.2.Over A

theorem OverFactors.gather {ps : List (Term × Term)} (hps : OverFactors A ps) (ht : t.Over A) :
    OverFactors A (gather ps t) := by
  unfold Magnitude.gather
  have hparts := over_baseExponent ht
  revert hparts
  generalize baseExponent t = p
  obtain ⟨b, e⟩ := p
  rintro ⟨hb, he⟩
  dsimp only at hb he ⊢
  split_ifs
  · exact hps
  · refine List.forall_mem_map.2 fun p hp => ?_
    split
    · exact ⟨hb, over_sum (over_pair (hps p hp).2 he)⟩
    · exact hps p hp
  · exact List.forall_mem_append.2 ⟨hps, List.forall_mem_singleton.2 ⟨hb, he⟩⟩

theorem overFactors_gathered (hts : ∀ t ∈ ts, t.Over A) :
    OverFactors A ((spread .orderMul ts).foldl gather []) :=
  List.foldlRecOn (motive := OverFactors A) _ _ (List.forall_mem_nil _) fun _ hps t ht =>
    hps.gather (over_of_mem_spread hts t ht)

theorem over_orderPow (hb : b.Over A) (he : e.Over A) : (app .orderPow [b, e]).Over A :=
  (over_quantity rfl).2 (over_pair hb he)

theorem over_rawPower (hb : b.Over A) (he : e.Over A) : (rawPower b e).Over A :=
  over_ite over_unit (over_ite hb (over_ite over_unit (over_orderPow hb he)))

theorem over_times (hts : ∀ t ∈ ts, t.Over A) : (times ts).Over A := by
  refine over_rawTimes (List.forall_mem_map.2 fun p hp => ?_)
  have hfactor := overFactors_gathered hts p (List.mem_of_mem_filter hp)
  exact over_rawPower hfactor.1 hfactor.2

theorem over_refreshWith {raise : Term → Term → Term}
    (hraise : ∀ b e, b.Over A → e.Over A → (raise b e).Over A) (ht : t.Over A) :
    (refreshWith raise t).Over A := by
  unfold refreshWith
  split
  · exact over_join ht.args
  · exact over_meet ht.args
  · exact over_times ht.args
  · exact hraise _ _ (ht.args _ (by simp)) (ht.args _ (by simp))
  · exact ht

theorem over_raiseFactorWith {raise : Term → Term → Term}
    (hraise : ∀ b e, b.Over A → e.Over A → (raise b e).Over A) (ht : t.Over A) (he : e.Over A) :
    (raiseFactorWith raise t e).Over A :=
  over_refreshWith hraise (over_rawPower (over_refreshWith hraise ht) he)

theorem over_raiseAux (n : ℕ) : ∀ b e, b.Over A → e.Over A → (raiseAux n b e).Over A := by
  induction n with
  | zero => exact fun _ _ => over_orderPow
  | succ n ih =>
    intro b e hb he
    unfold raiseAux
    split
    · rename_i c f rest
      have hg : (product [e, f]).Over A := over_product (over_pair he (hb.args f (by simp)))
      exact over_refreshWith ih (over_refreshWith ih (over_rawPower (hb.args c (by simp)) hg))
    · exact over_times (List.forall_mem_map.2 fun a ha => over_raiseFactorWith ih (hb.args a ha) he)
    · exact over_orderPow hb he

theorem over_raise (hb : b.Over A) (he : e.Over A) : (raise b e).Over A :=
  over_ite over_unit (over_ite hb (over_ite over_unit (over_raiseAux _ b e hb he)))

theorem over_ofPositive (ht : t.Over A) : (ofPositive t).Over A := by
  induction t using args_induction with
  | step t ih =>
    have hself := over_thetaOf ht
    have hargs : ∀ s ∈ ofPositiveList t.args, s.Over A := by
      rw [ofPositiveList_eq_map]
      exact List.forall_mem_map.2 fun a ha => ih a ha (over_of_mem_args ht a ha)
    unfold ofPositive
    refine over_ite ht (over_ite over_unit ?_)
    split
    · exact over_ite (over_join hargs) hself
    · exact over_ite (over_join hargs) hself
    · exact over_ite (over_times hargs) hself
    · rename_i b e
      have hb := ih b (by simp [args]) (ht.args b (by simp))
      exact over_ite (over_raise hb (ht.args e (by simp))) hself
    · exact hself

theorem staysOver_warn (text : String) : (warn text).StaysOver A :=
  yields_bind fun _ => yields_pure over_undefined

theorem staysOver_theta (ht : t.Over A) : (theta t).StaysOver A := by
  unfold theta
  split
  · exact yields_fail _
  · exact yields_ite (yields_pure over_unit) (staysOver_warn _)
  · refine (staysOver_ofLiteral ht).bind fun s hs => ?_
    exact yields_ite (yields_fail _) (yields_ite (yields_pure hs)
      (yields_ite (yields_pure (over_ofPositive hs)) (staysOver_warn _)))

theorem overAll_theta (hts : ∀ t ∈ ts, t.Over A) : (ts.mapM theta).Yields fun os => ∀ o ∈ os, o.Over A :=
  yields_mapM fun t ht => staysOver_theta (hts t ht)

theorem staysOver_extremal {name : String} (hh : h.isQuantity = true) (hts : ∀ t ∈ ts, t.Over A) :
    (extremal h name ts).StaysOver A := by
  refine (overAll_theta hts).bind fun os hos => ?_
  split
  · exact yields_bind fun _ => yields_pure over_undefined
  · exact yields_pure (over_extremum hh hos)

theorem staysOver_largest (hts : ∀ t ∈ ts, t.Over A) : (largest ts).StaysOver A :=
  staysOver_extremal rfl hts

theorem staysOver_smallest (hts : ∀ t ∈ ts, t.Over A) : (smallest ts).StaysOver A :=
  staysOver_extremal rfl hts

theorem staysOver_multiply (hts : ∀ t ∈ ts, t.Over A) : (multiply ts).StaysOver A :=
  (overAll_theta hts).bind fun _ hos => yields_pure (over_rawTimes hos)

theorem staysOver_toPower (hts : ∀ t ∈ ts, t.Over A) : (toPower ts).StaysOver A := by
  unfold toPower
  split
  · rename_i b e
    refine (staysOver_ofLiteral (hts b (by simp))).bind fun b' hb' => ?_
    refine (staysOver_ofLiteral (hts e (by simp))).bind fun e' he' => ?_
    refine yields_ite (yields_fail _) (yields_ite ?_ (yields_ite ?_ ?_))
    · exact yields_bind fun _ => yields_pure over_undefined
    · exact yields_bind fun _ => yields_pure over_undefined
    · exact yields_pure (over_rawPower hb' he')
  · exact yields_bind fun _ => yields_pure over_undefined

theorem staysOver_multiplyGathered (hts : ∀ t ∈ ts, t.Over A) : (multiplyGathered ts).StaysOver A := by
  unfold multiplyGathered
  refine yields_ite (yields_pure (over_times hts)) ?_
  refine Yields.bind (P := fun parts => ∀ t ∈ parts, t.Over A) (yields_mapM fun p hp => ?_)
    fun parts hparts => ?_
  · have hfactor := overFactors_gathered hts p (List.mem_of_mem_filter hp)
    exact yields_ite (yields_pure hfactor.1) (staysOver_toPower (over_pair hfactor.1 hfactor.2))
  · split
    · exact yields_pure over_unit
    · exact yields_pure (hparts _ (by simp))
    · exact staysOver_multiply hparts

theorem staysOver_toPowerSpread (hb : b.Over A) (he : e.Over A) : (toPowerSpread b e).StaysOver A := by
  unfold toPowerSpread
  split
  · rename_i as
    refine yields_ite (yields_pure (over_raise hb he)) ?_
    refine Yields.bind (P := fun ts => ∀ t ∈ ts, t.Over A) (yields_mapM fun a ha => ?_)
      fun ts hts => ?_
    · have ha := hb.args a ha
      have hfactor := over_raiseFactorWith (fun _ _ => over_raise) ha he
      exact yields_ite (yields_pure hfactor) (yields_pure (over_power ha he))
    · exact (overAll_theta hts).bind fun os hos => staysOver_multiplyGathered hos
  · exact yields_pure (over_raise hb he)

theorem staysOver_interaction (hts : ∀ t ∈ ts, t.Over A) : (interaction ts).StaysOver A := by
  unfold interaction
  split
  · exact yields_fail _
  · exact yields_fail _
  · refine (staysOver_theta (hts _ (by simp))).bind fun a ha => ?_
    exact (staysOver_theta (hts _ (by simp))).bind fun b hb => Statement.staysOver_relate _ ha hb
  · rename_i hnil _ _
    refine ((overAll_theta hts).and yields_mapM_length).bind fun os hos => yields_pure ?_
    refine (over_app_of_ne (by simp) ?_).2 hos.1
    rintro rfl
    exact hnil (List.eq_nil_of_length_eq_zero hos.2.symm)

theorem overAll_interactionCases (hts : ∀ t ∈ ts, t.Over A) :
    (interactionCases ts).Yields fun cs => ∀ c ∈ cs, c.Over A := by
  refine yields_mapM fun i _ => ?_
  refine (staysOver_largest fun t ht => hts t (List.mem_of_mem_eraseIdx ht)).bind fun o ho => ?_
  refine Statement.staysOver_relate _ ?_ ho
  rw [List.getD_eq_getElem?_getD]
  cases hi : ts[i]? with
  | none => exact over_undefined
  | some t => exact hts t (List.mem_of_getElem? hi)

end Magnitude

namespace Evaluation

theorem overAll_ofLiteral (hts : ∀ t ∈ ts, t.Over A) :
    (ts.mapM ofLiteral).Yields fun us => ∀ u ∈ us, u.Over A :=
  yields_mapM fun t ht => staysOver_ofLiteral (hts t ht)

theorem staysOver_addAll (hts : ∀ t ∈ ts, t.Over A) : (addAll ts).StaysOver A := by
  refine (overAll_ofLiteral hts).bind fun us hus => ?_
  have hsum := over_sum hus
  refine yields_ite (yields_pure hsum) (yields_ite (yields_fail _) (yields_ite ?_ (yields_pure hsum)))
  exact yields_bind fun _ => yields_bind fun _ => yields_fail _

theorem staysOver_apply (happ : (app h as).Over A) : (apply h as).StaysOver A := by
  have has := happ.args
  unfold apply
  split
  · exact Statement.staysOver_relate _ (has _ (by simp)) (has _ (by simp))
  · exact Statement.staysOver_conj has
  · exact Statement.staysOver_disj has
  · exact Statement.staysOver_not (has _ (by simp))
  · exact Magnitude.staysOver_theta (has _ (by simp))
  · exact Magnitude.staysOver_largest has
  · exact Magnitude.staysOver_smallest has
  · exact Magnitude.staysOver_multiply has
  · exact Magnitude.staysOver_toPower has
  · exact Magnitude.staysOver_interaction has
  · refine (overAll_ofLiteral has).bind fun us hus => ?_
    exact yields_ite (yields_fail _) (staysOver_extremum hus)
  · refine (overAll_ofLiteral has).bind fun us hus => ?_
    exact yields_ite (yields_fail _) (staysOver_extremum hus)
  · exact staysOver_addAll has
  · refine (overAll_ofLiteral has).bind fun us hus => ?_
    exact yields_ite (yields_fail _) (yields_pure (over_product hus))
  · refine (staysOver_ofLiteral (has _ (by simp))).bind fun b hb => ?_
    refine (staysOver_ofLiteral (has _ (by simp))).bind fun e he => ?_
    exact yields_ite (yields_fail _) (yields_pure (over_power hb he))
  · refine (staysOver_ofLiteral (has _ (by simp))).bind fun t ht => ?_
    exact yields_ite (yields_fail _) (yields_pure (over_absolute ht))
  · exact yields_pure happ

theorem staysOver_apply_of_length (happ : (app h as).Over A) (hlength : ts.length = as.length)
    (hts : ∀ t ∈ ts, t.Over A) : (apply h ts).StaysOver A := by
  obtain ⟨parts, mark, -⟩ := over_app.1 happ
  refine staysOver_apply (.app (fun hnil => parts ?_) mark hts)
  exact List.eq_nil_of_length_eq_zero (by rw [← hlength, hnil, List.length_nil])

theorem staysOver_settle (ht : t.Over A) : (settle t).StaysOver A := by
  induction t using args_induction with
  | step t ih =>
    unfold settle
    split
    · exact yields_fail _
    · exact Magnitude.staysOver_largest (Magnitude.over_of_mem_spread ht.args)
    · exact Magnitude.staysOver_smallest (Magnitude.over_of_mem_spread ht.args)
    · exact Magnitude.staysOver_multiplyGathered ht.args
    · exact Magnitude.staysOver_toPowerSpread (ht.args _ (by simp)) (ht.args _ (by simp))
    · rw [Calculus.settleList_eq_mapM]
      refine Yields.bind ((yields_mapM fun a ha => ih a ha (ht.args a ha)).and yields_mapM_length) ?_
      exact fun bs hbs => staysOver_apply_of_length ht hbs.2 hbs.1
    · exact yields_pure ht

end Evaluation

namespace Operation

theorem over_writtenResult (a b : Term) (q : Rat) : (writtenResult a b q).Over A := by
  unfold writtenResult
  split <;> exact .lit nofun

theorem over_difference (ha : a.Over A) (hb : b.Over A) : (app .difference [a, b]).Over A :=
  (over_quantity rfl).2 (over_pair ha hb)

theorem staysOver_neg (ht : t.Over A) : (neg t).StaysOver A := by
  unfold neg
  split
  · exact yields_pure (over_writtenResult _ _ _)
  · refine yields_ite (yields_pure (over_difference (.lit nofun) ht)) ?_
    exact yields_ite (yields_ite (yields_fail _) (yields_pure (over_neg ht))) (yields_fail _)

theorem staysOver_binary (hh : h.isQuantity = true) (ha : a.Over A) (hb : b.Over A) :
    (Evaluation.apply h [a, b]).StaysOver A :=
  Evaluation.staysOver_apply ((over_quantity hh).2 (over_pair ha hb))

theorem staysOver_pow (ha : a.Over A) (hb : b.Over A) : (pow a b).StaysOver A := by
  unfold pow
  refine yields_ite ?_ (yields_ite (yields_pure Magnitude.over_undefined)
    (yields_ite (yields_fail _) (staysOver_binary rfl ha hb)))
  exact (Magnitude.staysOver_toPower (over_pair ha hb)).bind fun _ ht => Evaluation.staysOver_settle ht

theorem staysOver_multiplied (ha : a.Over A) (hb : b.Over A) :
    (do Evaluation.settle (← Magnitude.multiply [a, b])).StaysOver A :=
  (Magnitude.staysOver_multiply (over_pair ha hb)).bind fun _ ht => Evaluation.staysOver_settle ht

theorem staysOver_add (ha : a.Over A) (hb : b.Over A) : (add a b).StaysOver A := by
  unfold add
  split
  · exact yields_pure (over_writtenResult _ _ _)
  · refine yields_ite ?_ (yields_ite (yields_fail _) (Evaluation.staysOver_addAll (over_pair ha hb)))
    exact (Magnitude.staysOver_largest (over_pair ha hb)).bind fun _ ht =>
      Evaluation.staysOver_settle ht

theorem staysOver_mul (ha : a.Over A) (hb : b.Over A) : (mul a b).StaysOver A := by
  unfold mul
  split
  · exact yields_pure (over_writtenResult _ _ _)
  · exact yields_ite (staysOver_multiplied ha hb)
      (yields_ite (yields_fail _) (staysOver_binary rfl ha hb))

theorem staysOver_reciprocal (ht : t.Over A) : (reciprocal t).StaysOver A := by
  unfold reciprocal
  split
  · exact yields_bind fun _ => yields_ite (yields_fail _) (yields_pure (.lit nofun))
  · exact yields_ite (yields_fail _) (yields_pure (.lit nofun))
  · exact staysOver_pow ht (.num _)

theorem staysOver_div (ha : a.Over A) (hb : b.Over A) : (div a b).StaysOver A := by
  unfold div
  refine yields_ite ?_ (yields_ite ?_ (yields_ite (yields_fail _) ?_))
  · exact (staysOver_reciprocal hb).bind fun c hc => staysOver_multiplied ha hc
  · exact (staysOver_pow hb (.num _)).bind fun c hc => staysOver_multiplied ha hc
  · refine (staysOver_binary rfl hb (.num _)).bind fun c hc => ?_
    exact yields_ite (yields_pure hc) (staysOver_binary rfl ha hc)

theorem staysOver_compare (r : Rel) (ha : a.Over A) (hb : b.Over A) : (compare r a b).StaysOver A := by
  unfold compare
  split
  · exact yields_pure (.lit nofun)
  · refine yields_ite ?_ (yields_ite ?_ (yields_ite (yields_ite (yields_fail _) ?_)
      (yields_ite (yields_fail _) ?_)))
    · exact (Magnitude.staysOver_theta hb).bind fun c hc => Statement.staysOver_relate r ha hc
    · split
      · exact yields_fail _
      · exact (Magnitude.staysOver_theta ha).bind fun c hc => Statement.staysOver_relate _ hb hc
    · exact Statement.staysOver_relate _ hb ha
    · exact Statement.staysOver_relate r ha hb

end Operation

namespace Statement

/-- The parts of a statement are over the alphabet, if it has parts. -/
abbrev Parts (A : Alphabet) (x : Outcome (Option (List Term))) : Prop :=
  x.Yields fun ts => ∀ us ∈ ts, ∀ u ∈ us, u.Over A

theorem parts_some {x : Outcome (List Term)} (hx : x.Yields fun us => ∀ u ∈ us, u.Over A) :
    Parts A (do return some (← x)) := by
  refine hx.bind fun us hus => yields_pure ?_
  rintro _ ⟨⟩
  exact hus

theorem parts_args (ht : (app h as).Over A) : Parts A (pure (some as)) := by
  refine yields_pure ?_
  rintro _ ⟨⟩
  exact ht.args

theorem parts_none : Parts A (pure none) := yields_pure nofun

theorem parts_eachRight (r : Rel) (ha : a.Over A) (hts : ∀ t ∈ ts, t.Over A) :
    Parts A (eachRight r a ts) :=
  parts_some (yields_mapM fun b hb => staysOver_relate r ha (hts b hb))

theorem parts_eachLeft (r : Rel) (hts : ∀ t ∈ ts, t.Over A) (hb : b.Over A) :
    Parts A (eachLeft r ts b) :=
  parts_some (yields_mapM fun a ha => staysOver_relate r (hts a ha) hb)

theorem parts_attained (r : Rel) (ha : a.Over A) (hts : ∀ t ∈ ts, t.Over A) :
    Parts A (attained r a ts) := by
  refine Yields.bind (P := fun ps : List (Term × Term) => ∀ p ∈ ps, p.1.Over A ∧ p.2.Over A)
    (yields_mapM fun b hb => ?_) fun ps hps => ?_
  · refine (Operation.staysOver_compare r ha (hts b hb)).bind fun c hc => ?_
    exact (staysOver_relate _ ha (hts b hb)).bind fun e he => yields_pure ⟨hc, he⟩
  · refine (staysOver_disj (List.forall_mem_map.2 fun p hp => (hps p hp).2)).bind fun d hd =>
      yields_pure ?_
    rintro _ ⟨⟩
    exact over_concat (List.forall_mem_map.2 fun p hp => (hps p hp).1) hd

theorem over_of_asMaximum? (ht : t.Over A) (hts : asMaximum? t = some ts) : ∀ s ∈ ts, s.Over A := by
  unfold asMaximum? at hts
  split at hts <;> cases hts <;> exact ht.args

theorem over_of_asMinimum? (ht : t.Over A) (hts : asMinimum? t = some ts) : ∀ s ∈ ts, s.Over A := by
  unfold asMinimum? at hts
  split at hts <;> cases hts <;> exact ht.args

theorem over_of_asExtremum? {c : Bool} (ht : t.Over A) :
    (∀ bs ∈ (if c then asMinimum? t else asMaximum? t), ∀ s ∈ bs, s.Over A) ∧
      ∀ bs ∈ (if c then asMaximum? t else asMinimum? t), ∀ s ∈ bs, s.Over A := by
  cases c with
  | false => exact ⟨fun bs hbs => over_of_asMaximum? ht hbs, fun bs hbs => over_of_asMinimum? ht hbs⟩
  | true => exact ⟨fun bs hbs => over_of_asMinimum? ht hbs, fun bs hbs => over_of_asMaximum? ht hbs⟩

theorem parts_conjuncts (ht : t.Over A) : Parts A (conjuncts t) := by
  unfold conjuncts
  split
  · exact parts_args ht
  · rename_i a b
    have ha := ht.args a (by simp)
    have hb := ht.args b (by simp)
    split
    · exact parts_attained _ ha (over_of_asMaximum? hb ‹_›)
    · exact parts_attained _ ha (over_of_asMinimum? hb ‹_›)
    · exact parts_none
  · exact parts_none
  · rename_i r a b _ _
    have ha := ht.args a (by simp)
    have hb := ht.args b (by simp)
    extract_lets upward right left
    have hright : ∀ bs ∈ right, ∀ s ∈ bs, s.Over A := (over_of_asExtremum? hb).1
    have hleft : ∀ as ∈ left, ∀ s ∈ as, s.Over A := (over_of_asExtremum? ha).2
    clear_value right left
    split
    · exact parts_eachRight r ha (hright _ rfl)
    · exact parts_eachLeft r (hleft _ rfl) hb
    · exact parts_none
  · exact parts_none

theorem parts_disjuncts (ht : t.Over A) : Parts A (disjuncts t) := by
  unfold disjuncts
  split
  · exact parts_args ht
  · exact parts_none
  · exact parts_none
  · rename_i r a b _ _
    have ha := ht.args a (by simp)
    have hb := ht.args b (by simp)
    extract_lets upward right left
    have hright : ∀ bs ∈ right, ∀ s ∈ bs, s.Over A := (over_of_asExtremum? hb).2
    have hleft : ∀ as ∈ left, ∀ s ∈ as, s.Over A := (over_of_asExtremum? ha).1
    clear_value right left
    split
    · exact parts_eachRight r ha (hright _ rfl)
    · exact parts_eachLeft r (hleft _ rfl) hb
    · exact parts_none
  · exact parts_some (Magnitude.overAll_interactionCases ht.args)
  · exact parts_none

end Statement
end Majorant
