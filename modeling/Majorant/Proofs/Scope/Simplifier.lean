import Majorant.Proofs.Scope.Evaluation
import Majorant.Proofs.Simplifier.Reduce

/-!
# Substitution and simplification over an alphabet

What takes the place of a term is over the alphabet if the replacement is; a variable that is replaced
everywhere does not occur any more.
-/

namespace Majorant
open Term Outcome

variable {A B : Alphabet} {a b e t old new : Term} {as ts hyps : List Term} {h : Head}

namespace Substitution

theorem over_splitConstant (ht : t.Over A) : (splitConstant t).2.Over A := by
  unfold splitConstant
  split
  · exact .num _
  · exact over_ofSummands fun s hs => ht.args s (List.mem_cons_of_mem _ hs)
  · exact ht

theorem over_of_inSum? {m : SumMatch} (ht : t.Over A) (hm : inSum? t old = some m) :
    ∀ s ∈ m.rest, s.Over A := by
  unfold inSum? at hm
  split at hm
  · have hinside := over_of_mem_summands (over_splitConstant ht)
    revert hinside hm
    generalize splitConstant _ = p
    obtain ⟨c, us⟩ := p
    intro hm hinside
    dsimp only at hm hinside
    split_ifs at hm <;> cases hm
    · exact List.forall_mem_nil _
    · exact List.forall_mem_nil _
    · exact fun s hs => hinside s (List.mem_of_mem_filter hs)
    · exact fun s hs => hinside s (List.mem_of_mem_filter hs)
  · cases hm

theorem over_rationalPowerOf (ht : t.Over A) : (rationalPowerOf t).1.Over A := by
  unfold rationalPowerOf
  split
  · rename_i b e
    exact over_power (ht.args b (by simp)) (over_splitCoeff (ht.args e (by simp)))
  · exact ht

theorem over_of_mem_breakUp (ht : t.Over A) : ∀ p ∈ breakUp t, p.1.Over A := by
  refine List.foldlRecOn (motive := fun ps : List (Term × Rat) => ∀ p ∈ ps, p.1.Over A) _ _
    (List.forall_mem_nil _) fun ps hps f hf => ?_
  have hbase := over_rationalPowerOf (over_of_mem_factors ht f hf)
  revert hbase
  generalize rationalPowerOf f = q
  obtain ⟨b, e⟩ := q
  intro hb
  dsimp only at hb ⊢
  split
  · refine List.forall_mem_map.2 fun p hp => ?_
    split
    · exact hb
    · exact hps p hp
  · exact List.forall_mem_append.2 ⟨hps, List.forall_mem_singleton.2 hb⟩

theorem over_rejoin (hb : b.Over A) (q : Rat) : (rejoin b q).Over A := by
  unfold rejoin
  split
  · exact over_power (hb.args _ (by simp)) (over_product (over_pair (hb.args _ (by simp)) (.num _)))
  · exact over_power hb (.num _)

theorem over_of_mem_splitCoefficient (ht : t.Over A) : ∀ p ∈ (splitCoefficient t old).1, p.1.Over A := by
  have hbreak := over_of_mem_breakUp ht
  unfold splitCoefficient
  split
  · dsimp only
    split
    · refine List.forall_mem_append.2 ⟨fun p hp => hbreak p (List.mem_of_mem_filter hp), ?_⟩
      exact List.forall_mem_singleton.2 (.num _)
    · exact hbreak
  · exact hbreak

theorem over_of_inProduct? {m : ProductMatch} (ht : t.Over A) (hm : inProduct? t old = some m) :
    (∀ p ∈ m.left, p.1.Over A) ∧ ∀ p ∈ m.others, p.1.Over A := by
  have hinside : ∀ p ∈ (splitCoefficient t old).1, p.1.Over A := over_of_mem_splitCoefficient ht
  unfold inProduct? at hm
  revert hinside hm
  generalize splitCoefficient t old = p
  obtain ⟨inside, coeff⟩ := p
  intro hm hinside
  dsimp only at hm hinside
  split at hm
  · cases hm
  · split at hm
    · cases hm
    · split at hm
      · cases hm
      · cases hm
        refine ⟨?_, fun p hp => hinside p (List.mem_of_mem_filter hp)⟩
        rintro p hp
        obtain ⟨q, hq, hp⟩ := List.mem_filterMap.1 hp
        obtain ⟨w, -, rfl⟩ := Option.map_eq_some_iff.1 hp
        exact hinside q hq

theorem over_of_inPower? (hm : inPower? t old = some e) : e.Over A := by
  unfold inPower? at hm
  split at hm
  · dsimp only at hm
    split_ifs at hm
    cases hm
    exact .num _
  · cases hm

theorem over_of_mem_connectiveMembers {settles : Bool} (hnew : new.Over A) (hts : ∀ t ∈ ts, t.Over A) :
    ∀ t ∈ connectiveMembers h settles old new ts, t.Over A := by
  have hkept : ∀ t ∈ ts.filter (· ≠ truth (!settles)), t.Over A := fun t ht =>
    hts t (List.mem_of_mem_filter ht)
  unfold connectiveMembers
  dsimp only
  split
  · split
    · exact over_concat (fun t ht => hkept t (List.mem_of_mem_filter ht)) hnew
    · exact hkept
  · exact hkept

theorem staysOver_inArguments {f : Term → Outcome Term} (hloose : A.loose → B.loose)
    (hmark : A.declarations → B.declarations) (happ : (app h as).Over A)
    (hf : ∀ a ∈ as, (f a).StaysOver B) :
    (do
      let bs ← as.mapM fun a => match a with
        | lit _ => pure a
        | _ => f a
      if bs = as then return app h as else Evaluation.apply h bs).StaysOver B := by
  obtain ⟨parts, mark, args⟩ := over_app.1 happ
  refine Yields.bind (P := fun bs => bs.length = as.length ∧ ∀ b ∈ bs, b.Over B)
    (yields_mapM_length.and (yields_mapM fun a ha => ?_)) fun bs hbs => ?_
  · split
    · rename_i l
      exact yields_pure (.lit fun hl => hloose (over_lit.1 (args _ ha) hl))
    · exact hf a ha
  · have hnil : bs = [] → as = [] := fun hnil =>
      List.eq_nil_of_length_eq_zero (by rw [← hbs.1, hnil, List.length_nil])
    have happ : (app h bs).Over B :=
      .app (fun hbs hh => hloose (parts (hnil hbs) hh)) (fun hh => hmark (mark hh)) hbs.2
    split
    · rename_i heq
      exact yields_pure (heq ▸ happ)
    · exact Evaluation.staysOver_apply happ

theorem staysOver_inProduct {f : Term → Outcome Term} {m : ProductMatch} (hnew : new.Over A)
    (ht : t.Over A) (hm : inProduct? t old = some m) (hf : ∀ b, b.Over A → (f b).StaysOver A) :
    (do
      let others ← m.others.mapM fun (b, e) => do
        let b' ← f b
        return rejoin b' e
      let news ← Operation.pow new (num m.count)
      Evaluation.apply .mul
        (num m.coeff :: news :: m.left.map (fun (b, e) => rejoin b e) ++ others)).StaysOver A := by
  obtain ⟨hleft, hothers⟩ := over_of_inProduct? ht hm
  refine Yields.bind (P := fun os => ∀ o ∈ os, o.Over A) (yields_mapM fun p hp => ?_) fun os hos => ?_
  · exact (hf p.1 (hothers p hp)).bind fun b' hb' => yields_pure (over_rejoin hb' _)
  · refine (Operation.staysOver_pow hnew (.num _)).bind fun news hnews => ?_
    refine Evaluation.staysOver_apply ((over_quantity rfl).2 ?_)
    have hfactors := List.forall_mem_map.2 fun p hp => over_rejoin (hleft p hp) p.2
    exact List.forall_mem_append.2 ⟨List.forall_mem_cons.2 ⟨.num _,
      List.forall_mem_cons.2 ⟨hnews, hfactors⟩⟩, hos⟩

theorem staysOver_replaceAux {n : Nat} (hnew : new.Over A) (ht : t.Over A) :
    (replaceAux n old new t).StaysOver A := by
  induction n generalizing old new t with
  | zero => exact yields_pure ht
  | succ n ih =>
    unfold replaceAux
    refine yields_ite (yields_pure hnew) ?_
    extract_lets inArguments
    have hargs : ∀ h as, t = app h as → (inArguments h as).StaysOver A := by
      rintro h as rfl
      exact staysOver_inArguments id id ht fun a ha => ih hnew (ht.args a ha)
    clear_value inArguments
    split
    · split
      · rename_i m hm
        refine Yields.bind (yields_mapM fun s hs => ih hnew (over_of_inSum? ht hm s hs)) fun rest hrest => ?_
        have hsum : ∀ new', new'.Over A →
            (Evaluation.addAll ([new', num m.constant] ++ rest)).StaysOver A := fun new' hnew' =>
          Evaluation.staysOver_addAll (List.forall_mem_append.2 ⟨over_pair hnew' (.num _), hrest⟩)
        refine yields_ite (Yields.bind (yields_pure hnew) hsum) ?_
        exact (Operation.staysOver_neg hnew).bind hsum
      · exact hargs _ _ rfl
    · split
      · refine yields_ite ?_ (yields_ite (hargs _ _ rfl) ?_)
        · exact (Operation.staysOver_neg hnew).bind fun new' hnew' => ih hnew' ht
        · -- Numerator and denominator come first, then the part of the product.
          have hparts := over_splitFraction (over_of_mem_factors ht)
          unfold numerDenom
          revert hparts
          generalize splitFraction _ = p
          obtain ⟨top, bottom⟩ := p
          rintro ⟨htop, hbottom⟩
          extract_lets whole
          have hwhole : ∀ t', t'.Over A → (whole t').StaysOver A := by
            intro t' ht'
            unfold whole
            split
            · split
              · rename_i m hm
                exact staysOver_inProduct hnew ht' hm fun b hb => ih hnew hb
              · exact yields_ite (hargs _ _ rfl) (yields_pure ht')
            · exact ih hnew ht'
          clear_value whole
          refine yields_ite (Yields.bind (yields_pure ht) hwhole) ?_
          refine (ih hnew (over_product htop)).bind fun top' htop' => ?_
          refine (ih hnew (over_product hbottom)).bind fun bottom' hbottom' => ?_
          exact (Operation.staysOver_div htop' hbottom').bind hwhole
      · exact hargs _ _ rfl
    · rename_i b e
      have hb := ht.args b (by simp)
      have he := ht.args e (by simp)
      refine yields_ite ?_ ?_
      · exact (ih hnew he).bind fun e' he' => Operation.staysOver_pow hnew he'
      · split
        · rename_i k hk
          exact Operation.staysOver_pow hnew (over_of_inPower? hk)
        · exact hargs _ _ rfl
    · refine Yields.bind (yields_mapM fun a ha => ih hnew (ht.args a ha)) fun bs hbs => ?_
      refine yields_ite (yields_pure (.truth _)) ?_
      exact Statement.staysOver_conj (over_of_mem_connectiveMembers hnew hbs)
    · refine Yields.bind (yields_mapM fun a ha => ih hnew (ht.args a ha)) fun bs hbs => ?_
      refine yields_ite (yields_pure (.truth _)) ?_
      exact Statement.staysOver_disj (over_of_mem_connectiveMembers hnew hbs)
    · exact hargs _ _ rfl
    · exact yields_pure ht

theorem staysOver_replace (hnew : new.Over A) (ht : t.Over A) : (replace old new t).StaysOver A :=
  yields_ite (yields_pure ht) (staysOver_replaceAux hnew ht)

theorem size_lt_of_mem (ha : a ∈ as) : a.size < (app h as).size := by
  have hle : a.size ≤ sizeList as := by
    induction as with
    | nil => cases ha
    | cons b as ih =>
      rw [sizeList]
      rcases List.mem_cons.1 ha with rfl | ha
      · omega
      · have := ih ha
        omega
  rw [size]
  omega

variable {v : Variable}

theorem staysOver_replaceAux_var {n : Nat} (hletters : ∀ u, A.letters u → u ≠ v → B.letters u)
    (hloose : A.loose → B.loose) (hmark : A.declarations → B.declarations) (hnew : new.Over B)
    (ht : t.Over A) (hn : t.size ≤ n) : (replaceAux n (var v) new t).StaysOver B := by
  induction n generalizing t with
  | zero =>
    cases t <;> simp [size] at hn
  | succ n ih =>
    unfold replaceAux
    split
    · exact yields_pure hnew
    rename_i hne
    extract_lets inArguments
    have harg : ∀ h as, t = app h as → ∀ a ∈ as, (replaceAux n (var v) new a).StaysOver B := by
      rintro h as rfl a ha
      have := size_lt_of_mem (h := h) ha
      exact ih (ht.args a ha) (by omega)
    have hargs : ∀ h as, t = app h as → (inArguments h as).StaysOver B := by
      rintro h as rfl
      exact staysOver_inArguments hloose hmark ht (harg h as rfl)
    clear_value inArguments
    split
    · exact hargs _ _ rfl
    · exact hargs _ _ rfl
    · rename_i b e
      refine yields_ite ?_ (hargs _ _ rfl)
      exact (harg _ _ rfl e (by simp)).bind fun e' he' => Operation.staysOver_pow hnew he'
    · refine Yields.bind (yields_mapM (harg _ _ rfl)) fun bs hbs => ?_
      refine yields_ite (yields_pure (.truth _)) ?_
      exact Statement.staysOver_conj fun b hb => hbs b (List.mem_of_mem_filter hb)
    · refine Yields.bind (yields_mapM (harg _ _ rfl)) fun bs hbs => ?_
      refine yields_ite (yields_pure (.truth _)) ?_
      exact Statement.staysOver_disj fun b hb => hbs b (List.mem_of_mem_filter hb)
    · exact hargs _ _ rfl
    · -- A leaf that is not the variable.
      rename_i hleaf
      refine yields_pure ?_
      cases ht with
      | lit h => exact .lit fun hl => hloose (h hl)
      | num q => exact .num q
      | special s => exact .special s
      | truth c => exact .truth c
      | var hu => exact .var (hletters _ hu fun heq => hne (heq ▸ rfl))
      | app => exact (hleaf _ _ rfl).elim

/-- **Replacing a variable.**  It does not occur any more. -/
theorem staysOver_replace_var (hletters : ∀ u, A.letters u → u ≠ v → B.letters u)
    (hloose : A.loose → B.loose) (hmark : A.declarations → B.declarations) (hnew : new.Over B)
    (ht : t.Over A) : (replace (var v) new t).StaysOver B := by
  unfold replace
  split
  · rename_i heq
    subst heq
    refine yields_pure (ht.mono (fun u hu => ?_) hloose hmark)
    by_cases huv : u = v
    · exact huv ▸ over_var.1 hnew
    · exact hletters u hu huv
  · exact staysOver_replaceAux_var hletters hloose hmark hnew ht (by omega)

end Substitution

namespace Simplifier

variable {goal : Term}

theorem staysOver_useHypotheses {call : Outcome Term} (hgoal : goal.Over A)
    (hcall : useHypotheses hyps goal = some call) : call.StaysOver A := by
  obtain ⟨k, -, hcomparison | hdomination⟩ := exists_of_useHypotheses hcall
  · obtain ⟨r, s, a, b, c, d, rfl, -, same, -, ⟨v, -, rfl⟩ | ⟨r', -, rfl⟩⟩ := useComparison_cases hcomparison
    · exact yields_pure (.truth v)
    · exact Statement.staysOver_relate r' (hgoal.args a (by simp)) (hgoal.args b (by simp))
  · obtain ⟨g, as, s, c, d, rfl, hextreme, hc, hd, hne, rfl, -⟩ := useDomination_cases hdomination
    obtain ⟨parts, mark, args⟩ := over_app.1 hgoal
    refine Evaluation.staysOver_apply
      (.app (fun hnil => ?_) mark fun a ha => args a (List.mem_of_mem_erase ha))
    exact absurd ((List.mem_erase_of_ne hne.symm).2 hd) (by rw [hnil]; exact List.not_mem_nil)

theorem staysOver_reduceHead (hgoal : goal.Over A) (has : ∀ a ∈ as, a.Over A)
    (hnil : as = [] → A.loose ∨ goal.args = []) : (reduceHead hyps as goal).StaysOver A := by
  refine yields_ite (yields_pure (.truth _)) ?_
  refine yields_bind fun opposite => yields_ite (yields_pure (.truth _)) ?_
  split
  · rename_i call hcall
    exact staysOver_useHypotheses hgoal hcall
  · refine yields_ite (yields_pure Magnitude.over_unit) ?_
    split
    · rename_i h b bs _
      obtain ⟨-, mark, -⟩ := over_app.1 hgoal
      have happ : (app h as).Over A := by
        refine .app (fun heq _ => ?_) mark has
        exact (hnil heq).resolve_right nofun
      exact (Evaluation.staysOver_apply happ).bind fun _ ht => Evaluation.staysOver_settle ht
    · exact yields_pure hgoal

theorem staysOver_reduce (hgoal : goal.Over A) : (reduce hyps goal).StaysOver A := by
  induction goal using args_induction with
  | step goal ih =>
    unfold reduce
    split
    · rename_i h as
      rw [reduceList_eq_mapM]
      refine Yields.bind ((yields_mapM fun a ha => ih a ha (hgoal.args a ha)).and yields_mapM_length)
        fun bs hbs => staysOver_reduceHead hgoal hbs.1 fun hnil => .inr ?_
      exact List.eq_nil_of_length_eq_zero (by rw [← hbs.2, hnil, List.length_nil])
    · exact yields_fail _
    · exact staysOver_reduceHead hgoal (List.forall_mem_nil _)
        fun _ => .inr (by cases goal <;> simp_all [args])

theorem overAll_reduceList (hts : ∀ t ∈ ts, t.Over A) :
    (reduceList hyps ts).Yields fun us => (∀ u ∈ us, u.Over A) ∧ us.length = ts.length := by
  rw [reduceList_eq_mapM]
  exact (yields_mapM fun t ht => staysOver_reduce (hts t ht)).and yields_mapM_length

theorem reduced_of_args_nil (hgoal : goal.Over A) (hnil : goal.args = []) :
    A.loose ∨ Statement.reduced goal = pure goal := by
  cases hgoal with
  | app parts =>
    rename_i h as _ _
    by_cases hh : h.isQuantity = true
    · refine .inr ?_
      cases h <;> first | rfl | cases hh
    · exact .inl (parts hnil (by simpa using hh))
  | _ => exact .inr rfl

theorem staysOver_reduceWith {thorough : Bool} (hgoal : goal.Over A) :
    (reduceWith thorough hyps goal).StaysOver A := by
  refine yields_ite (staysOver_reduce hgoal) ?_
  refine (overAll_reduceList (over_of_mem_args hgoal)).bind fun as has => ?_
  have hreduced : (Statement.reduced goal).Yields fun g => g.Over A ∧ (as = [] → A.loose ∨ g.args = []) := by
    refine (Statement.staysOver_reduced hgoal).and fun g hg hnil => ?_
    have hargs : goal.args = [] := List.eq_nil_of_length_eq_zero (by rw [← has.2, hnil, List.length_nil])
    rcases reduced_of_args_nil hgoal hargs with hloose | hself
    · exact .inl hloose
    · rw [hself] at hg
      cases hg
      exact .inr hargs
  refine hreduced.bind fun g hg => yields_bind fun _ => ?_
  exact staysOver_reduceHead hg.1 has.1 hg.2

theorem staysOver_absorbOnce (hgoal : goal.Over A) : (absorbOnce hyps goal).StaysOver A := by
  refine yields_foldlM hgoal fun g hg h _ => ?_
  refine yields_ite (yields_pure hg) ?_
  refine (Substitution.staysOver_replace (.truth _) hg).bind fun g' hg' => ?_
  split
  · exact Substitution.staysOver_replace (.truth _) hg'
  · exact yields_pure hg'

theorem staysOver_absorb {n : Nat} (hgoal : goal.Over A) : (absorb n hyps goal).StaysOver A := by
  induction n generalizing goal with
  | zero => exact yields_pure hgoal
  | succ n ih =>
    exact (staysOver_absorbOnce hgoal).bind fun g hg => yields_ite (yields_pure hgoal) (ih hg)

theorem staysOver_simplify {thorough : Bool} (hgoal : goal.Over A) :
    (simplify thorough hyps goal).StaysOver A := by
  unfold simplify
  extract_lets report rest
  -- What happens to the goal, or to its reduced form.
  have hrest : ∀ start, start.Over A → (rest start).StaysOver A := by
    intro start hstart
    unfold rest
    extract_lets answer
    have hanswer : ∀ hyps, (answer hyps).StaysOver A := by
      refine fun hyps => yields_bind fun _ => yields_ite (yields_bind fun _ => yields_pure (.truth _)) ?_
      refine yields_bind fun _ => yields_bind fun _ =>
        yields_ite (yields_bind fun _ => yields_pure (.truth _)) ?_
      refine (staysOver_absorb hstart).bind fun absorbed habsorbed => ?_
      refine (staysOver_reduceWith habsorbed).bind fun result hresult => yields_bind fun _ => ?_
      exact yields_ite (yields_bind fun _ => yields_pure hresult) (yields_pure hresult)
    exact yields_ite (yields_bind fun _ => hanswer _) (yields_bind fun _ => hanswer _)
  clear_value report rest
  split
  · exact yields_pure hgoal
  · exact yields_pure hgoal
  · exact yields_ite ((Statement.staysOver_reduced hgoal).bind hrest) (Yields.bind (yields_pure hgoal) hrest)

end Simplifier
end Majorant
