import Majorant.Proofs.Real.LinearComparison
import Majorant.Proofs.Tactic.Sign
import Majorant.Proofs.Tactic.Substitution

/-!
# Renaming a variable in linear statements

Replacing a real variable by another one in a statement about linear forms gives a statement that holds if the
old one does where the old variable has the value of the new one.
-/

namespace Majorant
open Term Substitution

def Vocabulary.linear : Vocabulary := fun ρ t => ρ = .number ∧ t.isLinear = true

section Renaming

variable {M : Type} {w : World M} {x new : Variable} {h : x.kind.Admits (w.value new)} {t : Term}
  {n : Nat}

theorem World.retype_value_self : (w.retype new x h).value x = w.value new := Function.update_self ..

theorem World.retype_value_of_ne {v : Variable} (hv : v ≠ x) :
    (w.retype new x h).value v = w.value v := Function.update_of_ne hv ..

namespace Term

theorem product_num_var (q : Rat) (v : Variable) : product [num q, var v] = scale q (var v) := by
  by_cases hq : q = 1 <;>
    simp [product, stepBound, sizeList, size, productAux, factors, one, hq]

theorem isLinearSummand_scale_var {v : Variable} (hv : v.kind.isReal = true) (q : Rat) :
    (scale q (var v)).isLinearSummand = true := by
  have heq : scale q (var v) =
      if q = 1 then var v else if q = 0 then zero else scaleSummand q (var v) := rfl
  rw [heq]
  split_ifs
  · exact hv
  · rfl
  · exact isLinearSummand_scaleSummand (t := var v) hv q

theorem rename_summand (hnew : new.kind.isReal = true) (hne : x ≠ new)
    (ht : t.isLinearSummand = true) (hn : 2 ≤ n) :
    ∃ u, (replaceAux n (var x) (var new) t).result = .ok u ∧ u.isLinearSummand = true ∧
      u.val w.value = t.val (w.retype new x h).value := by
  obtain ⟨m, rfl⟩ : ∃ m, n = m + 2 := ⟨n - 2, by omega⟩
  rcases isLinearSummand_cases ht with ⟨q, rfl⟩ | ⟨v, hv, rfl⟩ | ⟨q, v, hv, rfl⟩
  · exact ⟨num q, rfl, rfl, rfl⟩
  · by_cases hvx : v = x
    · subst hvx
      refine ⟨var new, ?_, hnew, World.retype_value_self.symm⟩
      simp [replaceAux]
    · refine ⟨var v, ?_, hv, (World.retype_value_of_ne hvx).symm⟩
      simp [replaceAux, hvx]
  · by_cases hvx : v = x
    · subst hvx
      have happly : (Evaluation.apply .mul [num q, var new]).result = .ok (scale q (var new)) := by
        rw [← product_num_var]
        rfl
      refine ⟨scale q (var new), ?_, isLinearSummand_scale_var hnew q, ?_⟩
      · simpa [replaceAux, hne.symm] using happly
      · rw [val_scale q ((denotes_var new).2 (Kind.isNumeric_of_isReal hnew))]
        simp [World.retype_value_self]
    · refine ⟨app .mul [num q, var v], ?_, hv, ?_⟩
      · simp [replaceAux, hvx]
      · simp [World.retype_value_of_ne hvx]

theorem apply_add_of_isLinear {ts : List Term} (hts : ∀ t ∈ ts, t.isLinear = true) :
    Evaluation.apply .add ts = pure (sum ts) := by
  have hlits : ts.mapM ofLiteral = pure ts := by
    have hpure := Outcome.mapM_eq_pure (g := id) fun t ht => ofLiteral_of_isLinear (hts t ht)
    rwa [List.map_id] at hpure
  have hevades : evadesList ts = false :=
    evadesList_of_denotes (ρ := 0) ts fun t ht => denotes_of_isLinear (hts t ht)
  have heq : Evaluation.apply .add ts = Evaluation.addAll ts := rfl
  rw [heq, Evaluation.addAll, hlits, pure_bind, hevades]
  rfl

theorem isWritten_of_isLinear (ht : t.isLinear = true) : Operation.isWritten t = false := by
  rcases isLinear_cases ht with hs | ⟨as, rfl, -⟩
  · rcases isLinearSummand_cases hs with ⟨q, rfl⟩ | ⟨v, -, rfl⟩ | ⟨q, v, -, rfl⟩ <;> rfl
  · rfl

theorem replaceAux_add {old : Variable} {as : List Term} {new : Term}
    (has : ∀ a ∈ as, a.isLinearSummand = true) :
    replaceAux (n + 1) (var old) new (app .add as) = (do
      let bs ← as.mapM (replaceAux n (var old) new)
      if bs = as then return app .add as else Evaluation.apply .add bs) := by
  have hargs : ∀ {f g : Term → Outcome Term} {ts : List Term}, (∀ a ∈ ts, f a = g a) →
      ts.mapM f = ts.mapM g := by
    intro f g ts hts
    induction ts with
    | nil => rfl
    | cons a ts ih =>
      obtain ⟨ha, hts⟩ := List.forall_mem_cons.1 hts
      rw [List.mapM_cons, List.mapM_cons, ha, ih hts]
  have hold : app .add as ≠ var old := by simp
  rw [replaceAux, if_neg hold]
  refine congrArg (· >>= _) (hargs fun a ha => ?_)
  rcases isLinearSummand_cases (has a ha) with ⟨q, rfl⟩ | ⟨v, -, rfl⟩ | ⟨q, v, -, rfl⟩ <;> rfl

/-- **Renaming a variable in a linear form** gives a linear form with the value that it has where the old
variable has the value of the new one. -/
theorem rename_linear (hnew : new.kind.isReal = true) (hne : x ≠ new) (ht : t.isLinear = true)
    (hn : 3 ≤ n) :
    ∃ u, (replaceAux n (var x) (var new) t).result = .ok u ∧ u.isLinear = true ∧
      u.val w.value = t.val (w.retype new x h).value := by
  rcases isLinear_cases ht with hsummand | ⟨as, rfl, has⟩
  · obtain ⟨u, hu, hlinear, hval⟩ := rename_summand (h := h) hnew hne hsummand (by omega : 2 ≤ n)
    exact ⟨u, hu, isLinear_of_isLinearSummand hlinear, hval⟩
  · obtain ⟨m, rfl⟩ : ∃ m, n = m + 1 := ⟨n - 1, by omega⟩
    obtain ⟨bs, hbs, hall⟩ := Outcome.exists_mapM fun a ha =>
      rename_summand (h := h) hnew hne (has a ha) (by omega : 2 ≤ m)
    obtain ⟨hlinear, hval⟩ : (∀ b ∈ bs, b.isLinear = true) ∧
        bs.map (val w.value) = as.map (val (w.retype new x h).value) := by
      clear hbs ht has
      induction hall with
      | nil => simp
      | cons hb _ ih =>
        refine ⟨List.forall_mem_cons.2 ⟨isLinear_of_isLinearSummand hb.1, ih.1⟩, ?_⟩
        rw [List.map_cons, List.map_cons, hb.2, ih.2]
    rw [replaceAux_add has, Outcome.result_bind_of_ok hbs]
    split
    · next heq =>
      refine ⟨_, rfl, ht, ?_⟩
      rw [val_add, val_add, ← hval, heq]
    · refine ⟨sum bs, by rw [apply_add_of_isLinear hlinear]; rfl, isLinear_sum hlinear, ?_⟩
      rw [val_sum fun b hb => denotes_of_isLinear (hlinear b hb), val_add, hval]

end Term

variable [LinearOrder M] {u : Term}

theorem says_rename_rel {r : Rel} {a b : Term} (hnew : new.kind.isReal = true) (hne : x ≠ new)
    (ha : a.isLinear = true) (hb : b.isLinear = true) (hn : 3 ≤ n)
    (hu : (replaceAux (n + 1) (var x) (var new) (app (.rel r) [a, b])).result = .ok u) :
    w.Says u ((w.retype new x h).Relates r a b) := by
  obtain ⟨a', ha', hlinearA, hvalA⟩ := rename_linear (w := w) (h := h) hnew hne ha hn
  obtain ⟨b', hb', hlinearB, hvalB⟩ := rename_linear (w := w) (h := h) hnew hne hb hn
  have hsame : w.Relates r a' b' ↔ (w.retype new x h).Relates r a b := by
    rw [World.relates_of_numbers (World.numbers_of_isLinear hlinearA hlinearB),
      World.relates_of_numbers (World.numbers_of_isLinear ha hb), hvalA, hvalB]
  have hargs : ([a, b].mapM (replaceAux n (var x) (var new))).result = .ok [a', b'] :=
    Outcome.result_mapM_eq_ok.2 (.cons ha' (.cons hb' .nil))
  have hplain : ∀ c ∈ [a, b], Operation.isWritten c = false := by
    simp [isWritten_of_isLinear ha, isWritten_of_isLinear hb]
  have hold : app (.rel r) [a, b] ≠ var x := by simp
  rw [Calculus.replaceAux_statement (.inl ⟨r, rfl⟩) hold hplain, Outcome.result_bind_of_ok hargs] at hu
  split at hu
  · next heq =>
    cases heq
    cases hu
    exact ⟨.rel (.inl (World.numbers_of_isLinear ha hb)), hsame⟩
  · obtain ⟨c, hc, hmade⟩ := World.settles_of_isLinear (w := w) hlinearA hlinearB r
    cases hc.symm.trans hu
    exact hmade.congr hsame

/-- **Renaming a variable in a statement about linear forms**: what is made says in a world what the
statement says where the old variable has the value of the new one. -/
theorem says_rename (hnew : new.kind.isReal = true) (hne : x ≠ new)
    (ht : Vocabulary.linear.Sentence t) (hn : 2 * t.size + 4 ≤ n)
    (hu : (replaceAux n (var x) (var new) t).result = .ok u) :
    w.Says u ((w.retype new x h).Holds t) := by
  -- a step goes down to the arguments, and they are smaller
  have hless : ∀ {g as a m}, a ∈ as → 2 * (app g as).size + 4 ≤ m + 1 → 2 * a.size + 4 ≤ m := by
    intro g as a m ha hm
    have := size_lt_of_mem (h := g) ha
    omega
  have hquantity : ∀ {g : Head}, ∀ os, var x ≠ app g os := by simp
  have hold : ∀ {g : Head} (os), app g os ≠ var x := by simp
  induction n generalizing t u with
  | zero => omega
  | succ n ih =>
    cases ht with
    | truth c =>
      have htruth : truth c ≠ var x := by simp
      rw [replaceAux, if_neg htruth] at hu
      cases hu
      exact ⟨.truth c, Iff.rfl⟩
    | @proposition v hv =>
      have hvx : v ≠ x := by
        rintro rfl
        have hcontains := h.1
        rw [hv] at hcontains
        exact hcontains
      rw [replaceAux, if_neg fun heq => hvx (var.inj heq)] at hu
      cases hu
      refine ⟨.var v, ?_⟩
      rw [World.Holds, World.Holds, hv]
      exact Iff.rfl
    | @rel r ρ a b ha hb =>
      refine says_rename_rel hnew hne ha.2 hb.2 ?_ hu
      have := hless (a := a) List.mem_cons_self hn
      omega
    | interaction hlength has =>
      obtain ⟨a, ha⟩ := List.exists_mem_of_length_pos (Nat.lt_of_lt_of_le (by decide) hlength)
      cases (has a ha).1
    | @not t ht =>
      have hplain : ∀ a ∈ [t], Operation.isWritten a = false :=
        List.forall_mem_singleton.2 ht.isWritten
      rw [Calculus.replaceAux_statement (.inr (.inl rfl)) (hold [t]) hplain] at hu
      obtain ⟨bs, hbs, hu⟩ := Outcome.result_bind_eq_ok.1 hu
      obtain ⟨b, rfl, hb⟩ : ∃ b, bs = [b] ∧ (replaceAux n (var x) (var new) t).result = .ok b := by
        cases Outcome.result_mapM_eq_ok.1 hbs with
        | cons hb hnil =>
          cases hnil
          exact ⟨_, rfl, hb⟩
      have hmade := ih ht (hless List.mem_cons_self hn) hb
      rw [World.holds_not]
      split at hu
      · next heq =>
        cases heq
        cases hu
        exact ⟨.not hmade.1, by rw [World.holds_not, hmade.2]⟩
      · exact (World.says_not hmade.1 hu).congr (not_congr hmade.2)
    | @and ts hts =>
      rw [replaceAux, if_neg (hold ts)] at hu
      obtain ⟨bs, hbs, hu⟩ := Outcome.result_bind_eq_ok.1 hu
      obtain ⟨hmeans, hforall, -⟩ := World.says_mapM (fun t ht m hm =>
        ih (hts t ht) (hless ht hn) hm) hbs
      rw [World.holds_and]
      split at hu
      · next hbot =>
        cases hu
        refine World.says_bot fun hall => ?_
        simpa [bot] using hforall.2 hall bot (List.contains_iff_mem.1 hbot)
      · rw [Calculus.connectiveMembers_quantity hquantity] at hu
        refine (World.says_conj (fun b hb => hmeans b (List.mem_of_mem_filter hb)) hu).congr ?_
        rw [← Calculus.connectiveMembers_top .and, World.forall_connectiveMembers Iff.rfl, hforall]
    | @or ts hts =>
      rw [replaceAux, if_neg (hold ts)] at hu
      obtain ⟨bs, hbs, hu⟩ := Outcome.result_bind_eq_ok.1 hu
      obtain ⟨hmeans, -, hexists⟩ := World.says_mapM (fun t ht m hm =>
        ih (hts t ht) (hless ht hn) hm) hbs
      rw [World.holds_or]
      split at hu
      · next htop =>
        cases hu
        exact World.says_top (hexists.1 ⟨top, List.contains_iff_mem.1 htop, by simp [top]⟩)
      · rw [Calculus.connectiveMembers_quantity hquantity] at hu
        refine (World.says_disj (fun b hb => hmeans b (List.mem_of_mem_filter hb)) hu).congr ?_
        rw [← Calculus.connectiveMembers_top .or, World.exists_connectiveMembers Iff.rfl, hexists]

end Renaming
end Majorant
