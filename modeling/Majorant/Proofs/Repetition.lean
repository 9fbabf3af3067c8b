import Majorant.Proofs.Outcome

/-!
# Entries that come again

A list in which some entries are put in again, behind those that they repeat, has the same entries, and their
first occurrences are in the same order.
-/

namespace Majorant

namespace Outcome

variable {α β γ δ : Type} {R : α → β → Prop} {S : γ → δ → Prop} {x : Outcome α} {y : Outcome β}

/-- **Two outcomes end alike**: with the same failure, or with related results. -/
inductive Alike (R : α → β → Prop) (x : Outcome α) (y : Outcome β) : Prop
  | error (e : Failure) (hx : x.result = .error e) (hy : y.result = .error e) : Alike R x y
  | ok (a : α) (b : β) (hx : x.result = .ok a) (hy : y.result = .ok b) (h : R a b) : Alike R x y

theorem alike_pure {a : α} {b : β} (h : R a b) : Alike R (pure a) (pure b) := .ok a b rfl rfl h

theorem alike_of_result_eq {y : Outcome α} (h : x.result = y.result) : Alike (· = ·) x y := by
  cases hx : x.result with
  | error e => exact .error e hx (h ▸ hx)
  | ok a => exact .ok a a hx (h ▸ hx) rfl

theorem Alike.bind {f : α → Outcome γ} {g : β → Outcome δ} (h : Alike R x y)
    (hf : ∀ a b, R a b → Alike S (f a) (g b)) : Alike S (x >>= f) (y >>= g) := by
  cases h with
  | error e hx hy => exact .error e (result_bind_of_error hx f) (result_bind_of_error hy g)
  | ok a b hx hy h =>
    cases hf a b h with
    | error e ha hb =>
      exact .error e ((result_bind_of_ok hx f).trans ha) ((result_bind_of_ok hy g).trans hb)
    | ok c d ha hb h =>
      exact .ok c d ((result_bind_of_ok hx f).trans ha) ((result_bind_of_ok hy g).trans hb) h

theorem Alike.and {P : α → Prop} (h : Alike R x y) (hx : x.Yields P) :
    Alike (fun a b => R a b ∧ P a) x y := by
  cases h with
  | error e hx hy => exact .error e hx hy
  | ok a b ha hb h => exact .ok a b ha hb ⟨h, hx a ha⟩

end Outcome

variable {α β : Type} {xs ys as bs cs : List α}

/-- **Some entries of a list come again** in another one, behind those that they repeat. -/
def Repeats (xs ys : List α) : Prop := ∃ as bs cs, xs = as ++ cs ∧ ys = as ++ bs ++ cs ∧ bs ⊆ as

namespace Repeats

theorem append (h : Repeats xs ys) (zs : List α) : Repeats (xs ++ zs) (ys ++ zs) := by
  obtain ⟨as, bs, cs, rfl, rfl, hsub⟩ := h
  exact ⟨as, bs, cs ++ zs, by simp, by simp, hsub⟩

theorem flatMap (h : Repeats xs ys) (f : α → List β) : Repeats (xs.flatMap f) (ys.flatMap f) := by
  obtain ⟨as, bs, cs, rfl, rfl, hsub⟩ := h
  refine ⟨as.flatMap f, bs.flatMap f, cs.flatMap f, by simp, by simp, fun b hb => ?_⟩
  obtain ⟨a, ha, hb⟩ := List.mem_flatMap.1 hb
  exact List.mem_flatMap.2 ⟨a, hsub ha, hb⟩

theorem flatten {xs ys : List (List α)} (h : Repeats xs ys) : Repeats xs.flatten ys.flatten := by
  simpa only [List.flatMap_id] using h.flatMap id

theorem filterMap (h : Repeats xs ys) (f : α → Option β) :
    Repeats (xs.filterMap f) (ys.filterMap f) := by
  obtain ⟨as, bs, cs, rfl, rfl, hsub⟩ := h
  refine ⟨as.filterMap f, bs.filterMap f, cs.filterMap f, by simp, by simp, fun b hb => ?_⟩
  obtain ⟨a, ha, hb⟩ := List.mem_filterMap.1 hb
  exact List.mem_filterMap.2 ⟨a, hsub ha, hb⟩

theorem eraseDups_eq [BEq α] [LawfulBEq α] (h : Repeats xs ys) : ys.eraseDups = xs.eraseDups := by
  obtain ⟨as, bs, cs, rfl, rfl, hsub⟩ := h
  have hnone : bs.removeAll as = [] := by
    refine List.filter_eq_nil_iff.2 fun b hb => ?_
    simpa using hsub hb
  have hremove : (bs ++ cs).removeAll as = cs.removeAll as := by
    rw [List.removeAll, List.filter_append, ← List.removeAll, ← List.removeAll, hnone, List.nil_append]
  rw [List.append_assoc, List.eraseDups_append, List.eraseDups_append, hremove]

end Repeats

/-- **Going through lists with repetitions**: each new entry is to give what an entry before it gives. -/
theorem repeats_mapM {f : α → Outcome β} (h : ∀ b ∈ bs, ∃ a ∈ as, (f b).result = (f a).result) :
    Outcome.Alike Repeats ((as ++ cs).mapM f) ((as ++ bs ++ cs).mapM f) := by
  rw [List.append_assoc, List.mapM_append, List.mapM_append]
  cases has : (as.mapM f).result with
  | error e => exact .error e (Outcome.result_bind_of_error has _) (Outcome.result_bind_of_error has _)
  | ok as' =>
    have hnew : ∀ b ∈ bs, ∃ b', (f b).result = .ok b' ∧ b' ∈ as' := fun b hb => by
      obtain ⟨a, ha, heq⟩ := h b hb
      obtain ⟨a', ha', hresult⟩ := Outcome.exists_mem_of_mapM has ha
      exact ⟨a', heq.trans hresult, ha'⟩
    obtain ⟨bs', hbs, -⟩ := Outcome.exists_mapM hnew
    have hsub : bs' ⊆ as' := fun b' hb' => by
      obtain ⟨b, hb, hresult⟩ := Outcome.exists_of_mem_mapM hbs hb'
      obtain ⟨b'', hresult', hmem⟩ := hnew b hb
      rw [hresult] at hresult'
      cases hresult'
      exact hmem
    cases hcs : (cs.mapM f).result with
    | error e =>
      have hlast : ((bs ++ cs).mapM f).result = .error e := by
        rw [List.mapM_append, Outcome.result_bind_of_ok hbs, Outcome.result_bind_of_error hcs]
      exact .error e (by rw [Outcome.result_bind_of_ok has, Outcome.result_bind_of_error hcs])
        (by rw [Outcome.result_bind_of_ok has, Outcome.result_bind_of_error hlast])
    | ok cs' =>
      have hlast : ((bs ++ cs).mapM f).result = .ok (bs' ++ cs') := by
        rw [List.mapM_append, Outcome.result_bind_of_ok hbs, Outcome.result_bind_of_ok hcs]
        rfl
      refine .ok (as' ++ cs') (as' ++ (bs' ++ cs')) ?_ ?_ ⟨as', bs', cs', rfl, by simp, hsub⟩
      · rw [Outcome.result_bind_of_ok has, Outcome.result_bind_of_ok hcs]
        rfl
      · rw [Outcome.result_bind_of_ok has, Outcome.result_bind_of_ok hlast]
        rfl

theorem Repeats.alike_mapM (h : Repeats xs ys) (f : α → Outcome β) :
    Outcome.Alike Repeats (xs.mapM f) (ys.mapM f) := by
  obtain ⟨as, bs, cs, rfl, rfl, hsub⟩ := h
  exact repeats_mapM fun b hb => ⟨b, hsub hb, rfl⟩

end Majorant
