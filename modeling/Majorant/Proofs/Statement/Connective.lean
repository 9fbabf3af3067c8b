import Majorant.Proofs.Statement.World

/-!
# Connectives say what they should

Conjunctions and disjunctions are brought to a flat form without repeated members, and a comparison that meets
its negation settles them.
-/

namespace Majorant
open Term

theorem Term.mem_ordered {ts : List Term} {t : Term} : t ∈ ordered ts ↔ t ∈ ts := by
  unfold ordered
  rw [List.mem_map]
  simp only [(sortBy_perm _ _).mem_iff, List.mem_map]
  constructor
  · rintro ⟨_, ⟨u, hu, rfl⟩, rfl⟩
    exact hu
  · intro ht
    exact ⟨_, ⟨t, ht, rfl⟩, rfl⟩

theorem Statement.isRel_canonical {t : Term} (h : t.isRel = true) :
    (Statement.canonical t).isRel = true := by
  obtain ⟨r, a, b, rfl⟩ := exists_of_isRel h
  rfl

theorem Statement.isRel_negated {t : Term} (h : t.isRel = true) :
    (Statement.negated t).isRel = true := by
  obtain ⟨r, a, b, rfl⟩ := exists_of_isRel h
  rfl

namespace World

variable {M : Type} [LinearOrder M] {w : World M} {t u : Term} {ts ms done kept : List Term}
  {seen seen' : Statement.Seen}

theorem says_negated (h : w.Interprets t) (hrel : t.isRel = true) :
    w.Says (Statement.negated t) (¬ w.Holds t) := by
  obtain ⟨r, a, b, rfl⟩ := exists_of_isRel hrel
  exact says_not h rfl

theorem holds_iff_of_canonical_eq (ht : w.Interprets t) (hu : w.Interprets u) (hrelt : t.isRel = true)
    (hrelu : u.isRel = true) (heq : Statement.canonical t = Statement.canonical u) :
    w.Holds t ↔ w.Holds u := by
  rw [← (says_canonical ht hrelt).2, heq, (says_canonical hu hrelu).2]

/-- What is kept of the members says what they say, and the comparisons seen are those kept. -/
structure Represents (w : World M) (done : List Term) (seen : Statement.Seen) : Prop where
  kept_subset : seen.kept ⊆ done
  exists_kept : ∀ t ∈ done, ∃ k ∈ seen.kept, (w.Holds k ↔ w.Holds t)
  comparison : ∀ c ∈ seen.comparisons, ∃ k ∈ seen.kept, k.isRel = true ∧ c = Statement.canonical k

theorem represents_nil : w.Represents [] ⟨[], []⟩ := ⟨by simp, by simp, by simp⟩

theorem Represents.keep (h : w.Represents done seen) (t : Term) (cs : List Term)
    (hcs : ∀ c ∈ cs, t.isRel = true ∧ c = Statement.canonical t) :
    w.Represents (done ++ [t]) ⟨seen.comparisons ++ cs, seen.kept ++ [t]⟩ where
  kept_subset := List.append_subset.2
    ⟨List.subset_append_of_subset_left _ h.kept_subset, List.subset_append_right _ _⟩
  exists_kept := by
    intro u hu
    rcases List.mem_append.1 hu with hu | hu
    · obtain ⟨k, hk, hiff⟩ := h.exists_kept u hu
      exact ⟨k, List.mem_append_left _ hk, hiff⟩
    · exact ⟨u, List.mem_append_right _ hu, Iff.rfl⟩
  comparison := by
    intro c hc
    rcases List.mem_append.1 hc with hc | hc
    · obtain ⟨k, hk, hrest⟩ := h.comparison c hc
      exact ⟨k, List.mem_append_left _ hk, hrest⟩
    · exact ⟨t, List.mem_append_right _ (List.mem_singleton_self t), hcs c hc⟩

theorem Represents.drop (h : w.Represents done seen) (hk : u ∈ seen.kept)
    (hiff : w.Holds u ↔ w.Holds t) : w.Represents (done ++ [t]) seen where
  kept_subset := List.subset_append_of_subset_left _ h.kept_subset
  exists_kept := by
    intro v hv
    rcases List.mem_append.1 hv with hv | hv
    · exact h.exists_kept v hv
    · rw [List.mem_singleton.1 hv]
      exact ⟨u, hk, hiff⟩
  comparison := h.comparison

/-- **One more member**: it is represented, or it contradicts one that is kept. -/
theorem Represents.add (h : w.Represents done seen) (hdone : ∀ u ∈ done, w.Interprets u)
    (ht : w.Interprets t) :
    (∃ seen', seen.add t = some seen' ∧ w.Represents (done ++ [t]) seen') ∨
      (seen.add t = none ∧ ∃ k ∈ done, (w.Holds k ↔ ¬ w.Holds t)) := by
  unfold Statement.Seen.add
  by_cases hrel : t.isRel = true
  · rw [if_pos hrel]
    dsimp only
    have hcanonical := says_canonical ht hrel
    by_cases hknown : seen.comparisons.contains (Statement.canonical t) = true
    · rw [if_pos hknown]
      obtain ⟨k, hk, hkrel, heq⟩ := h.comparison _ (List.contains_iff_mem.1 hknown)
      have hiff := holds_iff_of_canonical_eq (hdone k (h.kept_subset hk)) ht hkrel hrel heq.symm
      exact .inl ⟨seen, rfl, h.drop hk hiff⟩
    · rw [if_neg hknown]
      have hnegrel := Statement.isRel_negated (Statement.isRel_canonical hrel)
      obtain ⟨hneg, hnegiff⟩ := says_negated hcanonical.1 (Statement.isRel_canonical hrel)
      by_cases hopposite :
          seen.comparisons.contains (Statement.canonical (Statement.negated (Statement.canonical t))) = true
      · rw [if_pos hopposite]
        obtain ⟨k, hk, hkrel, heq⟩ := h.comparison _ (List.contains_iff_mem.1 hopposite)
        have hiff := holds_iff_of_canonical_eq (hdone k (h.kept_subset hk)) hneg hkrel hnegrel heq.symm
        refine .inr ⟨rfl, k, h.kept_subset hk, ?_⟩
        rw [hiff, hnegiff, hcanonical.2]
      · rw [if_neg hopposite]
        refine .inl ⟨_, rfl, h.keep t [Statement.canonical t] ?_⟩
        intro c hc
        exact ⟨hrel, List.mem_singleton.1 hc⟩
  · rw [if_neg hrel]
    refine .inl ⟨_, rfl, ?_⟩
    simpa using h.keep t [] (by simp)

/-- **All members**: they are represented, or two of them contradict each other. -/
theorem represents_foldl (h : w.Represents done seen) (hdone : ∀ u ∈ done, w.Interprets u)
    (hts : ∀ t ∈ ts, w.Interprets t) :
    (∃ seen', ts.foldl (fun s t => s.bind fun seen => seen.add t) (some seen) = some seen' ∧
        w.Represents (done ++ ts) seen') ∨
      (ts.foldl (fun s t => s.bind fun seen => seen.add t) (some seen) = none ∧
        ∃ t ∈ done ++ ts, ∃ u ∈ done ++ ts, (w.Holds t ↔ ¬ w.Holds u)) := by
  induction ts generalizing done seen with
  | nil => exact .inl ⟨seen, rfl, by simpa using h⟩
  | cons t ts ih =>
    obtain ⟨ht, hts⟩ := List.forall_mem_cons.1 hts
    rw [List.foldl_cons, Option.bind_some]
    rcases h.add hdone ht with ⟨seen', heq, hseen'⟩ | ⟨heq, k, hk, hiff⟩
    · have hdone' : ∀ u ∈ done ++ [t], w.Interprets u := by
        intro u hu
        rcases List.mem_append.1 hu with hu | hu
        · exact hdone u hu
        · rwa [List.mem_singleton.1 hu]
      rw [heq, List.append_cons]
      exact ih hseen' hdone' hts
    · have hnone : ∀ us : List Term,
          us.foldl (fun s t => s.bind fun seen => seen.add t) (none : Option Statement.Seen) = none := by
        intro us
        induction us with
        | nil => rfl
        | cons u us ih => exact ih
      rw [heq, hnone]
      exact .inr ⟨rfl, k, List.mem_append_left _ hk, t,
        List.mem_append_right _ List.mem_cons_self, hiff⟩

theorem distinctMembers_cases (hts : ∀ t ∈ ts, w.Interprets t) :
    (∃ kept, Statement.distinctMembers ts = some kept ∧ kept ⊆ ts ∧
        ∀ t ∈ ts, ∃ k ∈ kept, (w.Holds k ↔ w.Holds t)) ∨
      (Statement.distinctMembers ts = none ∧ ∃ t ∈ ts, ∃ u ∈ ts, (w.Holds t ↔ ¬ w.Holds u)) := by
  unfold Statement.distinctMembers
  rcases represents_foldl represents_nil (by simp) hts with ⟨seen, heq, hseen⟩ | ⟨heq, hopposite⟩
  · rw [heq]
    exact .inl ⟨seen.kept, rfl, hseen.kept_subset, hseen.exists_kept⟩
  · rw [heq]
    exact .inr ⟨rfl, hopposite⟩

theorem mem_flatten {h : Head} : u ∈ Statement.flatten h ts ↔
    ∃ t ∈ ts, (∃ as, t = app h as ∧ u ∈ as) ∨ ((∀ as, t ≠ app h as) ∧ u = t) := by
  unfold Statement.flatten
  rw [List.mem_flatMap]
  refine exists_congr fun t => and_congr_right fun _ => ?_
  cases t with
  | app g as =>
    dsimp only
    by_cases hg : g = h
    · subst hg
      simp
    · simp [hg]
  | _ => simp

theorem flatten_and (hts : ∀ t ∈ ts, w.Interprets t) :
    (∀ u ∈ Statement.flatten .and ts, w.Interprets u) ∧
      ((∀ u ∈ Statement.flatten .and ts, w.Holds u) ↔ ∀ t ∈ ts, w.Holds t) := by
  refine ⟨?_, ?_, ?_⟩
  · intro u hu
    obtain ⟨t, ht, ⟨as, rfl, hu⟩ | ⟨-, rfl⟩⟩ := mem_flatten.1 hu
    · exact (hts _ ht).of_mem_and u hu
    · exact hts u ht
  · intro hall t ht
    by_cases hand : ∃ as, t = app .and as
    · obtain ⟨as, rfl⟩ := hand
      exact holds_and.2 fun u hu => hall u (mem_flatten.2 ⟨_, ht, .inl ⟨as, rfl, hu⟩⟩)
    · exact hall t (mem_flatten.2 ⟨t, ht, .inr ⟨not_exists.1 hand, rfl⟩⟩)
  · intro hall u hu
    obtain ⟨t, ht, ⟨as, rfl, hu⟩ | ⟨-, rfl⟩⟩ := mem_flatten.1 hu
    · exact holds_and.1 (hall _ ht) u hu
    · exact hall u ht

theorem flatten_or (hts : ∀ t ∈ ts, w.Interprets t) :
    (∀ u ∈ Statement.flatten .or ts, w.Interprets u) ∧
      ((∃ u ∈ Statement.flatten .or ts, w.Holds u) ↔ ∃ t ∈ ts, w.Holds t) := by
  refine ⟨?_, ?_, ?_⟩
  · intro u hu
    obtain ⟨t, ht, ⟨as, rfl, hu⟩ | ⟨-, rfl⟩⟩ := mem_flatten.1 hu
    · exact (hts _ ht).of_mem_or u hu
    · exact hts u ht
  · rintro ⟨u, hu, hholds⟩
    obtain ⟨t, ht, ⟨as, rfl, hu⟩ | ⟨-, rfl⟩⟩ := mem_flatten.1 hu
    · exact ⟨_, ht, holds_or.2 ⟨u, hu, hholds⟩⟩
    · exact ⟨u, ht, hholds⟩
  · rintro ⟨t, ht, hholds⟩
    by_cases hor : ∃ as, t = app .or as
    · obtain ⟨as, rfl⟩ := hor
      obtain ⟨u, hu, hholds⟩ := holds_or.1 hholds
      exact ⟨u, mem_flatten.2 ⟨_, ht, .inl ⟨as, rfl, hu⟩⟩, hholds⟩
    · exact ⟨t, mem_flatten.2 ⟨t, ht, .inr ⟨not_exists.1 hor, rfl⟩⟩, hholds⟩

theorem ofMembers_cases (h : Head) (unit : Term) (ts : List Term) :
    (Statement.ofMembers h unit ts = unit ∧ ∀ u, u ∉ ts) ∨
      (∃ t, Statement.ofMembers h unit ts = t ∧ ∀ u, u ∈ ts ↔ u = t) ∨
      ∃ us, Statement.ofMembers h unit ts = app h us ∧ ∀ u, u ∈ us ↔ u ∈ ts := by
  have hmem : ∀ u, u ∈ ts.eraseDups ↔ u ∈ ts := fun u => List.mem_eraseDups
  unfold Statement.ofMembers
  split
  · next heq =>
    refine .inl ⟨rfl, fun u hu => ?_⟩
    rw [← hmem, heq] at hu
    cases hu
  · next t heq =>
    refine .inr (.inl ⟨t, rfl, fun u => ?_⟩)
    rw [← hmem, heq, List.mem_singleton]
  · refine .inr (.inr ⟨_, rfl, fun u => ?_⟩)
    rw [mem_ordered, hmem]

theorem says_ofMembers_and (hts : ∀ t ∈ ts, w.Interprets t) :
    w.Says (Statement.ofMembers .and top ts) (∀ t ∈ ts, w.Holds t) := by
  rcases ofMembers_cases .and top ts with ⟨heq, hmem⟩ | ⟨t, heq, hmem⟩ | ⟨us, heq, hmem⟩
  · rw [heq]
    exact says_top fun u hu => absurd hu (hmem u)
  · rw [heq]
    refine (says_self (hts t ((hmem t).2 rfl))).congr ?_
    simp [hmem]
  · rw [heq]
    refine ⟨.and fun u hu => hts u ((hmem u).1 hu), ?_⟩
    simp [hmem]

theorem says_ofMembers_or (hts : ∀ t ∈ ts, w.Interprets t) :
    w.Says (Statement.ofMembers .or bot ts) (∃ t ∈ ts, w.Holds t) := by
  rcases ofMembers_cases .or bot ts with ⟨heq, hmem⟩ | ⟨t, heq, hmem⟩ | ⟨us, heq, hmem⟩
  · rw [heq]
    exact says_bot fun ⟨u, hu, _⟩ => absurd hu (hmem u)
  · rw [heq]
    refine (says_self (hts t ((hmem t).2 rfl))).congr ?_
    simp [hmem]
  · rw [heq]
    refine ⟨.or fun u hu => hts u ((hmem u).1 hu), ?_⟩
    simp [hmem]

theorem says_mapM {α : Type} {f : α → Outcome Term} {P : α → Prop} {as : List α}
    (h : ∀ a ∈ as, ∀ m, (f a).result = .ok m → w.Says m (P a)) (hms : (as.mapM f).result = .ok ms) :
    (∀ m ∈ ms, w.Interprets m) ∧ ((∀ m ∈ ms, w.Holds m) ↔ ∀ a ∈ as, P a) ∧
      ((∃ m ∈ ms, w.Holds m) ↔ ∃ a ∈ as, P a) := by
  have hall := Outcome.result_mapM_eq_ok.1 hms
  clear hms
  induction hall with
  | nil => simp
  | cons hm _ ih =>
    obtain ⟨ha, has⟩ := List.forall_mem_cons.1 h
    obtain ⟨hmeans, hiff⟩ := ha _ hm
    obtain ⟨hrest, hforall, hexists⟩ := ih has
    refine ⟨List.forall_mem_cons.2 ⟨hmeans, hrest⟩, ?_, ?_⟩
    · rw [List.forall_mem_cons, List.forall_mem_cons, hiff, hforall]
    · rw [List.exists_mem_cons_iff, List.exists_mem_cons_iff, hiff, hexists]

/-- **A conjunction holds if all its members do.** -/
theorem says_conj (hts : ∀ t ∈ ts, w.Interprets t) (hu : (Statement.conj ts).result = .ok u) :
    w.Says u (∀ t ∈ ts, w.Holds t) := by
  obtain ⟨ms, hms, hu⟩ := Outcome.result_bind_eq_ok.1 hu
  obtain ⟨hms, hforall, -⟩ := says_mapM (fun t ht _ => says_member (hts t ht)) hms
  obtain ⟨hflat, hflatten⟩ := flatten_and hms
  rw [hforall] at hflatten
  generalize Statement.flatten .and ms = flat at hu hflat hflatten
  refine Says.congr ?_ hflatten
  by_cases hbot : flat.contains bot = true
  · rw [if_pos hbot] at hu
    cases hu
    refine says_bot fun hall => ?_
    simpa [bot] using hall bot (List.contains_iff_mem.1 hbot)
  · rw [if_neg hbot] at hu
    -- members that hold anyway are left out
    have hmem : ∀ t, t ∈ ordered (flat.filter (· ≠ top)) ↔ t ∈ flat ∧ t ≠ top := by
      intro t
      rw [mem_ordered, List.mem_filter, decide_eq_true_iff]
    have hopen : (∀ t ∈ ordered (flat.filter (· ≠ top)), w.Holds t) ↔ ∀ t ∈ flat, w.Holds t := by
      constructor
      · intro hall t ht
        by_cases htop : t = top
        · rw [htop]
          simp [top]
        · exact hall t ((hmem t).2 ⟨ht, htop⟩)
      · intro hall t ht
        exact hall t ((hmem t).1 ht).1
    have hmeans : ∀ t ∈ ordered (flat.filter (· ≠ top)), w.Interprets t := by
      intro t ht
      exact hflat t ((hmem t).1 ht).1
    refine Says.congr ?_ hopen
    rcases distinctMembers_cases hmeans with ⟨kept, heq, hsub, hkept⟩ | ⟨heq, t, ht, v, hv, hiff⟩
    · rw [heq] at hu
      cases hu
      refine (says_ofMembers_and fun t ht => hmeans t (hsub ht)).congr ⟨?_, ?_⟩
      · intro hall t ht
        obtain ⟨k, hk, hiff⟩ := hkept t ht
        exact hiff.1 (hall k hk)
      · intro hall t ht
        exact hall t (hsub ht)
    · rw [heq] at hu
      cases hu
      refine says_bot fun hall => ?_
      exact hiff.1 (hall t ht) (hall v hv)

/-- **A disjunction holds if one of its members does.** -/
theorem says_disj (hts : ∀ t ∈ ts, w.Interprets t) (hu : (Statement.disj ts).result = .ok u) :
    w.Says u (∃ t ∈ ts, w.Holds t) := by
  obtain ⟨ms, hms, hu⟩ := Outcome.result_bind_eq_ok.1 hu
  obtain ⟨hms, -, hexists⟩ := says_mapM (fun t ht _ => says_member (hts t ht)) hms
  refine Says.congr ?_ hexists
  rcases distinctMembers_cases hms with ⟨kept, heq, hsub, hkept⟩ | ⟨heq, t, ht, v, hv, hiff⟩
  · rw [heq] at hu
    dsimp only at hu
    obtain ⟨hflat, hflatten⟩ := flatten_or fun t ht => hms t (hsub ht)
    generalize Statement.flatten .or kept = flat at hu hflat hflatten
    have hall : (∃ t ∈ flat, w.Holds t) ↔ ∃ t ∈ ms, w.Holds t := by
      rw [hflatten]
      constructor
      · rintro ⟨t, ht, hholds⟩
        exact ⟨t, hsub ht, hholds⟩
      · rintro ⟨t, ht, hholds⟩
        obtain ⟨k, hk, hiff⟩ := hkept t ht
        exact ⟨k, hk, hiff.2 hholds⟩
    refine Says.congr ?_ hall
    by_cases htop : flat.contains top = true
    · rw [if_pos htop] at hu
      cases hu
      exact says_top ⟨top, List.contains_iff_mem.1 htop, by simp [top]⟩
    · rw [if_neg htop] at hu
      cases hu
      have hmem : ∀ t, t ∈ flat.filter (· ≠ bot) ↔ t ∈ flat ∧ t ≠ bot := by
        intro t
        rw [List.mem_filter, decide_eq_true_iff]
      refine (says_ofMembers_or fun t ht => hflat t ((hmem t).1 ht).1).congr ⟨?_, ?_⟩
      · rintro ⟨t, ht, hholds⟩
        exact ⟨t, ((hmem t).1 ht).1, hholds⟩
      · rintro ⟨t, ht, hholds⟩
        refine ⟨t, (hmem t).2 ⟨ht, ?_⟩, hholds⟩
        rintro rfl
        simp [bot] at hholds
  · rw [heq] at hu
    cases hu
    refine says_top ?_
    by_cases hholds : w.Holds t
    · exact ⟨t, ht, hholds⟩
    · exact ⟨v, hv, not_not.1 (mt hiff.2 hholds)⟩

end World
end Majorant
