import Majorant.Proofs.Simplifier.Absorb

/-!
# Reduction under hypotheses

A statement is reduced from the inside.
-/

namespace Majorant
open Term Simplifier

namespace Simplifier

section Signs

variable {K : Type} [LinearOrder K] {x y : K} {r s : Rel} {same : Bool}

def signOf (x y : K) : Int := if x < y then 1 else if x = y then 0 else -1

theorem signOf_cases (x y : K) :
    (x < y ∧ signOf x y = 1) ∨ (x = y ∧ signOf x y = 0) ∨ (y < x ∧ signOf x y = -1) := by
  unfold signOf
  rcases lt_trichotomy x y with h | h | h
  · exact .inl ⟨h, if_pos h⟩
  · exact .inr (.inl ⟨h, by simp [h]⟩)
  · exact .inr (.inr ⟨h, by simp [h.ne', not_lt_of_gt h]⟩)

theorem mem_signs_iff : signOf x y ∈ signs r ↔ r.Compares x y := by
  rcases signOf_cases x y with ⟨h, heq⟩ | ⟨h, heq⟩ | ⟨h, heq⟩
  · cases r <;> simp [signs, heq, Rel.Compares, h, h.le, h.ne, not_lt_of_gt h, not_le_of_gt h]
  · subst h
    cases r <;> simp [signs, heq, Rel.Compares]
  · cases r <;> simp [signs, heq, Rel.Compares, h, h.le, h.ne', not_lt_of_gt h, not_le_of_gt h]

theorem signOf_swap (x y : K) : signOf y x = -signOf x y := by
  rcases signOf_cases x y with ⟨h, heq⟩ | ⟨h, heq⟩ | ⟨h, heq⟩
  · simp [signOf, h, h.ne', not_lt_of_gt h]
  · simp [signOf, h]
  · simp [signOf, h, h.ne', not_lt_of_gt h]

theorem mem_ofSigns? {ss : List Int} (h : ofSigns? ss = some r) (n : Int) : n ∈ signs r ↔ n ∈ ss := by
  have hsame := List.find?_some h
  rw [Bool.and_eq_true, List.all_eq_true, List.all_eq_true] at hsame
  exact ⟨fun hn => List.contains_iff_mem.1 (hsame.1 n hn),
    fun hn => List.contains_iff_mem.1 (hsame.2 n hn)⟩

/-- **What one comparison tells about another one** between the same sides is right. -/
theorem sharpen_spec (h : if same then s.Compares x y else s.Compares y x) :
    (∀ v, sharpen r s same = some (.inl v) → (r.Compares x y ↔ v = true)) ∧
      ∀ r', sharpen r s same = some (.inr r') → (r.Compares x y ↔ r'.Compares x y) := by
  have hgiven : signOf x y ∈ if same then signs s else (signs s).map (-·) := by
    cases same with
    | true => exact mem_signs_iff.2 h
    | false =>
      refine List.mem_map.2 ⟨signOf y x, mem_signs_iff.2 h, ?_⟩
      rw [signOf_swap x y, neg_neg]
  unfold sharpen
  generalize (if same then signs s else (signs s).map (-·)) = given at hgiven
  dsimp only
  rw [← mem_signs_iff (r := r)]
  split
  · next hall =>
    have hmem := List.contains_iff_mem.1 (List.all_eq_true.1 hall _ hgiven)
    refine ⟨?_, nofun⟩
    rintro _ ⟨⟩
    exact iff_of_true hmem rfl
  · split
    · next hnone =>
      refine ⟨?_, nofun⟩
      rintro _ ⟨⟩
      rw [Bool.not_eq_true', List.any_eq_false] at hnone
      refine iff_of_false (fun hmem => hnone _ hgiven (List.contains_iff_mem.2 hmem)) (by simp)
    · refine ⟨?_, ?_⟩
      · intro v heq
        obtain ⟨_, -, heq⟩ := Option.map_eq_some_iff.1 heq
        cases heq
      · intro r' heq
        obtain ⟨_, hfound, heq⟩ := Option.map_eq_some_iff.1 heq
        cases heq
        rw [← mem_signs_iff (r := r'), mem_ofSigns? hfound, List.mem_filter]
        exact (and_iff_left (List.contains_iff_mem.2 hgiven)).symm

end Signs

variable {goal k small large : Term} {hyps : List Term} {call : Outcome Term}

theorem exists_of_asRel? {t : Term} {r : Rel} {a b : Term} (h : t.asRel? = some (r, a, b)) :
    t = app (.rel r) [a, b] := by
  unfold asRel? at h
  split at h
  · cases h
    rfl
  · cases h

theorem useComparison_cases (h : useComparison goal k = some call) :
    ∃ r s a b c d, goal = app (.rel r) [a, b] ∧ k = app (.rel s) [c, d] ∧
      ∃ same : Bool, (if same then a = c ∧ b = d else a = d ∧ b = c) ∧
        ((∃ v, sharpen r s same = some (.inl v) ∧ call = pure (truth v)) ∨
          ∃ r', sharpen r s same = some (.inr r') ∧ call = Statement.relate r' a b) := by
  unfold useComparison at h
  split at h
  · next r a b s c d hgoal hk =>
    refine ⟨r, s, a, b, c, d, exists_of_asRel? hgoal, exists_of_asRel? hk, ?_⟩
    dsimp only at h
    split at h
    · next hsides =>
      obtain ⟨known, hknown, rfl⟩ := Option.map_eq_some_iff.1 h
      refine ⟨a = c && b = d, ?_, ?_⟩
      · by_cases hsame : (a = c && b = d) = true
        · rw [if_pos hsame]
          simpa using hsame
        · rw [if_neg hsame]
          simpa [hsame] using hsides
      · cases known with
        | inl v => exact .inl ⟨v, hknown, rfl⟩
        | inr r' => exact .inr ⟨r', hknown, rfl⟩
    · cases h
  · cases h

theorem relates_of_sides? {M : Type} [LinearOrder M] {w : World M}
    (h : sides? k = some (small, large)) (hholds : w.Holds k) : w.Relates .le small large := by
  have hweak : ∀ {a b}, w.Relates .lt a b → w.Relates .le a b := by
    rintro a b (⟨hn, hlt⟩ | ⟨hn, hlt⟩)
    · exact .inl ⟨hn, le_of_lt hlt⟩
    · exact .inr ⟨hn, le_of_lt hlt⟩
  unfold sides? at h
  split at h
  · next hk =>
    rw [exists_of_asRel? hk, World.holds_rel] at hholds
    cases h
    exact hholds
  · next hk =>
    rw [exists_of_asRel? hk, World.holds_rel] at hholds
    cases h
    exact hweak hholds
  · next hk =>
    rw [exists_of_asRel? hk, World.holds_rel] at hholds
    cases h
    exact World.relates_flip.2 hholds
  · next hk =>
    rw [exists_of_asRel? hk, World.holds_rel] at hholds
    cases h
    exact hweak (World.relates_flip.2 hholds)
  · cases h

/-- **What one hypothesis says about an extremum**: one of its arguments is dominated by another. -/
theorem useDomination_cases (h : useDomination goal k = some call) :
    ∃ g as s c d, goal = app g as ∧ World.Extreme s (app g as) as ∧ c ∈ as ∧ d ∈ as ∧ c ≠ d ∧
      call = Evaluation.apply g (as.erase c) ∧
      ∀ {M : Type} [LinearOrder M] (w : World M), w.Holds k → w.Relates s c d := by
  unfold useDomination at h
  split at h
  · next small large hsides =>
    split at h
    · next hargs =>
      simp only [Bool.and_eq_true, decide_eq_true_eq, List.contains_iff_mem] at hargs
      obtain ⟨⟨hne, hsmall⟩, hlarge⟩ := hargs
      split at h
      · next as =>
        cases h
        exact ⟨.max, as, .le, small, large, rfl, .inl ⟨rfl, rfl⟩, hsmall, hlarge, hne, rfl,
          fun w hholds => relates_of_sides? hsides hholds⟩
      · next as =>
        cases h
        exact ⟨.orderMax, as, .le, small, large, rfl, .inl ⟨rfl, rfl⟩, hsmall, hlarge, hne, rfl,
          fun w hholds => relates_of_sides? hsides hholds⟩
      · next as =>
        cases h
        exact ⟨.min, as, .ge, large, small, rfl, .inr ⟨rfl, rfl⟩, hlarge, hsmall, hne.symm, rfl,
          fun w hholds => World.relates_flip.2 (relates_of_sides? hsides hholds)⟩
      · next as =>
        cases h
        exact ⟨.orderMin, as, .ge, large, small, rfl, .inr ⟨rfl, rfl⟩, hlarge, hsmall, hne.symm, rfl,
          fun w hholds => World.relates_flip.2 (relates_of_sides? hsides hholds)⟩
      · cases h
    · cases h
  · cases h

theorem reduceList_eq_mapM (hyps ts : List Term) : reduceList hyps ts = ts.mapM (reduce hyps) := by
  induction ts with
  | nil => rw [reduceList, List.mapM_nil]
  | cons t ts ih => rw [reduceList, List.mapM_cons, ih]

theorem reduce_leaf {t : Term} (happ : ∀ h as, t ≠ app h as) (hplain : Operation.isWritten t = false) :
    reduce hyps t = reduceHead hyps [] t := by
  cases t with
  | app h as => exact absurd rfl (happ h as)
  | lit l => cases hplain
  | _ => rw [reduce] <;> exact nofun

theorem exists_of_useHypotheses (h : useHypotheses hyps goal = some call) :
    ∃ k ∈ hyps, useComparison goal k = some call ∨ useDomination goal k = some call := by
  obtain ⟨k, hk, huse⟩ := List.exists_of_findSome?_eq_some h
  refine ⟨k, hk, ?_⟩
  cases hcomparison : useComparison goal k with
  | some call' =>
    rw [hcomparison] at huse
    exact .inl huse
  | none =>
    rw [hcomparison] at huse
    exact .inr huse

end Simplifier

theorem Magnitude.IsExtremal.erase {K : Type} [LinearOrder K] {value : Term → K} {s : Rel}
    {as : List Term} {c d : Term} {x : K} (h : Magnitude.IsExtremal s (as.map value) x)
    (hs : s = .le ∨ s = .ge) (hd : d ∈ as) (hne : c ≠ d) (hcd : s.Compares (value c) (value d)) :
    Magnitude.IsExtremal s ((as.erase c).map value) x := by
  obtain ⟨hbound, hmem⟩ := h
  have hkept : ∀ {t}, t ∈ as → t ≠ c → value t ∈ (as.erase c).map value :=
    fun ht hne => List.mem_map_of_mem ((List.mem_erase_of_ne hne).2 ht)
  refine ⟨fun u hu => ?_, ?_⟩
  · obtain ⟨t, ht, rfl⟩ := List.mem_map.1 hu
    exact hbound _ (List.mem_map_of_mem (List.mem_of_mem_erase ht))
  · obtain ⟨t, ht, rfl⟩ := List.mem_map.1 hmem
    by_cases heq : t = c
    · -- the dropped argument is extreme, so the one that dominates it has the same value
      rw [heq] at hbound ⊢
      have hdc := hbound _ (List.mem_map_of_mem hd)
      have hsame : value c = value d := by
        rcases hs with rfl | rfl
        · exact le_antisymm hcd hdc
        · exact le_antisymm hdc hcd
      rw [hsame]
      exact hkept hd hne.symm
    · exact hkept ht heq

namespace Calculus

variable {ι : Type*} [Nonempty ι] {M : Type} [LinearOrder M] {worlds : ι → World M}
  {V : Vocabulary} {S : Set ι} {ρ : Role} {a b t k : Term} {as us hyps : List Term} {h : Head}
  {call : Outcome Term} (hV : Calculus worlds V)

include hV

end Calculus

/-- **A quantity is reduced** to another one, which has its value in some of the worlds. -/
def Reduces {ι : Type*} {M : Type} (worlds : ι → World M) (V : Vocabulary) (S : Set ι) (ρ : Role)
    (t : Term) (call : Outcome Term) : Prop :=
  ∃ u, call.result = .ok u ∧ V ρ u ∧ Reduct t u ∧ ∀ i ∈ S, (worlds i).Same ρ u t

namespace Term

mutual

def hasZero : Term → Bool
  | num q => q == 0
  | app _ as => hasZeroList as
  | _ => false

def hasZeroList : List Term → Bool
  | [] => false
  | a :: as => a.hasZero || hasZeroList as

end

end Term

namespace Calculus

variable {ι : Type*} [Nonempty ι] {M : Type} [LinearOrder M] {worlds : ι → World M}
  {V : Vocabulary} {S : Set ι} {ρ : Role} {a b t u k : Term} {as us hyps : List Term} {h : Head}
  {call : Outcome Term} (hV : Calculus worlds V)

include hV

theorem isNumber_of_found {found : Term → Bool} (hfind : Magnitude.FindsNumbers found) (ht : V ρ t)
    (hfound : found t = true) : t.isNumber = true := by
  induction t using args_induction generalizing ρ with
  | step t ih =>
    rcases hV.shape ht with ⟨q, rfl⟩ | ⟨v, rfl, hv⟩ | ⟨h, as, rfl, hh⟩
    · rfl
    · rw [hfind.var v hv] at hfound
      cases hfound
    · rcases hfind.app h as hh hfound with hnumber | hall
      · exact hnumber
      · refine (Magnitude.isNumber_app hh).2 fun a ha => ?_
        obtain ⟨σ, hσ⟩ := hV.argument ht ha
        exact ih a ha hσ (hall a ha)

omit hV [Nonempty ι] in
theorem unmarked (hhyps : ∀ k ∈ hyps, V.Hypothesis k) : Magnitude.Unmarked hyps := by
  refine fun t => ⟨fun hmem => ?_, fun hmem => ?_⟩
  · rcases hhyps _ hmem with h | h <;> cases h
  · rcases hhyps _ hmem with h | h <;> cases h

theorem number_of_mem (ht : V .number (app h as)) (ha : a ∈ as) : V .number a := by
  obtain ⟨σ, hσ⟩ := hV.argument ht ha
  cases σ with
  | number => exact hσ
  | order =>
    obtain ⟨i⟩ := ‹Nonempty ι›
    have hdenotes := ((denotes_app h as).1 (hV.denotes ht i)).1 a ha
    exact absurd hdenotes (World.not_denotes_of_isOrder (hV.isOrder hσ))

theorem same_app (ht : V ρ (app h as)) {i : ι}
    (hus : List.Forall₂ (fun a u => Reduct a u ∧ ∀ σ, V σ a → (worlds i).Same σ u a) as us) :
    (worlds i).Same ρ (app h us) (app h as) := by
  cases ρ with
  | order => exact hV.size_congr ht i hus
  | number =>
    have hvals : us.map (val (worlds i).value) = as.map (val (worlds i).value) := by
      have hall := (List.forall₂_and_left as us).2 ⟨fun a ha => hV.number_of_mem ht ha, hus⟩
      clear hus ht
      induction hall with
      | nil => rfl
      | cons hau _ ih => rw [List.map_cons, List.map_cons, ih, show val _ _ = _ from hau.2.2 _ hau.1]
    change (app h us).val (worlds i).value = (app h as).val (worlds i).value
    rw [val_app, val_app, hvals]

end Calculus
end Majorant
