import Majorant.Term.Facts
import Mathlib.Algebra.Order.Ring.Unbundled.Rat
import Mathlib.Data.List.Basic
import Mathlib.Tactic.Common

/-!
# What is learned stays known

Learning only strikes classes out, and never the last one.
-/

namespace Majorant

namespace Knowledge

variable {k l : Knowledge} {p q : Property}

theorem is_iff : k.is p = true ↔ ∀ c ∈ k.possible, p.holds c = true := by
  unfold Knowledge.is ask
  rw [beq_iff_eq]
  split
  · next h => simpa using h
  · next h =>
    have hnot : ¬ ∀ c ∈ k.possible, p.holds c = true := by simpa using h
    split <;> simp [hnot]

theorem ask_eq_some_true_iff : k.ask p = some true ↔ ∀ c ∈ k.possible, p.holds c = true := by
  rw [← is_iff]
  unfold Knowledge.is
  rw [beq_iff_eq]

theorem ask_eq_some_false_iff (hne : k.possible ≠ []) :
    k.ask p = some false ↔ ∀ c ∈ k.possible, p.holds c = false := by
  unfold ask
  obtain ⟨c, hc⟩ := List.exists_mem_of_ne_nil _ hne
  split
  · next h =>
    have hall : ∀ c ∈ k.possible, p.holds c = true := by simpa using h
    exact iff_of_false nofun fun hnone => absurd (hall c hc) (by simp [hnone c hc])
  · split
    · next h => exact iff_of_true rfl (by simpa using h)
    · next h => exact iff_of_false nofun fun hnone => h (by simpa using hnone)

theorem exists_of_ask_eq_none (h : k.ask p = none) : ∃ c ∈ k.possible, p.holds c = true := by
  unfold ask at h
  split at h
  · cases h
  · split at h
    · cases h
    · next hnone => simpa using hnone

theorem isNot_iff (hne : k.possible ≠ []) :
    k.isNot p = true ↔ ∀ c ∈ k.possible, p.holds c = false := by
  rw [← ask_eq_some_false_iff hne]
  unfold isNot
  rw [beq_iff_eq]

theorem is_of_imp (h : k.is p = true) (himp : ∀ c, p.holds c = true → q.holds c = true) :
    k.is q = true := by
  rw [is_iff] at h ⊢
  exact fun c hc => himp c (h c hc)

theorem is_mono (h : k.is p = true) (hsub : l.possible ⊆ k.possible) : l.is p = true := by
  rw [is_iff] at h ⊢
  exact fun c hc => h c (hsub hc)

theorem possible_learn_subset (k : Knowledge) (p : Property) (a : Option Bool) :
    (k.learn p a).possible ⊆ k.possible := by
  cases a with
  | none => exact List.Subset.refl _
  | some b =>
    unfold learn
    dsimp only
    split
    · exact List.Subset.refl _
    · exact List.filter_subset_self _

theorem possible_learnAll_subset (k : Knowledge) (as : List (Property × Option Bool)) :
    (k.learnAll as).possible ⊆ k.possible := by
  unfold learnAll
  induction as generalizing k with
  | nil => exact List.Subset.refl _
  | cons a as ih => exact List.Subset.trans (ih (k.learn a.1 a.2)) (possible_learn_subset k a.1 a.2)

theorem learn_ne_nil (h : k.possible ≠ []) (p : Property) (a : Option Bool) :
    (k.learn p a).possible ≠ [] := by
  cases a with
  | none => exact h
  | some b =>
    unfold learn
    dsimp only
    split
    · exact h
    · next hrest => simpa using hrest

theorem learnAll_ne_nil (h : k.possible ≠ []) (as : List (Property × Option Bool)) :
    (k.learnAll as).possible ≠ [] := by
  unfold learnAll
  induction as generalizing k with
  | nil => exact h
  | cons a as ih => exact ih (learn_ne_nil h a.1 a.2)

theorem unknown_ne_nil : unknown.possible ≠ [] := by simp [unknown, ValueClass.all]

end Knowledge

namespace Facts
open Knowledge

theorem unlessTwice_of_all {as : List (Option Bool)} (h : ∀ a ∈ as, a = some true) :
    unlessTwice as = some true := by
  have hnone : as.any (·.isNone) = false := by
    rw [List.any_eq_false]
    intro a ha
    simp [h a ha]
  have hfalse : as.filter (· == some false) = [] := by
    rw [List.filter_eq_nil_iff]
    intro a ha
    simp [h a ha]
  simp [unlessTwice, hnone, hfalse]

theorem unlessTwice_ask {ks : List Knowledge} {p : Property} (h : ∀ k ∈ ks, k.is p = true) :
    unlessTwice (ks.map (·.ask p)) = some true := by
  apply unlessTwice_of_all
  intro a ha
  obtain ⟨k, hk, rfl⟩ := List.mem_map.1 ha
  exact ask_eq_some_true_iff.2 (is_iff.1 (h k hk))

theorem sum_ne_nil (ks : List Knowledge) : (sum ks).possible ≠ [] := by
  unfold sum
  dsimp only
  apply learnAll_ne_nil
  split
  · exact learn_ne_nil (learnAll_ne_nil unknown_ne_nil _) _ _
  · exact learnAll_ne_nil unknown_ne_nil _

/-- **A sum of real numbers is known to be real.** -/
theorem sum_is_real {ks : List Knowledge} (h : ∀ k ∈ ks, k.is .real = true) :
    (sum ks).is .real = true := by
  have himp : ∀ p : Property, (∀ c, Property.real.holds c = true → p.holds c = true) →
      ∀ k ∈ ks, k.is p = true := fun p hp k hk => is_of_imp (h k hk) hp
  have hcomm : ks.all (·.is .commutative) = true :=
    List.all_eq_true.2 (himp .commutative (by intro c; cases c <;> decide))
  -- the first five answers are yes; what is learned after them only strikes out more
  unfold sum
  rw [hcomm, unlessTwice_ask (himp .extReal (by intro c; cases c <;> decide)),
    unlessTwice_ask (himp .complex (by intro c; cases c <;> decide)),
    unlessTwice_ask (himp .finite (by intro c; cases c <;> decide)), unlessTwice_ask h]
  have hreal : (unknown.learnAll [(.commutative, some true), (.extReal, some true),
      (.complex, some true), (.finite, some true), (.real, some true)]).is .real = true := by decide
  refine is_mono hreal (List.Subset.trans (possible_learnAll_subset _ _) ?_)
  split
  · refine List.Subset.trans (possible_learn_subset _ _ _) ?_
    exact possible_learnAll_subset _ [(.rational, _), (.integer, _)]
  · exact possible_learnAll_subset _ [(.rational, _), (.integer, _)]

theorem possible_shift_subset (c : Rat) (a k : Knowledge) :
    (shift c a k).possible ⊆ k.possible := by
  unfold shift
  cases nearest a with
  | none => exact List.Subset.refl _
  | some v => exact possible_learnAll_subset k _

theorem shift_ne_nil {k : Knowledge} (h : k.possible ≠ []) (c : Rat) (a : Knowledge) :
    (shift c a k).possible ≠ [] := by
  unfold shift
  cases nearest a with
  | none => exact h
  | some v => exact learnAll_ne_nil h _

theorem product_ne_nil (fs : List Factor) : (product fs).possible ≠ [] := by
  unfold product
  apply learnAll_ne_nil
  split
  · exact learn_ne_nil (learnAll_ne_nil (learnAll_ne_nil unknown_ne_nil _) _) _ _
  · exact learnAll_ne_nil (learnAll_ne_nil unknown_ne_nil _) _

theorem possible_product_subset (fs : List Factor) :
    (product fs).possible ⊆ (unknown.learnAll (productNature (fs.map (·.known)))).possible := by
  unfold product
  refine List.Subset.trans (possible_learnAll_subset _ _) ?_
  split
  · exact List.Subset.trans (possible_learn_subset _ _ _) (possible_learnAll_subset _ _)
  · exact possible_learnAll_subset _ _

theorem power_ne_nil (b e : Knowledge) (number : Option Rat) (same : Bool) (baseNumber : Option Rat) :
    (power b e number same baseNumber).possible ≠ [] := by
  unfold power
  dsimp only
  split
  · exact learn_ne_nil (learn_ne_nil (learnAll_ne_nil unknown_ne_nil _) _ _) _ _
  · exact learnAll_ne_nil unknown_ne_nil _

theorem absolute_ne_nil (k : Knowledge) : (absolute k).possible ≠ [] := by
  unfold absolute
  dsimp only
  split
  · exact learnAll_ne_nil (learnAll_ne_nil unknown_ne_nil _) _
  · exact learnAll_ne_nil unknown_ne_nil _

theorem extremum_ne_nil (greatest : Bool) (ks : List Knowledge) :
    (extremum greatest ks).possible ≠ [] :=
  learnAll_ne_nil unknown_ne_nil _

end Facts

namespace Term

theorem factorList_eq_map (ts : List Term) : factorList ts = ts.map factor := by
  induction ts with
  | nil => simp [factorList]
  | cons t ts ih => simp [factorList, ih]

theorem facts_add (as : List Term) :
    (app .add as).facts = (sumFactor as (as.map factor)).known := by
  rw [facts, factor, factorList_eq_map]

theorem facts_mul (as : List Term) : (app .mul as).facts = Facts.product (as.map factor) := by
  rw [facts, factor, factorList_eq_map]

theorem facts_num (q : Rat) : (num q).facts = Knowledge.exact q := rfl

theorem num_is_iff {q : Rat} {p : Property} :
    (num q).is p = true ↔ p.holds (ValueClass.ofRat q) = true := by
  rw [Term.is, facts_num, Knowledge.is_iff]
  exact List.forall_mem_singleton

theorem num_is_positive {q : Rat} : (num q).is .positive = true ↔ 0 < q := by
  rw [num_is_iff, ← Rat.num_pos]
  unfold ValueClass.ofRat
  split_ifs <;> simp_all [Property.holds, ValueClass.isPositive, ValueClass.isInfinite]

theorem facts_var (v : Variable) : (var v).facts = Knowledge.ofKind v.kind := rfl

theorem possible_add_subset (as : List Term) :
    (app .add as).facts.possible ⊆ (Facts.sum (as.map facts)).possible := by
  have hmap : (as.map factor).map (·.known) = as.map facts := by
    rw [List.map_map]
    rfl
  rw [facts_add, ← hmap]
  unfold sumFactor
  split
  · exact Facts.possible_shift_subset _ _ _
  · exact List.Subset.refl _

theorem add_ne_nil (as : List Term) : (app .add as).facts.possible ≠ [] := by
  rw [facts_add]
  unfold sumFactor
  split
  · exact Facts.shift_ne_nil (Facts.sum_ne_nil _) _ _
  · exact Facts.sum_ne_nil _

/-- **What is known of a term is never contradictory.** -/
theorem facts_ne_nil (t : Term) : t.facts.possible ≠ [] := by
  unfold facts factor
  split
  · simp [Knowledge.exact]
  · simp
  · simp
  · simp
  · decide
  · next v => cases v.kind <;> decide
  · next as =>
    have hsum := add_ne_nil as
    rw [facts, factor] at hsum
    exact hsum
  · exact Facts.product_ne_nil _
  · unfold powerFactor
    split
    · exact Facts.power_ne_nil _ _ _ _ _
    · exact Knowledge.unknown_ne_nil
  · unfold absoluteFactor
    split
    · exact Facts.absolute_ne_nil _
    · exact Knowledge.unknown_ne_nil
  · exact Facts.extremum_ne_nil _ _
  · exact Facts.extremum_ne_nil _ _
  · exact Knowledge.unknown_ne_nil

end Term
end Majorant
