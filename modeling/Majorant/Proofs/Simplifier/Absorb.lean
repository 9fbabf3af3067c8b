import Majorant.Proofs.Context
import Majorant.Proofs.Simplifier.Calculus
import Majorant.Simplifier

/-!
# Replacing statements by their truth values

Where a statement holds or fails, it can be replaced by its truth value inside another one.
-/

namespace Majorant
open Term Simplifier Substitution

section Members

variable {h : Head} {c : Bool} {old new t : Term} {ts : List Term}

theorem mem_connectiveMembers (ht : t ∈ connectiveMembers h c old new ts) : t = new ∨ t ∈ ts := by
  unfold connectiveMembers at ht
  dsimp only at ht
  split at ht
  · split at ht
    · rcases List.mem_append.1 ht with ht | ht
      · exact .inr (List.mem_of_mem_filter (List.mem_of_mem_filter ht))
      · exact .inl (List.mem_singleton.1 ht)
    · exact .inr (List.mem_of_mem_filter ht)
  · exact .inr (List.mem_of_mem_filter ht)

variable {M : Type} [LinearOrder M] {w : World M}

theorem World.forall_connectiveMembers (hiff : w.Holds old ↔ w.Holds new) :
    (∀ t ∈ connectiveMembers .and false old new ts, w.Holds t) ↔ ∀ t ∈ ts, w.Holds t := by
  have hopen : (∀ t ∈ ts.filter (· ≠ truth true), w.Holds t) ↔ ∀ t ∈ ts, w.Holds t := by
    simp only [List.mem_filter, decide_eq_true_iff, and_imp]
    refine forall₂_congr fun t _ => ⟨fun hholds => ?_, fun hholds _ => hholds⟩
    by_cases htop : t = truth true
    · rw [htop, holds_truth]
    · exact hholds htop
  rw [← hopen]
  unfold connectiveMembers
  simp only [Bool.not_false]
  generalize ts.filter (· ≠ truth true) = ts
  split
  · next g os =>
    split
    · next hinside =>
      rw [Bool.and_eq_true, decide_eq_true_iff, List.all_eq_true] at hinside
      obtain ⟨rfl, hinside⟩ := hinside
      rw [List.forall_mem_append, List.forall_mem_singleton, ← hiff, holds_and]
      constructor
      · rintro ⟨hrest, hos⟩ t ht
        by_cases hmem : t ∈ os
        · exact hos t hmem
        · exact hrest t (List.mem_filter.2 ⟨ht, by simpa using hmem⟩)
      · intro hall
        exact ⟨fun t ht => hall t (List.mem_of_mem_filter ht),
          fun o ho => hall o (List.contains_iff_mem.1 (hinside o ho))⟩
    · exact Iff.rfl
  · exact Iff.rfl

theorem World.exists_connectiveMembers (hiff : w.Holds old ↔ w.Holds new) :
    (∃ t ∈ connectiveMembers .or true old new ts, w.Holds t) ↔ ∃ t ∈ ts, w.Holds t := by
  have hopen : (∃ t ∈ ts.filter (· ≠ truth false), w.Holds t) ↔ ∃ t ∈ ts, w.Holds t := by
    simp only [List.mem_filter, decide_eq_true_iff, and_assoc]
    refine exists_congr fun t => and_congr_right fun _ => ⟨fun hholds => hholds.2, fun hholds => ?_⟩
    refine ⟨?_, hholds⟩
    rintro rfl
    simp at hholds
  rw [← hopen]
  unfold connectiveMembers
  simp only [Bool.not_true]
  generalize ts.filter (· ≠ truth false) = ts
  split
  · next g os =>
    split
    · next hinside =>
      rw [Bool.and_eq_true, decide_eq_true_iff, List.all_eq_true] at hinside
      obtain ⟨rfl, hinside⟩ := hinside
      constructor
      · rintro ⟨t, ht, hholds⟩
        rcases List.mem_append.1 ht with ht | ht
        · exact ⟨t, List.mem_of_mem_filter ht, hholds⟩
        · rw [List.mem_singleton.1 ht, ← hiff, holds_or] at hholds
          obtain ⟨o, ho, hholds⟩ := hholds
          exact ⟨o, List.contains_iff_mem.1 (hinside o ho), hholds⟩
      · rintro ⟨t, ht, hholds⟩
        by_cases hmem : t ∈ os
        · exact ⟨new, by simp, hiff.1 (holds_or.2 ⟨t, hmem, hholds⟩)⟩
        · exact ⟨t, List.mem_append_left _ (List.mem_filter.2 ⟨ht, by simpa using hmem⟩), hholds⟩
    · exact Iff.rfl
  · exact Iff.rfl

end Members

/-- A hypothesis is a declaration or a statement over the vocabulary. -/
def Vocabulary.Hypothesis (V : Vocabulary) (h : Term) : Prop :=
  Proof.isDeclaration h = true ∨ V.Sentence h

def models {ι : Type*} {M : Type} [LinearOrder M] (worlds : ι → World M) (hyps : List Term) : Set ι :=
  {i | ∀ h ∈ hyps, (worlds i).Holds h}

theorem Vocabulary.Sentence.ne_quantity {V : Vocabulary} {t : Term} {h : Head}
    (ht : V.Sentence t) (hh : h.isQuantity = true) (as : List Term) : t ≠ app h as := by
  rintro rfl
  cases ht <;> cases hh

namespace Calculus

variable {ι : Type*} [Nonempty ι] {M : Type} [LinearOrder M] {worlds : ι → World M}
  {V W : Vocabulary} {S : Set ι} {ρ : Role} {n : Nat} {old new a t : Term} {as hyps : List Term}
  {h : Head} {c : Bool}

omit [Nonempty ι] in
/-- To replace a statement inside an application other than of a connective goes on in the arguments. -/
theorem replaceAux_app (hold : V.Sentence old) (hne : app h as ≠ old)
    (hplain : ∀ a ∈ as, Operation.isWritten a = false) (hbase : h = .pow → ∀ a ∈ as, a ≠ old)
    (hand : h ≠ .and) (hor : h ≠ .or) :
    replaceAux (n + 1) old new (app h as) = (do
      let bs ← as.mapM (replaceAux n old new)
      if bs = as then return app h as else Evaluation.apply h bs) := by
  have hargs : ∀ f : Term → Outcome Term,
      (∀ a, Operation.isWritten a = false → f a = replaceAux n old new a) →
        as.mapM f = as.mapM (replaceAux n old new) := by
    intro f hf
    clear hne hbase
    induction as with
    | nil => rfl
    | cons a as ih =>
      obtain ⟨ha, has⟩ := List.forall_mem_cons.1 hplain
      rw [List.mapM_cons, List.mapM_cons, ih has, hf a ha]
  have hsum : inSum? (app .add as) old = none := by
    unfold inSum?
    split
    · exact absurd rfl (hold.ne_quantity (h := .add) rfl _)
    · rfl
  have hpower : inPower? (app .pow as) old = none := by
    unfold inPower?
    split
    · exact absurd rfl (hold.ne_quantity (h := .pow) rfl _)
    · rfl
  rw [replaceAux, if_neg hne]
  extract_lets inArguments
  refine Eq.trans (b := inArguments h as) ?_ (congrArg (· >>= _) (hargs _ fun a ha => ?_))
  case refine_2 =>
    cases a with
    | lit => cases ha
    | _ => rfl
  cases h with
  | add =>
    dsimp only
    split
    · next hm => cases hsum.symm.trans hm
    · rfl
  | mul =>
    cases old with
    | app g os =>
      cases g with
      | mul => exact absurd rfl (hold.ne_quantity rfl os)
      | _ => rfl
    | _ => rfl
  | pow =>
    rcases as with _ | ⟨b, _ | ⟨e, _ | ⟨d, ds⟩⟩⟩
    · rfl
    · rfl
    · dsimp only
      rw [if_neg (hbase rfl b List.mem_cons_self)]
      split
      · next hk => cases hpower.symm.trans hk
      · rfl
    · rfl
  | and => exact absurd rfl hand
  | or => exact absurd rfl hor
  | _ => rfl

variable (hV : Calculus worlds V)
include hV

end Calculus
end Majorant
