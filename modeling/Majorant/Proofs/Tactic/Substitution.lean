import Majorant.Proofs.Scope.Tactic
import Majorant.Proofs.Tactic.Simplify

/-!
# Substitution by an equation

If to replace one side of an equation by the other keeps what statements say where the equation holds, then
the hypotheses can be replaced together, since the equation itself is kept, and so can the goal.
-/

namespace Majorant
open Term Proof Simplifier Substitution

variable {ι : Type*} {M : Type} [LinearOrder M] {worlds : ι → World M} {S : Set ι}

namespace Calculus

variable [Nonempty ι] {V : Vocabulary} {σ : Role} {old new t : Term} {as : List Term} {h : Head} {n : Nat}

omit [Nonempty ι] in
theorem replaceAux_statement (hh : (∃ r, h = .rel r) ∨ h = .not ∨ h = .littlewoodPaley)
    (hne : app h as ≠ old) (hplain : ∀ a ∈ as, Operation.isWritten a = false) :
    replaceAux (n + 1) old new (app h as) = (do
      let bs ← as.mapM (replaceAux n old new)
      if bs = as then return app h as else Evaluation.apply h bs) := by
  have hcongr : ∀ {f g : Term → Outcome Term} {ts : List Term}, (∀ a ∈ ts, f a = g a) →
      ts.mapM f = ts.mapM g := by
    intro f g ts hts
    induction ts with
    | nil => rfl
    | cons a ts ih =>
      obtain ⟨ha, hts⟩ := List.forall_mem_cons.1 hts
      rw [List.mapM_cons, List.mapM_cons, ha, ih hts]
  have hargs : ∀ {f : Term → Outcome Term}, (∀ a, Operation.isWritten a = false →
      f a = replaceAux n old new a) → as.mapM f = as.mapM (replaceAux n old new) :=
    fun hf => hcongr fun a ha => hf a (hplain a ha)
  rw [replaceAux, if_neg hne]
  rcases hh with ⟨r, rfl⟩ | rfl | rfl
  all_goals
    refine congrArg (· >>= _) (hargs fun a ha => ?_)
    cases a with
    | lit => cases ha
    | _ => rfl

omit [Nonempty ι] in
theorem connectiveMembers_quantity {c : Bool} {ts : List Term} (hold : ∀ os, old ≠ app h os) :
    connectiveMembers h c old new ts = ts.filter (· ≠ truth (!c)) := by
  unfold connectiveMembers
  dsimp only
  split
  · next g os =>
    have hg : g ≠ h := fun heq => hold os (by rw [heq])
    rw [if_neg (by simp [hg])]
  · rfl

omit [Nonempty ι] in
theorem connectiveMembers_top (h : Head) (c : Bool) (ts : List Term) :
    connectiveMembers h c top top ts = ts.filter (· ≠ truth (!c)) :=
  connectiveMembers_quantity nofun

variable (hV : Calculus worlds V)
include hV

end Calculus

namespace Tactic

variable {c d : Context} {s : State} {a b old new : Term} {hyp : String} {reversed : Bool}

/-- **What becomes of a hypothesis**: declarations and the equation itself are kept, and in any other
hypothesis the one side is replaced by the other. -/
def Rewritten (hyp : String) (old new : Term) (p q : String × Term) : Prop :=
  q.1 = p.1 ∧ if isDeclaration p.2 || p.1 == hyp then q.2 = p.2
    else isDeclaration q.2 = false ∧ (replace old new p.2).result = .ok q.2

structure Follows (worlds : ι → World M) (S : Set ι) (hyp : String) (old new : Term)
    (p q : String × Term) : Prop where
  rewritten : Rewritten hyp old new p q
  holds : ∀ i ∈ S, ((worlds i).Holds q.2 ↔ (worlds i).Holds p.2)

theorem Rewritten.cases {p q : String × Term} (h : Rewritten hyp old new p q) :
    q = p ∨ p.1 ≠ hyp ∧ q.1 ≠ hyp ∧ isDeclaration p.2 = false ∧ isDeclaration q.2 = false := by
  obtain ⟨hname, h⟩ := h
  split at h
  · exact .inl (Prod.ext hname h)
  · next hkept =>
    simp only [Bool.or_eq_true, beq_iff_eq, not_or, Bool.not_eq_true] at hkept
    exact .inr ⟨hkept.2, hname ▸ hkept.2, hkept.1, h.1⟩

section Meaning

variable {V : Vocabulary} {t : Term}

end Meaning

end Tactic
end Majorant
