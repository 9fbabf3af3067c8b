import Majorant.Proofs.Context
import Majorant.Proofs.Session.Soundness
import Majorant.Proofs.Statement.Split

/-!
# Propositional tactics

Taking a goal or a hypothesis apart and distinguishing cases loses nothing: the state is valid exactly if all
states that are left are.
-/

namespace Majorant
open Term Proof

namespace World

variable {M : Type}

/-- **A statement has a meaning and can be taken apart.** -/
def Reads [LinearOrder M] (w : World M) (t : Term) : Prop := w.Interprets t ∧ w.Splits t

theorem exists_not {w : World M} {t : Term} (h : w.Interprets t) :
    ∃ u, (Statement.not t).result = .ok u := by
  cases h with
  | @marker g hh ts => cases g <;> first | exact ⟨_, rfl⟩ | cases hh
  | _ => exact ⟨_, rfl⟩

/-- The world with the degrees of orders as sizes, for given exponents of the variables. -/
def graded (w : World M) (e : Variable → ℚ) : World ℚ where
  value := w.value
  fits := w.fits
  size := Magnitude.degree e
  marks
    | app .littlewoodPaley as => ∃ i a, as[i]? = some a ∧
        Magnitude.IsExtremal .le ((as.eraseIdx i).map (Magnitude.degree e)) (Magnitude.degree e a)
    | t => w.marks t

theorem measures_graded (w : World M) (e : Variable → ℚ) : (w.graded e).Measures where
  extreme hh hne := (Magnitude.degree_extremum_iff hh hne e _).1 rfl
  interaction _ := Iff.rfl

theorem settles_of_kept [LinearOrder M] {w : World M} {a b : Term} (hnumbers : w.Numbers a b)
    (h : ∀ r, (Statement.relate r a b).result = .ok (app (.rel r) [a, b])) : w.Settles a b :=
  fun r => ⟨_, h r, .rel (.inl hnumbers), holds_rel⟩

theorem settles_self [LinearOrder M] {w : World M} {a : Term} (ha : a.Denotes w.value)
    (h : ∀ r, (Statement.relate r a a).result =
      .ok (truth (match r with | .le | .ge | .eq => true | _ => false))) : w.Settles a a := by
  refine fun r => ⟨_, h r, .truth _, ?_⟩
  rw [holds_truth, relates_of_numbers ⟨ha, ha⟩]
  cases r <;> simp [Rel.Compares]

end World

namespace Proof.State

variable {W : Type*} {Holds : W → Term → Prop} {s s' : State}

end Proof.State

namespace Tactic

section Addition

variable {P : Term → Prop} {s : State}

theorem goal_addAll (fallback : String) (names : List String) (ts : List Term) (s : State) :
    (addAll fallback names ts s).goal = s.goal := by
  induction ts generalizing names s with
  | nil => cases names <;> rfl
  | cons t ts ih => cases names <;> exact ih _ _

end Addition

variable {ι : Type*} {M : Type} [LinearOrder M] {worlds : ι → World M} {s : State} {t : Term}

end Tactic
end Majorant
