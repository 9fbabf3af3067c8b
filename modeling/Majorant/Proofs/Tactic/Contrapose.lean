import Majorant.Proofs.Context
import Majorant.Proofs.Session.Soundness
import Majorant.Proofs.Statement.Reduction

/-!
# Contraposition

The negations of the goal and of a hypothesis change places.
-/

namespace Majorant
open Term Proof

variable {ι : Type*} {M : Type} [LinearOrder M] {worlds : ι → World M} {s : State} {hyp : String}
  {states : List State}

/-- The comparisons in the negation of a statement are reduced to ones that say the same. -/
def World.ReducesNot (w : World M) (t : Term) : Prop :=
  ∀ u, (Statement.not t).result = .ok u →
    ∀ c ∈ Statement.atoms u, World.isArithmetic c = true → w.Reduces c

theorem World.says_minimalReduced_not {w : World M} {t u v : Term} (h : w.Interprets t)
    (hreduces : w.ReducesNot t) (hu : (Statement.not t).result = .ok u)
    (hv : (Statement.minimalReduced u).result = .ok v) : w.Says v (¬ w.Holds t) := by
  obtain ⟨hmeans, hiff⟩ := says_not h hu
  exact (says_minimalReduced hmeans (hreduces u hu) hv).congr hiff

namespace Tactic

theorem contrapose_some {h : Term} (hget : s.context.get? hyp = some h)
    (hrun : ((contrapose hyp).run s).result = .ok states) :
    ∃ notH goal notGoal assumed, (Statement.not h).result = .ok notH ∧
      (Statement.minimalReduced notH).result = .ok goal ∧ (Statement.not s.goal).result = .ok notGoal ∧
      (Statement.minimalReduced notGoal).result = .ok assumed ∧
      states = [(s.withGoal goal).put hyp assumed] := by
  have heq : (contrapose hyp).run s = contraposeOf hyp s := rfl
  rw [heq, contraposeOf, hget] at hrun
  obtain ⟨-, -, hrun⟩ := Outcome.result_bind_eq_ok.1 hrun
  obtain ⟨-, -, hrun⟩ := Outcome.result_bind_eq_ok.1 hrun
  obtain ⟨notH, hnotH, hrun⟩ := Outcome.result_bind_eq_ok.1 hrun
  obtain ⟨goal, hgoal, hrun⟩ := Outcome.result_bind_eq_ok.1 hrun
  obtain ⟨notGoal, hnotGoal, hrun⟩ := Outcome.result_bind_eq_ok.1 hrun
  obtain ⟨assumed, hassumed, hrun⟩ := Outcome.result_bind_eq_ok.1 hrun
  cases hrun
  exact ⟨notH, goal, notGoal, assumed, hnotH, hgoal, hnotGoal, hassumed, rfl⟩

theorem contrapose_none (hget : s.context.get? hyp = none)
    (hrun : ((contrapose hyp).run s).result = .ok states) :
    ∃ goal, (Statement.not s.goal).result = .ok goal ∧ states = [(s.withGoal goal).put hyp bot] := by
  have heq : (contrapose hyp).run s = contraposeOf hyp s := rfl
  rw [heq, contraposeOf, hget] at hrun
  obtain ⟨-, -, hrun⟩ := Outcome.result_bind_eq_ok.1 hrun
  obtain ⟨goal, hgoal, hrun⟩ := Outcome.result_bind_eq_ok.1 hrun
  cases hrun
  exact ⟨goal, hgoal, rfl⟩

/-- **Contraposition.**  With a hypothesis of the given name it is sound.  Without one it always leaves a
valid state, so it is sound only for a state that is valid already. -/
theorem contrapose_sound {ι : Type*} {M : Type} [LinearOrder M] {worlds : ι → World M} {s : State}
    {hyp : String} {states : List State} :
    (∀ h, s.context.get? hyp = some h →
      (∀ i, (worlds i).Interprets h ∧ (worlds i).Interprets s.goal) →
      (∀ i, (worlds i).ReducesNot h ∧ (worlds i).ReducesNot s.goal) →
      LocallySound (fun i => (worlds i).Holds) (.contrapose hyp) s) ∧
    (s.context.get? hyp = none → ((contrapose hyp).run s).result = .ok states →
      (∀ s' ∈ states, s'.Valid fun i => (worlds i).Holds) ∧
      (LocallySound (fun i => (worlds i).Holds) (.contrapose hyp) s ↔
        s.Valid fun i => (worlds i).Holds)) := by
  refine ⟨?_, ?_⟩
  · intro h hget hmeans hreduces states hrun hvalid i hhyps
    obtain ⟨notH, goal, notGoal, assumed, hnotH, hgoal, hnotGoal, hassumed, rfl⟩ :=
      contrapose_some hget hrun
    have hgoal := World.says_minimalReduced_not (hmeans i).1 (hreduces i).1 hnotH hgoal
    have hassumed := World.says_minimalReduced_not (hmeans i).2 (hreduces i).2 hnotGoal hassumed
    -- if the goal failed, the state left would refute the hypothesis
    by_contra hfails
    have hnot := hvalid _ (List.mem_singleton_self _) i fun k hk => by
      rcases Context.mem_hypotheses_put hk with rfl | hk
      · exact hassumed.2.2 hfails
      · exact hhyps k hk
    exact hgoal.2.1 hnot (hhyps h (Context.mem_hypotheses_of_get? hget))
  · intro hget hrun
    obtain ⟨goal, -, rfl⟩ := contrapose_none hget hrun
    have hvalid : ∀ s' ∈ [(s.withGoal goal).put hyp bot], s'.Valid fun i => (worlds i).Holds := by
      intro s' hs' i hhyps
      rw [List.mem_singleton.1 hs'] at hhyps
      have hbot := hhyps bot (Context.mem_put_self s.context hyp bot)
      simp [bot] at hbot
    refine ⟨hvalid, ?_, ?_⟩
    · intro hsound
      exact hsound _ hrun hvalid
    · intro h _ _ _
      exact h

def largeNumber : State :=
  ⟨app (.rel .gt) [var ⟨"x", .real⟩, num 0],
    [("x", declare ⟨"x", .real⟩), ("h", app (.rel .gt) [var ⟨"x", .real⟩, num 1])]⟩

def smallNumber : State :=
  ⟨app (.rel .le) [var ⟨"x", .real⟩, num 1],
    [("x", declare ⟨"x", .real⟩), ("h", app (.rel .le) [var ⟨"x", .real⟩, num 0])]⟩

def someNumber : State := ⟨app (.rel .gt) [var ⟨"x", .real⟩, num 0], [("x", declare ⟨"x", .real⟩)]⟩

def noNumber : State :=
  ⟨app (.rel .le) [var ⟨"x", .real⟩, num 0], [("x", declare ⟨"x", .real⟩), ("h", bot)]⟩

theorem relates_number {w : World M} {r : Rel} {q : Rat} :
    w.Relates r (var ⟨"x", .real⟩) (num q) ↔ r.Compares (w.value ⟨"x", .real⟩) (q : ℝ) := by
  rw [World.relates_of_numbers ⟨(denotes_var _).2 rfl, denotes_num q⟩, val_var, val_num]

theorem interprets_number {M : Type} {w : World M} {r : Rel} {q : Rat} (hq : (num q).leadingMinus = false) :
    w.Interprets (app (.rel r) [var ⟨"x", .real⟩, num q]) := .rel (.inr ⟨rfl, hq⟩)

theorem reducesNot_number {w : World M} {r : Rel} {q : Rat} (hq : (num q).leadingMinus = false)
    (hreduced : (Statement.reduceComparison (app (.rel r.negate) [var ⟨"x", .real⟩, num q])).result =
      .ok (app (.rel r.negate) [var ⟨"x", .real⟩, num q])) :
    w.ReducesNot (app (.rel r) [var ⟨"x", .real⟩, num q]) := by
  intro u hu c hc _ v hv
  cases hu
  rw [List.mem_singleton.1 hc] at hv ⊢
  rw [hreduced] at hv
  cases hv
  exact World.says_self (interprets_number hq)

theorem smallNumber_valid : smallNumber.Valid fun w : World Unit => w.Holds := by
  intro w hhyps
  have hle : w.Holds (app (.rel .le) [var ⟨"x", .real⟩, num 0]) := hhyps _ (by decide)
  rw [World.holds_rel, relates_number] at hle
  change w.Holds (app (.rel .le) [var ⟨"x", .real⟩, num 1])
  rw [World.holds_rel, relates_number]
  simp only [Rel.Compares, Rat.cast_zero, Rat.cast_one] at hle ⊢
  exact hle.trans zero_le_one

theorem someNumber_not_valid : ¬ someNumber.Valid fun w : World Unit => w.Holds := by
  intro hvalid
  have hgoal := hvalid (World.ones.update ⟨"x", .real⟩ 0 ⟨True.intro, True.intro⟩) fun h hh => by
    rw [List.mem_singleton.1 hh]
    exact World.holds_declare
  rw [someNumber, World.holds_rel, relates_number] at hgoal
  simp [Rel.Compares, World.update] at hgoal

theorem contrapose_numbers :
    ((contrapose "h").run largeNumber).result = .ok [smallNumber] ∧
      (largeNumber.Valid fun w : World Unit => w.Holds) ∧
      ((contrapose "h").run someNumber).result = .ok [noNumber] ∧
      (Tactic.trivial.run noNumber).result = .ok [] ∧
      (noNumber.Valid fun w : World Unit => w.Holds) ∧
      ¬ LocallySound (fun w : World Unit => w.Holds) (.contrapose "h") someNumber := by
  have hlarge : ((contrapose "h").run largeNumber).result = .ok [smallNumber] := by
    with_unfolding_all rfl
  have hsome : ((contrapose "h").run someNumber).result = .ok [noNumber] := by
    with_unfolding_all rfl
  obtain ⟨hsound, -⟩ := @contrapose_sound (World Unit) Unit _ id largeNumber "h" [smallNumber]
  obtain ⟨-, hfails⟩ := @contrapose_sound (World Unit) Unit _ id someNumber "h" [noNumber]
  have hvalid := hsound _ rfl (fun _ => ⟨interprets_number rfl, interprets_number rfl⟩)
    (fun _ => ⟨reducesNot_number rfl (by with_unfolding_all rfl),
      reducesNot_number rfl (by with_unfolding_all rfl)⟩) _ hlarge
    (List.forall_mem_singleton.2 smallNumber_valid)
  obtain ⟨hno, hiff⟩ := hfails rfl hsome
  refine ⟨hlarge, hvalid, hsome, by with_unfolding_all rfl, hno _ (List.mem_singleton_self _), ?_⟩
  exact fun h => someNumber_not_valid (hiff.1 h)

end Tactic
end Majorant
