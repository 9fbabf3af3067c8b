import Majorant.Proofs.Session.Navigation
import Majorant.Proofs.Session.OpenGoals
import Mathlib.Algebra.GroupWithZero.Nat

/-!
# The number of a goal

The count for a goal reports all goals before it, but of the later ones only those that stand *beside* it, as
later children of one of its ancestors.
-/

namespace Majorant
open Proof

namespace Proof.Tree

variable {S T : Type} {t n : Tree S T} {p g : Path} {i : Nat}

mutual

theorem length_openFrom (here : Path) (t : Tree S T) : (openFrom [] here t).length = t.openCount := by
  obtain ⟨s, x, cs⟩ := t
  cases x with
  | none => simp [openCount, openGoals, openFrom]
  | some x => simp [openCount, openGoals, openFrom, length_openFromList]

theorem length_openFromList (here : Path) (i : Nat) (cs : List (Tree S T)) :
    (openFromList [] here i cs).length = (cs.map openCount).sum := by
  cases cs with
  | nil => rfl
  | cons c cs =>
    rw [openFromList, List.length_append, length_openFrom, length_openFromList, List.map_cons,
      List.sum_cons]

end

theorem openFromList_append (here : Path) (i : Nat) (cs ds : List (Tree S T)) :
    openFromList [] here i (cs ++ ds) =
      openFromList [] here i cs ++ openFromList [] here (i + cs.length) ds := by
  induction cs generalizing i with
  | nil => rfl
  | cons c cs ih =>
    rw [List.cons_append, openFromList, ih, openFromList, List.append_assoc, List.length_cons,
      Nat.add_right_comm, Nat.add_assoc]

mutual

/-- **Of a subtree without the target** all goals are reported before the target, but after it only the
subtree itself, if it is open. -/
theorem positionFrom_of_outside {target here : Path} (h : ¬ here <+: target) (t : Tree S T) :
    positionFrom target here t = ⟨false, t.openCount, if t.tactic.isNone then 1 else 0⟩ := by
  obtain ⟨s, x, cs⟩ := t
  have hne : here ≠ target := fun heq => h (heq ▸ List.prefix_refl here)
  cases x with
  | none => simp [positionFrom, hne, openCount, openGoals, openFrom, tactic]
  | some x =>
    rw [positionFrom, if_neg hne,
      positionList_of_outside 0 0 cs fun k _ _ => not_isPrefix_append h [k]]
    simp [openCount, openGoals, openFrom, tactic, length_openFromList]

theorem positionList_of_outside {target here : Path} {i : Nat} (b a : Nat) (cs : List (Tree S T))
    (h : ∀ k, i ≤ k → k < i + cs.length → ¬ here ++ [k] <+: target) :
    positionList target here i ⟨false, b, a⟩ cs = ⟨false, b + (cs.map openCount).sum, a⟩ := by
  cases cs with
  | nil => rfl
  | cons c cs =>
    have hnext : Position.next ⟨false, b, a⟩ (positionFrom target (here ++ [i]) c) =
        ⟨false, b + c.openCount, a⟩ := by
      rw [positionFrom_of_outside (h i (Nat.le_refl i) (by simp))]
      rfl
    rw [positionList, hnext, positionList_of_outside, List.map_cons, List.sum_cons, Nat.add_assoc]
    intro k hik hk
    exact h k (by omega) (by rw [List.length_cons]; omega)

end

theorem positionList_of_found {target here : Path} {i : Nat}
    (h : ∀ k, i ≤ k → ¬ here ++ [k] <+: target) (b a : Nat) (cs : List (Tree S T)) :
    positionList target here i ⟨true, b, a⟩ cs =
      ⟨true, b, a + cs.countP fun c => c.tactic.isNone⟩ := by
  induction cs generalizing i a with
  | nil => rfl
  | cons c cs ih =>
    have hnext : Position.next ⟨true, b, a⟩ (positionFrom target (here ++ [i]) c) =
        ⟨true, b, a + if c.tactic.isNone then 1 else 0⟩ := by
      rw [positionFrom_of_outside (h i (Nat.le_refl i))]
      rfl
    rw [positionList, hnext, ih fun k hk => h k (by omega), List.countP_cons, Nat.add_assoc,
      Nat.add_comm (List.countP _ cs)]

theorem positionList_append (target here : Path) (i : Nat) (sofar : Position)
    (cs ds : List (Tree S T)) :
    positionList target here i sofar (cs ++ ds) =
      positionList target here (i + cs.length) (positionList target here i sofar cs) ds := by
  induction cs generalizing i sofar with
  | nil => rfl
  | cons c cs ih =>
    rw [List.cons_append, positionList, ih, positionList, List.length_cons]
    congr 1
    omega

/-- **A node stands beside another one** if it is a child of one of the ancestors of that node. -/
def Beside (g h : Path) : Prop := h.dropLast <+: g

instance (g h : Path) : Decidable (Beside g h) := inferInstanceAs (Decidable (_ <+: _))

/-- Below another child of an ancestor, no node but that child itself stands beside the target. -/
theorem beside_child_iff {here p g : Path} {i k : Nat} (h : k ≠ i) :
    Beside (here ++ i :: p) (here ++ k :: g) ↔ g = [] := by
  rw [Beside, List.dropLast_append_of_ne_nil (List.cons_ne_nil k g), List.prefix_append_right_inj]
  cases g with
  | nil => simp
  | cons j g =>
    rw [List.dropLast_cons_of_ne_nil (List.cons_ne_nil j g), List.cons_prefix_cons]
    simp [h]

theorem countP_beside_openFromList {here p : Path} {i k : Nat} (h : i < k) (cs : List (Tree S T)) :
    ((openFromList [] here k cs).countP fun g => Beside (here ++ i :: p) g) =
      cs.countP fun c => c.tactic.isNone := by
  induction cs generalizing k with
  | nil => rfl
  | cons c cs ih =>
    have hchild : ((openFrom [] (here ++ [k]) c).countP fun g => Beside (here ++ i :: p) g) =
        if c.tactic.isNone then 1 else 0 := by
      obtain ⟨s, x, ds⟩ := c
      cases x with
      | none => simp [openFrom, tactic, beside_child_iff (Nat.ne_of_gt h)]
      | some x =>
        simp only [tactic, Option.isNone_some, Bool.false_eq_true, if_false, List.countP_eq_zero]
        intro q hq
        obtain ⟨g, rfl, hg⟩ := mem_openFrom.1 hq
        rw [List.append_assoc, List.singleton_append, decide_eq_true_eq,
          beside_child_iff (Nat.ne_of_gt h)]
        rintro rfl
        cases hg
    rw [openFromList, List.countP_append, hchild, ih (by omega), List.countP_cons, Nat.add_comm]

/-- **What is reported of a subtree with the target**, an open goal: the goals that the list of goals has
before it, and those of the goals after it that stand beside it.  Goals below the target, where the tree
has any, are added to those before it. -/
theorem positionFrom_of_goal (hp : t.Goal p) (hn : t.get? p = some n) (here : Path) :
    ∃ before after, openFrom [] here t = before ++ (here ++ p) :: after ∧
      positionFrom (here ++ p) here t =
        ⟨true, before.length + (n.children.map openCount).sum,
          after.countP fun g => Beside (here ++ p) g⟩ := by
  induction hp generalizing here with
  | @here s cs =>
    cases hn
    refine ⟨[], [], by simp [openFrom], ?_⟩
    have hbelow : ∀ k, ¬ here ++ [k] <+: here := by
      intro k hk
      have hlength := hk.length_le
      rw [List.length_append, List.length_singleton] at hlength
      omega
    rw [List.append_nil, positionFrom.eq_def]
    dsimp only
    rw [if_pos rfl, positionList_of_outside 0 0 cs fun k _ _ => hbelow k]
    rfl
  | @inner s x cs i c p hc hp ih =>
    rw [get?_cons hc] at hn
    obtain ⟨before, after, hopen, hposition⟩ := ih hn (here ++ [i])
    rw [List.append_assoc, List.singleton_append] at hopen hposition
    obtain ⟨hlt, hget⟩ := List.getElem?_eq_some_iff.1 hc
    have hsplit : cs = cs.take i ++ c :: cs.drop (i + 1) := by
      rw [← hget, List.getElem_cons_drop, List.take_append_drop]
    have htake : (cs.take i).length = i := List.length_take_of_le (Nat.le_of_lt hlt)
    refine ⟨openFromList [] here 0 (cs.take i) ++ before,
      after ++ openFromList [] here (i + 1) (cs.drop (i + 1)), ?_, ?_⟩
    · have hnode : openFrom [] here (.node s (some x) cs) = openFromList [] here 0 cs := by
        simp [openFrom]
      conv_lhs => rw [hnode, hsplit]
      rw [openFromList_append, htake, Nat.zero_add, openFromList, hopen]
      simp
    · -- the children before the one on the way, that one, and the children after it
      have hne : here ≠ here ++ i :: p := by simp
      have hlist : positionFrom (here ++ i :: p) here (.node s (some x) cs) =
          positionList (here ++ i :: p) here 0 ⟨false, 0, 0⟩ cs := by
        rw [positionFrom, if_neg hne]
      rw [hlist]
      conv_lhs => rw [hsplit]
      rw [positionList_append,
        positionList_of_outside 0 0 (cs.take i) fun k _ hk => not_isPrefix_child (by omega), htake,
        Nat.zero_add, positionList, hposition]
      simp only [Position.next, if_true]
      rw [positionList_of_found fun k hk => not_isPrefix_child (by omega), List.length_append,
        length_openFromList, List.countP_append, countP_beside_openFromList (Nat.lt_succ_self i)]
      simp [Nat.add_assoc]

/-- **The goals that a count sees behind a goal**, which is the one with index `i`: the later ones that stand
beside it. -/
def seenAfter (t : Tree S T) (g : Path) (i : Nat) : Nat :=
  (t.openGoals.drop (i + 1)).countP fun h => Beside g h

/-- **The position of a goal**: its place in the list of goals, and the number of later goals that stand
beside it. -/
theorem position_of_goal (hi : t.openGoals[i]? = some g) (hn : t.get? g = some n) :
    t.position g = ⟨true, i + (n.children.map openCount).sum, t.seenAfter g i⟩ := by
  obtain ⟨before, after, hopen, hposition⟩ :=
    positionFrom_of_goal (mem_openGoals.1 (List.mem_of_getElem? hi)) hn []
  rw [List.nil_append] at hopen hposition
  have hgoals : t.openGoals = before ++ g :: after := hopen
  have hplace : i = before.length := by
    have hthere : t.openGoals[before.length]? = some g := by rw [hgoals]; simp
    obtain ⟨hlt, -⟩ := List.getElem?_eq_some_iff.1 hi
    exact (List.getElem?_inj hlt t.nodup_openGoals).1 (hi.trans hthere.symm)
  subst hplace
  have hlater : t.openGoals.drop (before.length + 1) = after := by
    rw [hgoals]
    simp
  rw [position, hposition, seenAfter, hlater]

/-- **All later goals are counted** exactly when they all stand beside the goal. -/
theorem seenAfter_eq_iff (t : Tree S T) (g : Path) (i : Nat) :
    t.seenAfter g i = t.openCount - 1 - i ↔ ∀ h ∈ t.openGoals.drop (i + 1), Beside g h := by
  have hlength : (t.openGoals.drop (i + 1)).length = t.openCount - 1 - i := by
    rw [List.length_drop, openCount]
    omega
  rw [seenAfter, ← hlength, List.countP_eq_length]
  simp

end Proof.Tree

namespace Session
open Request Proof.Tree

variable {s : Session} {t n : ProofTree} {p g : Path} {i : Nat}

theorem moveTo_goal (hmode : s.mode = .tactic) (htree : s.tree = some t) (hg : g ∈ t.openGoals)
    (hn : t.get? g = some n) :
    moveTo g s = (Outcome.say ("Moved to goal " ++ toString ((t.position g).before + 1) ++ " of " ++
      toString ((t.position g).before + 1 + (t.position g).after) ++ "."),
      { s with current := some g }) := by
  unfold moveTo
  rw [bind_of_eq_pure (requireMode_eq_pure hmode _), bind_of_eq_pure (theTree_eq_pure htree),
    bind_of_eq_pure (nodeAt_eq_pure htree hn), if_pos (List.contains_iff_mem.2 hg)]
  rfl

/-- **The session as it is written** at a node. -/
theorem text_at (hmode : s.mode = .tactic) (htree : s.tree = some t) (hcurrent : s.current = some p)
    (hn : t.get? p = some n) :
    text s = (pure ("Proof Assistant is in tactic mode.  Current proof state:\n" ++ n.state.text ++
      nodeRemark t p n), s) := by
  have hassume : s.mode ≠ .assumption := by rw [hmode]; decide
  unfold text
  rw [bind_of_eq_pure (session_eq_pure s), if_neg hassume, bind_of_eq_pure (here_eq_pure hcurrent),
    bind_of_eq_pure (nodeAt_eq_pure htree hn), bind_of_eq_pure (theTree_eq_pure htree)]
  rfl

theorem nodeRemark_goal (hg : t.Goal g) (hn : t.get? g = some n) :
    nodeRemark t g n = if 1 < t.openCount then
      "\nThis is goal " ++ toString ((t.position g).before + 1) ++ " of " ++ toString t.openCount ++ "."
    else "" := by
  rw [nodeRemark, hg.tactic_eq_none hn]

/-- **The number of a goal.**  For the goal with index `i` in the list of the open goals of a tree, the count
reports `i` goals before it, to which goals below an open node are added if there are any.  After it the
count reports only those of the later goals that stand beside it; so it reports all of them exactly when
all later goals do.

In a session that can be reached, the number `i + 1` announced on a move to the goal is the number given
by the text of the session.  The total in this text is the number of open goals.  The total that is
announced counts the goals up to this one and the later ones beside it, and is the number of open goals
exactly when all later goals stand beside the goal. -/
theorem goals_numbered {t n : ProofTree} {i : Nat} {g : Path} (hi : t.openGoals[i]? = some g)
    (hn : t.get? g = some n) :
    t.position g = ⟨true, i + (n.children.map openCount).sum, t.seenAfter g i⟩ ∧
    (t.position g = ⟨true, i, t.openCount - 1 - i⟩ ↔
      (n.children.map openCount).sum = 0 ∧ ∀ h ∈ t.openGoals.drop (i + 1), Beside g h) ∧
    ∀ s : Session, Reachable s → s.mode = .tactic → s.tree = some t →
      moveTo g s = (Outcome.say ("Moved to goal " ++ toString (i + 1) ++ " of " ++
        toString (i + 1 + t.seenAfter g i) ++ "."), { s with current := some g }) ∧
      text { s with current := some g } =
        (pure ("Proof Assistant is in tactic mode.  Current proof state:\n" ++ n.state.text ++
          if 1 < t.openCount then
            "\nThis is goal " ++ toString (i + 1) ++ " of " ++ toString t.openCount ++ "."
          else ""), { s with current := some g }) ∧
      (i + 1 + t.seenAfter g i = t.openCount ↔ ∀ h ∈ t.openGoals.drop (i + 1), Beside g h) := by
  have hmem : g ∈ t.openGoals := List.mem_of_getElem? hi
  have hgoal : t.Goal g := mem_openGoals.1 hmem
  have hposition := position_of_goal hi hn
  have hall := seenAfter_eq_iff t g i
  refine ⟨hposition, ?_, ?_⟩
  · rw [hposition, Position.mk.injEq, hall]
    simp
  · intro s hs hmode htree
    have hchildless : n.children = [] := by
      rw [(hs.proper t htree).eq_leaf hgoal hn]
      rfl
    have hplace : t.position g = ⟨true, i, t.seenAfter g i⟩ := by
      rw [hposition, hchildless]
      rfl
    refine ⟨?_, ?_, ?_⟩
    · rw [moveTo_goal hmode htree hmem hn, hplace]
    · rw [text_at (s := { s with current := some g }) hmode htree rfl hn, nodeRemark_goal hgoal hn,
        hplace]
    · obtain ⟨hlt, -⟩ := List.getElem?_eq_some_iff.1 hi
      rw [← hall, openCount]
      omega

/-- Three goals, the second of which has been divided into two. -/
def secondDivided : Session :=
  run [.use .splitGoal, .nextGoal, .use (.byCases (.var ⟨"P", .prop⟩) "hP")] threeGoals

theorem reachable_secondDivided : Reachable secondDivided :=
  reachable_run (.begin _ (.assume _ _ (.assume _ _ (.declareAll _ _ .start))))

/-- The first of four goals is announced as one of two, since those below the second one are not seen from
it, and the text of the session says that it is one of four.  The third one is announced rightly. -/
theorem secondDivided_numbered : ∃ t, secondDivided.tree = some t ∧
    t.openGoals = [[0], [1, 0], [1, 1], [2]] ∧
    t.position [0] ≠ ⟨true, 0, t.openCount - 1 - 0⟩ ∧
    (moveTo [0] secondDivided).1 = Outcome.say "Moved to goal 1 of 2." ∧
    (∃ shown, (text { secondDivided with current := some [0] }).1.result =
      .ok (shown ++ "\nThis is goal 1 of 4.")) ∧
    t.position [1, 1] = ⟨true, 2, t.openCount - 1 - 2⟩ ∧
    (moveTo [1, 1] secondDivided).1 = Outcome.say "Moved to goal 3 of 4." := by
  obtain ⟨t, htree, hopen, ⟨n, hn⟩, m, hm, hleaf⟩ : ∃ t, secondDivided.tree = some t ∧
      t.openGoals = [[0], [1, 0], [1, 1], [2]] ∧ (∃ n, t.get? [0] = some n) ∧
      ∃ m, t.get? [1, 1] = some m ∧ m.children = [] := ⟨_, rfl, rfl, ⟨_, rfl⟩, _, rfl, rfl⟩
  obtain ⟨-, hfirst, hremark⟩ := goals_numbered (i := 0) (by rw [hopen]; rfl) hn
  obtain ⟨-, hthird, hremark'⟩ := goals_numbered (i := 2) (by rw [hopen]; rfl) hm
  refine ⟨t, htree, hopen, fun hall => ?_, ?_,
    ⟨"Proof Assistant is in tactic mode.  Current proof state:\n" ++ n.state.text, ?_⟩,
    hthird.2 ⟨by rw [hleaf]; rfl, ?_⟩, ?_⟩
  · have hbeside := (hfirst.1 hall).2 [1, 0] (by rw [hopen]; exact .head _)
    revert hbeside
    decide
  · rw [(hremark _ reachable_secondDivided rfl htree).1, seenAfter, hopen]
    rfl
  · rw [(hremark _ reachable_secondDivided rfl htree).2.1, openCount, hopen]
    rfl
  · rw [hopen]
    decide
  · rw [(hremark' _ reachable_secondDivided rfl htree).1, seenAfter, hopen]
    rfl

end Session
end Majorant
