import Majorant.Proofs.Session.Navigation
import Majorant.Proofs.Session.OpenGoals

/-!
# Taking back a tactic

A session goes on with the first of the goals that a tactic leaves.
-/

namespace Majorant
open Proof

namespace Proof.Tree

variable {S T : Type} {t n : Tree S T} {p : Path}

/-- **The search behind a node finds its first child**, if that is open, wherever the node stands. -/
theorem goalAfter_of_child {c : Tree S T} (hn : t.get? p = some n) (hc : n.children[0]? = some c)
    (hopen : c.tactic = none) : goalAfter p t = some (p ++ [0]) := by
  induction p generalizing t with
  | nil =>
    cases hn
    obtain ⟨s, x, cs⟩ := n
    cases cs with
    | nil => cases hc
    | cons d ds =>
      cases hc
      simp [goalAfter, firstOpen, hopen]
  | cons i p ih =>
    obtain ⟨s, x, cs⟩ := t
    cases hd : cs[i]? with
    | none =>
      rw [get?, hd] at hn
      cases hn
    | some d =>
      rw [get?_cons hd] at hn
      simp [goalAfter, hd, ih hn]

/-- **To clear a goal takes back what was put below it.** -/
theorem modify_clear_extend (ht : t.Proper) (hp : t.Goal p) (x : T) (states : List S) :
    modify clear p (modify (extend x states) p t) = t := by
  obtain ⟨n, hn⟩ := hp.get?
  have hclear : clear (extend x states n) = n := by
    rw [ht.eq_leaf hp hn]
    rfl
  calc modify clear p (modify (extend x states) p t)
      = modify (fun m => clear (extend x states m)) p t := modify_modify _ _ p t
    _ = modify (fun _ => n) p t := modify_congr hn hclear
    _ = t := modify_const hn

end Proof.Tree

namespace Request

theorem Atomic.result_of_ne {r : Request Unit} (h : r.Atomic) {s : Session} (hne : (r s).2 ≠ s) :
    (r s).1.result = .ok () := by
  cases hresult : (r s).1.result with
  | ok a => rfl
  | error e => exact absurd (h s e hresult) hne

end Request

namespace Session
open Request Proof.Tree ProofTree

variable {s : Session} {t n : ProofTree} {p : Path} {i : Nat} {u : State} {states : List State}
  {tactic : Tactic}

/-- **A branching step**: the session stands at an open goal, and of its state the tactic leaves some
states, which are not just that state again. -/
structure Branches (s : Session) (tactic : Tactic) (t : ProofTree) (p : Path) (u : State)
    (states : List State) : Prop where
  mode : s.mode = .tactic
  tree : s.tree = some t
  current : s.current = some p
  goal : (p, u) ∈ t.openNodes
  run : (tactic.run u).result = .ok states
  nonempty : states ≠ []
  effect : isIdle u states = false

theorem ne_of_current_ne {s s' : Session} (h : s'.current ≠ s.current) : s' ≠ s := by
  rintro rfl
  exact h rfl

/-- **The session after a branching step** stands at the first of the new goals. -/
theorem Branches.use_eq (h : Branches s tactic t p u states) (ht : t.Proper) :
    (use tactic s).2 =
      { s with tree := some (modify (extend tactic states) p t), current := some (p ++ [0]) } := by
  obtain ⟨hp, n, hn, rfl⟩ := mem_openNodes.1 h.goal
  obtain ⟨v, vs, hstates⟩ := List.exists_cons_of_ne_nil h.nonempty
  have happly : (t.apply p tactic).result =
      .ok (some (modify (extend tactic states) p t)) := by
    rw [apply_result hn h.run, h.effect]
    rfl
  have hnode : (modify (extend tactic states) p t).get? p = some (extend tactic states n) :=
    get?_modify hn
  have hchild : (extend tactic states n).children[0]? = some (leaf v) := by
    rw [ht.eq_leaf hp hn, hstates]
    rfl
  have hnext : (modify (extend tactic states) p t).nextFrom p = some (p ++ [0]) := by
    rw [nextFrom, neighbours_eq (ht.modify (fun m hm => hm.extend tactic states) p) hnode,
      goalAfter_of_child hnode hchild rfl]
    rfl
  rw [Session.use_eq h.mode h.tree h.current happly, hnext]
  rfl

theorem Branches.use_result (h : Branches s tactic t p u states) (ht : t.Proper) :
    (use tactic s).1.result = .ok () := by
  refine (atomic_use tactic).result_of_ne (ne_of_current_ne ?_)
  rw [h.use_eq ht, h.current]
  simp

/-- **The session after a step is taken back** stands at the parent, which is cleared. -/
theorem undo_eq (hmode : s.mode = .tactic) (htree : s.tree = some t)
    (hcurrent : s.current = some (p ++ [i])) (hn : t.get? p = some n) :
    (undo s).2 = { s with tree := some (modify Tree.clear p t), current := some p } := by
  have hparent : parent? (p ++ [i]) = some p := by simp [parent?]
  have hmove : (moveTo p s).2 = { s with current := some p } := moveTo_eq hmode htree hn
  have hmoved : (moveTo p s).1.result = .ok () := by
    refine (atomic_moveTo p).result_of_ne (ne_of_current_ne ?_)
    rw [hmove, hcurrent]
    simp
  unfold undo
  rw [bind_of_eq_pure (requireMode_eq_pure hmode _), bind_of_eq_pure (here_eq_pure hcurrent), hparent]
  dsimp only
  rw [bind_snd, hmoved, hmove]
  dsimp only
  rw [bind_of_eq_pure (nodeAt_eq_pure (s := { s with current := some p }) htree hn), bind_snd, reads_say]
  change { s with tree := s.tree.map (modify Tree.clear p), current := some p } = _
  rw [htree]
  rfl

theorem Branches.undo_use (h : Branches s tactic t p u states) (ht : t.Proper) :
    (undo (use tactic s).2).2 = s := by
  obtain ⟨hp, n, hn, -⟩ := mem_openNodes.1 h.goal
  have hback := undo_eq (s := (use tactic s).2) (i := 0) (by rw [h.use_eq ht]; exact h.mode)
    (by rw [h.use_eq ht]) (by rw [h.use_eq ht]) (get?_modify hn)
  rw [hback, modify_clear_extend ht hp, h.use_eq ht, ← h.tree, ← h.current]

/-- **Taking back inverts a branching step.**  If a tactic leaves something to be proved of the current
goal, then using it succeeds and leads to the first of the new goals, whatever other goals are open, and
taking it back succeeds and gives exactly the session of before: its proof tree, its current node, its mode
and all else. -/
theorem undo_inverts_branching {s : Session} (hs : Reachable s) {tactic : Tactic} {t : ProofTree}
    {p : Path} {u : State} {states : List State} (h : Branches s tactic t p u states) :
    (use tactic s).1.result = .ok () ∧ (use tactic s).2.current = some (p ++ [0]) ∧
      (undo (use tactic s).2).1.result = .ok () ∧ (undo (use tactic s).2).2 = s := by
  have ht : t.Proper := hs.proper t h.tree
  refine ⟨h.use_result ht, by rw [h.use_eq ht], ?_, h.undo_use ht⟩
  refine atomic_undo.result_of_ne (ne_of_current_ne ?_)
  rw [h.undo_use ht, h.use_eq ht, h.current]
  simp

/-- A session that stands at the second of three goals, the third of which has been divided into two. -/
def thirdDivided : Session :=
  run [.use .splitGoal, .lastGoal, .use (.byCases (.var ⟨"P", .prop⟩) "hP"), .visit [1]] threeGoals

theorem reachable_thirdDivided : Reachable thirdDivided :=
  reachable_run (.begin _ (.assume _ _ (.assume _ _ (.declareAll _ _ .start))))

/-- The second goal is divided as well and taken back, with goals before and after it. -/
theorem thirdDivided_undone :
    thirdDivided.tree.map openGoals = some [[0], [1], [2, 0], [2, 1]] ∧
    (use (.byCases (.var ⟨"P", .prop⟩) "hP") thirdDivided).2.current = some [1, 0] ∧
    (undo (use (.byCases (.var ⟨"P", .prop⟩) "hP") thirdDivided).2).2 = thirdDivided := by
  have hbranches : ∃ t u states,
      Branches thirdDivided (.byCases (.var ⟨"P", .prop⟩) "hP") t [1] u states :=
    ⟨_, _, _, rfl, rfl, rfl, .tail _ (.head _), rfl, List.cons_ne_nil _ _, rfl⟩
  obtain ⟨t, u, states, h⟩ := hbranches
  obtain ⟨-, hcurrent, -, hback⟩ := undo_inverts_branching reachable_thirdDivided h
  exact ⟨rfl, hcurrent, hback⟩

end Session
end Majorant
