import Majorant.Proofs.Session.Script

/-!
# Recorded proofs replay

A proof as it is written can be run again, as long as no tactic changes a node that has children
already.
-/

namespace Majorant
open Proof

namespace ProofTree
open Proof.Tree

/-- The last children of a node are what its tactic leaves; an open node has no children. -/
def Recorded (s : State) (x : Option Tactic) (children : List State) : Prop :=
  match x with
  | none => children = []
  | some tactic => ∃ old states, children = old ++ states ∧ (tactic.run s).result = .ok states ∧
      isIdle s states = false

theorem map_state_extend (tactic : Tactic) (states : List State) (n : ProofTree) :
    (Tree.extend tactic states n).children.map state = n.children.map state ++ states := by
  obtain ⟨s, x, cs⟩ := n
  simp [Tree.extend, Tree.children, Function.comp_def, Tree.leaf, state]

/-- Where the tree replays, nothing but the states that the tactic leaves is recorded. -/
theorem replays_iff_each_built {t : ProofTree} (h : t.Each Recorded) : t.Replays ↔ t.Each Built := by
  refine ⟨fun hreplays => each_of_get? fun p n hn => ?_, Built.replays⟩
  have hnode := (h.get? hn).here
  cases htactic : n.tactic with
  | none =>
    rw [htactic] at hnode
    exact hnode
  | some tactic =>
    rw [htactic] at hnode
    obtain ⟨old, states, -, hrun, hidle⟩ := hnode
    have hall := hreplays p n tactic hn htactic
    cases hrun.symm.trans hall
    exact ⟨hall, hidle⟩

theorem not_each_built_apply {t t' n : ProofTree} {p : Path} {tactic : Tactic}
    (hn : t.get? p = some n) (hchildren : n.children ≠ [])
    (happly : (t.apply p tactic).result = .ok (some t')) : ¬ t'.Each Built := by
  intro hbuilt
  obtain ⟨m, states, hm, hrun, rfl⟩ := Session.apply_eq_some happly
  cases hn.symm.trans hm
  have hnode := (hbuilt.get? (Tree.get?_modify hn)).here
  rw [map_state_extend, Tree.state_extend] at hnode
  have htactic : (Tree.extend tactic states n).tactic = some tactic := by
    cases n
    rfl
  rw [htactic] at hnode
  -- The tactic leaves `states`, but the node has its old children before them.
  have heq : states = n.children.map state ++ states := Except.ok.inj (hrun.symm.trans hnode.1)
  have hlength := congrArg List.length heq
  rw [List.length_append, List.length_map] at hlength
  exact hchildren (List.length_eq_zero_iff.1 (by omega))

end ProofTree

namespace Session
open Request ProofTree

theorem each_clear {Q : State → Option Tactic → List State → Prop} (hleaf : ∀ s, Q s none [])
    {t : ProofTree} (q : Path) (h : t.Each Q) : (Tree.modify Tree.clear q t).Each Q := by
  refine h.modify Tree.state_clear q ?_
  rintro ⟨s, x, cs⟩ - -
  exact .node (hleaf s) nofun

/-- **The last children of every node are what its tactic leaves**, whatever the commands are. -/
theorem stable_recorded : Stable fun t => t.Each Recorded where
  apply := by
    intro t t' p tactic h happly
    obtain ⟨n, states, hn, hrun, rfl⟩ := apply_eq_some happly
    refine h.modify (Tree.state_extend tactic states) p ?_
    intro m hm hold
    cases hn.symm.trans hm
    have hidle := isIdle_of_apply happly hn hrun
    have hmap := map_state_extend tactic states n
    obtain ⟨s, x, cs⟩ := n
    refine .node ⟨cs.map Tree.state, states, hmap, hrun, hidle⟩ ?_
    intro c hc
    rcases List.mem_append.1 hc with hc | hc
    · cases hold with
      | node _ children => exact children c hc
    · obtain ⟨s', -, rfl⟩ := List.mem_map.1 hc
      exact .node rfl nofun
  clear := each_clear fun _ => rfl

/-- A tactic changes the current node, which has children already. -/
def OverwritesWith (tactic : Tactic) (s : Session) : Prop :=
  s.mode = .tactic ∧ ∃ t t' p n, s.tree = some t ∧ s.current = some p ∧ t.get? p = some n ∧
    n.children ≠ [] ∧ (t.apply p tactic).result = .ok (some t')

/-- **The command changes a node that has children already.** -/
def Command.Overwrites : Command → Session → Prop
  | .use tactic, s => OverwritesWith tactic s
  | .useLemma name l, s => OverwritesWith (.useLemma name l) s
  | _, _ => False

/-- The script of the tree can build it. -/
def Rebuilds (s : Session) : Prop := ∀ t ∈ s.tree, t.Each Built

variable {s : Session}

theorem Rebuilds.of_tree_eq {s' : Session} (h : Rebuilds s) (htree : s'.tree = s.tree) :
    Rebuilds s' := by
  intro t ht
  rw [htree] at ht
  exact h t ht

theorem rebuilds_applyAt {p : Path} {tactic : Tactic} (h : Rebuilds s)
    (hchildless : ∀ t t' n, s.tree = some t → t.get? p = some n →
      (t.apply p tactic).result = .ok (some t') → n.children = []) :
    Rebuilds (applyAt p tactic s).2 := by
  rcases applyAt_tree_eq p tactic s with heq | ⟨t, t', ht, happly, heq⟩
  · exact h.of_tree_eq heq
  · intro u hu
    rw [heq] at hu
    cases hu
    obtain ⟨n, -, hn, -, -⟩ := apply_eq_some happly
    exact each_built_apply (h t ht) hn (hchildless t t' n ht hn happly) happly

theorem rebuilds_use_iff {tactic : Tactic} (h : Rebuilds s) :
    Rebuilds (use tactic s).2 ↔ ¬ OverwritesWith tactic s := by
  constructor
  · rintro hafter ⟨hmode, t, t', p, n, htree, hcurrent, hn, hchildren, happly⟩
    have hgone : (use tactic s).2.tree = some t' := by
      rw [use_eq hmode htree hcurrent happly]
      unfold goOn
      split
      · rfl
      · split <;> rfl
    exact not_each_built_apply hn hchildren happly (hafter t' hgone)
  · intro hno
    rcases use_tree tactic s with heq | ⟨p, hmode, hcurrent, heq⟩
    · exact h.of_tree_eq heq
    · refine (rebuilds_applyAt h ?_).of_tree_eq heq
      intro t t' n ht hn happly
      by_contra hchildren
      exact hno ⟨hmode, t, t', p, n, ht, hcurrent, hn, hchildren, happly⟩

theorem rebuilds_forM {tactic : Tactic} (goals : List Path) (h : Rebuilds s)
    (hgoals : ∀ t ∈ s.tree, ∀ g ∈ goals, t.Goal g) (hnodup : goals.Nodup) :
    Rebuilds (goals.forM (useOnce tactic) s).2 := by
  induction goals generalizing s with
  | nil => exact h
  | cons p goals ih =>
    have htree : (useOnce tactic p s).2.tree = (applyAt p tactic s).2.tree :=
      bind_tree _ (fun _ => reads_status.keepsTree) s
    have hfirst : Rebuilds (useOnce tactic p s).2 := by
      refine (rebuilds_applyAt h ?_).of_tree_eq htree
      intro t t' n ht hn _
      exact children_of_goal (h t ht) (hgoals t ht p (.head _)) hn
    change Rebuilds ((useOnce tactic p >>= fun _ => goals.forM (useOnce tactic)) s).2
    rw [bind_snd]
    cases (useOnce tactic p s).1.result with
    | error e => exact hfirst
    | ok a =>
      refine ih hfirst ?_ (List.nodup_cons.1 hnodup).2
      intro u hu g hg
      rw [htree] at hu
      rcases applyAt_tree_eq p tactic s with heq | ⟨t, t', ht, happly, heq⟩
      · rw [heq] at hu
        exact hgoals u hu g (.tail _ hg)
      · rw [heq] at hu
        cases hu
        exact (goals_apply (h t ht) (hgoals t ht) hnodup happly).1 g (List.mem_append_right _ hg)

theorem rebuilds_useEverywhere (tactic : Tactic) (h : Rebuilds s) :
    Rebuilds (useEverywhere tactic s).2 := by
  unfold useEverywhere
  rw [bind_snd, reads_theTree s, theTree_result]
  cases htree : s.tree with
  | none => exact h.of_tree_eq rfl
  | some t =>
    refine rebuilds_forM t.openGoals h ?_ t.nodup_openGoals
    intro u hu g hg
    cases htree.symm.trans hu
    exact Tree.mem_openGoals.1 hg

/-- **What one command does** to a tree that its script builds: it stays one, unless the command
overwrites. -/
theorem replays_step_iff (c : Command) (h : Rebuilds s) :
    Rebuilds (c.request s).2 ↔ ¬ c.Overwrites s := by
  have hkept : (c.request s).2.tree = s.tree → ¬ c.Overwrites s →
      (Rebuilds (c.request s).2 ↔ ¬ c.Overwrites s) :=
    fun htree hno => iff_of_true (h.of_tree_eq htree) hno
  cases c with
  | use tactic => exact rebuilds_use_iff h
  | useLemma name l => exact rebuilds_use_iff h
  | useEverywhere tactic => exact iff_of_true (rebuilds_useEverywhere tactic h) id
  | undo => exact iff_of_true (maintains_undo (each_clear fun _ => rfl) s h) id
  | back => exact hkept (moves_back.keepsTree s) id
  | forward case => exact hkept ((moves_forward case).keepsTree s) id
  | visit p => exact hkept ((moves_visit p).keepsTree s) id
  | nextGoal => exact hkept (moves_nextGoal.keepsTree s) id
  | previousGoal => exact hkept (moves_previousGoal.keepsTree s) id
  | firstGoal => exact hkept (moves_firstGoal.keepsTree s) id
  | lastGoal => exact hkept (moves_lastGoal.keepsTree s) id
  | leave => exact hkept (keepsTree_leave s) id
  | enter => exact hkept (keepsTree_enter s) id
  | setAutoFinish on => exact hkept (keepsTree_setAutoFinish on s) id

/-- **What a run of commands does**: its script builds the tree after each of them exactly if none of them
overwrites. -/
theorem replays_run_iff (cs : List Command) (h : Rebuilds s) :
    (∀ k, Rebuilds (run (cs.take k) s)) ↔
      ∀ (k : Nat) (c : Command), cs[k]? = some c → ¬ c.Overwrites (run (cs.take k) s) := by
  induction cs generalizing s with
  | nil =>
    refine iff_of_true (fun k => ?_) nofun
    rw [List.take_nil]
    exact h
  | cons c cs ih =>
    constructor
    · intro hall k d hd
      have hnext : Rebuilds (c.request s).2 := hall 1
      cases k with
      | zero =>
        cases hd
        exact (replays_step_iff c h).1 hnext
      | succ k => exact (ih hnext).1 (fun j => hall (j + 1)) k d hd
    · intro hno k
      have hnext := (replays_step_iff c h).2 (hno 0 c rfl)
      cases k with
      | zero => exact h
      | succ k => exact (ih hnext).2 (fun j d hd => hno (j + 1) d hd) k

theorem exists_tree_run (cs : List Command) {root : State} (htree : s.tree = some (Tree.leaf root)) :
    ∃ t, (run cs s).tree = some t ∧ t.state = root := by
  -- If every statement counts as true, every tree is justified and every run is sound.
  have hsound : ∀ (cs : List Command) (s : Session), SoundRun (fun (_ : Unit) _ => True) cs s := by
    intro cs
    induction cs with
    | nil => exact fun _ => True.intro
    | cons c cs ih => exact fun s => ⟨fun _ _ _ _ _ _ _ _ => True.intro, ih _⟩
  obtain ⟨t, ht, hroot, -⟩ :=
    rooted_run cs ⟨_, htree, rfl, Tree.justified_leaf root⟩ (hsound cs s)
  exact ⟨t, ht, hroot⟩

/-- **When a recorded proof replays.**  After a proof has been started and any commands have been run, the
lines of the proof are its script, and the tactic recorded at a node leaves the last of the node's
children.  The script, run from the state of the start, builds the same tree if and only if every tactic
leaves exactly the children of its node.  This is so after each of the commands exactly if none of them
uses a tactic on a node that has children. -/
theorem recorded_proof_replays (s : Session) (goal : Term) (cs : List Command)
    (hbegin : (begin goal s).1.result = .ok ()) :
    ∃ t g, (run cs (begin goal s).2).tree = some t ∧ (statementOf goal).result = .ok g ∧
      t.state = ⟨g, s.assumptions⟩ ∧
      List.Forall₂ (Tree.Shows Tactic.text)
        (t.lines Tactic.text (run cs (begin goal s).2).current) t.script ∧
      (∀ p n tactic, t.get? p = some n → n.tactic = some tactic → ∃ old states,
        n.children.map Tree.state = old ++ states ∧ (tactic.run n.state).result = .ok states) ∧
      ((replay t.script [[]] (Tree.leaf ⟨g, s.assumptions⟩)).result = .ok t ↔ t.Replays) ∧
      ((∀ k, ∀ u ∈ (run (cs.take k) (begin goal s).2).tree, Replays u) ↔
        ∀ (k : Nat) (c : Command), cs[k]? = some c → ¬ c.Overwrites (run (cs.take k) (begin goal s).2)) := by
  obtain ⟨g, hg, htree⟩ := begin_tree hbegin
  have hstart : ∀ u ∈ (begin goal s).2.tree,
      u = Tree.leaf ⟨g, s.assumptions⟩ := by
    intro u hu
    rw [htree] at hu
    exact (Option.some.inj hu).symm
  have hrecorded : ∀ u ∈ (begin goal s).2.tree, u.Each Recorded := by
    intro u hu
    rw [hstart u hu]
    exact .node rfl nofun
  have hrebuilds : Rebuilds (begin goal s).2 := by
    intro u hu
    rw [hstart u hu]
    exact each_built_leaf _
  obtain ⟨t, ht, hroot⟩ := exists_tree_run cs htree
  have hnode := stable_recorded.run cs hrecorded t ht
  refine ⟨t, g, ht, hg, hroot, Tree.forall₂_lines_script _ _ t, ?_, ?_, ?_⟩
  · intro p n tactic hn htactic
    have hat := (hnode.get? hn).here
    rw [htactic] at hat
    obtain ⟨old, states, hmap, hrun, -⟩ := hat
    exact ⟨old, states, hmap, hrun⟩
  · rw [← hroot, replay_script_iff, replays_iff_each_built hnode]
  · rw [← replays_run_iff cs hrebuilds]
    refine forall_congr' fun k => forall₂_congr fun u hu => ?_
    exact replays_iff_each_built (stable_recorded.run _ hrecorded u hu)

/-- The goal is split, the split is taken back and made again, and both parts are proved. -/
def splitAgain : List Command := [.use .splitGoal, .undo, .use .splitGoal, .useEverywhere .trivial]

theorem splitAgain_not_overwrites (k : Nat) (c : Command) (hc : splitAgain[k]? = some c) :
    ¬ c.Overwrites (run (splitAgain.take k) (begin conjunction twoAssumptions).2) := by
  rcases k with _ | _ | _ | _ | k
  · cases hc
    rintro ⟨-, t, t', p, n, ht, hp, hn, hchildren, -⟩
    cases ht
    cases hp
    cases hn
    exact hchildren rfl
  · cases hc
    exact id
  · cases hc
    rintro ⟨-, t, t', p, n, ht, hp, hn, hchildren, -⟩
    cases ht
    cases hp
    cases hn
    exact hchildren rfl
  · cases hc
    exact id
  · cases hc

/-- The proof of the conjunction replays; where the split is made once more at the node it has already
handled, it does not replay after each command. -/
theorem conjunction_replays :
    (∃ t, (run splitAgain (begin conjunction twoAssumptions).2).tree = some t ∧
      t.script = [some .splitGoal, some .trivial, some .trivial] ∧
      (replay t.script [[]] (Tree.leaf ⟨conjunction, twoAssumptions.assumptions⟩)).result = .ok t) ∧
    ¬ ∀ k, ∀ u ∈ (run (splitTwice.take k) (begin conjunction twoAssumptions).2).tree,
      Replays u := by
  constructor
  · obtain ⟨t, g, ht, hg, -, -, -, hscript, hruns⟩ :=
      recorded_proof_replays twoAssumptions conjunction splitAgain rfl
    have hreplays := hruns.2 splitAgain_not_overwrites splitAgain.length t ht
    cases hg
    refine ⟨t, ht, ?_, hscript.2 hreplays⟩
    cases ht
    rfl
  · obtain ⟨-, -, -, -, -, -, -, -, hruns⟩ :=
      recorded_proof_replays twoAssumptions conjunction splitTwice rfl
    rw [hruns]
    intro hno
    exact hno 4 (.use .splitGoal) rfl ⟨rfl, _, _, _, _, rfl, rfl, rfl, nofun, rfl⟩

end Session
end Majorant
