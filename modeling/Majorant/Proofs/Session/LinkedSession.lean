import Majorant.Proofs.Session.Linked
import Majorant.Proofs.Session.Undo

/-!
# The links of a session

Every call to a session changes a few links of its nodes.
-/

namespace Majorant
open Proof Session

namespace Session
open Request

variable {s : Session} {t n : ProofTree} {p : Path} {tactic : Tactic}

/-- In tactic mode the current node is a node of the proof tree, if there is one. -/
def InTree (s : Session) : Prop :=
  s.mode = .tactic → ∀ t, s.tree = some t → ∃ p n, s.current = some p ∧ t.get? p = some n

theorem bind_of_mode {α : Type} {m : Mode} (hmode : s.mode ≠ m) (why : Refusal) (f : Unit → Request α) :
    ((requireMode m why >>= f) s).2 = s := by
  rw [bind_snd, reads_requireMode, requireMode_result, if_neg hmode]

theorem inTree_moveTo (p : Path) : (moveTo p).Keeps InTree := by
  intro s hs hmode t ht
  rw [keepsTree_moveTo] at ht
  by_cases hold : s.mode = .tactic
  · cases hp : t.get? p with
    | some n =>
      rw [moveTo_eq hold ht hp]
      exact ⟨p, n, rfl, hp⟩
    | none =>
      have hsame : (moveTo p s).2 = s := by
        unfold moveTo
        rw [bind_of_eq_pure (requireMode_eq_pure hold _), bind_of_eq_pure (theTree_eq_pure ht), bind_snd,
          reads_nodeAt, nodeAt_result, ht]
        simp only [hp]
      rw [hsame]
      exact hs hold t ht
  · have hsame : (moveTo p s).2 = s := bind_of_mode hold _ _
    rw [hsame] at hmode
    exact absurd hmode hold

theorem Moves.inTree {r : Request Unit} (h : Moves r) : r.Keeps InTree := by
  intro s hs
  rcases h s with heq | ⟨p, heq, -⟩ <;> rw [heq]
  · exact hs
  · exact inTree_moveTo p s hs

theorem inTree_undo : undo.Keeps InTree := by
  intro s hs
  by_cases hmode : s.mode = .tactic
  swap
  · have hsame : (undo s).2 = s := bind_of_mode hmode _ _
    rwa [hsame]
  cases htree : s.tree with
  | none =>
    intro _ t ht
    rcases clears_undo s with heq | ⟨q, heq⟩ <;> rw [heq, htree] at ht <;> cases ht
  | some t =>
    obtain ⟨p, n, hp, hn⟩ := hs hmode t htree
    induction p using List.reverseRecOn with
    | nil =>
      unfold undo
      rw [bind_of_eq_pure (requireMode_eq_pure hmode _), bind_of_eq_pure (here_eq_pure hp)]
      exact hs
    | append_singleton q i _ =>
      obtain ⟨u, hu, -⟩ := Linked.get?_concat hn
      rw [undo_eq hmode htree hp hu]
      rintro - _ ⟨⟩
      exact ⟨q, u.clear, rfl, Tree.get?_modify hu⟩

theorem use_eq_self (hmode : s.mode = .tactic) (htree : s.tree = some t) (hp : s.current = some p)
    (h : ∀ t', (t.apply p tactic).result ≠ .ok (some t')) : (use tactic s).2 = s := by
  obtain ⟨hresult, hsnd⟩ := applyAt_eq htree p tactic
  unfold use
  rw [bind_of_eq_pure (requireMode_eq_pure hmode _), bind_of_eq_pure (theTree_eq_pure htree),
    bind_of_eq_pure (here_eq_pure hp), bind_snd]
  cases happly : (t.apply p tactic).result with
  | error e =>
    rw [happly] at hresult hsnd
    rw [hresult]
    exact hsnd
  | ok x =>
    cases x with
    | some t' => exact absurd happly (h t')
    | none =>
      rw [happly] at hresult hsnd
      rw [hresult, hsnd]
      change { s with tree := some t } = s
      rw [← htree]

theorem exists_get?_apply {q : Path} {t' : ProofTree} (happly : (t.apply p tactic).result = .ok (some t'))
    (hn : t.get? q = some n) : ∃ n', t'.get? q = some n' := by
  obtain ⟨v, states, hv, -, rfl⟩ := apply_eq_some happly
  by_cases hqp : q = p
  · subst hqp
    exact ⟨_, Tree.get?_modify hv⟩
  · obtain ⟨n', hn', -⟩ := Option.map_eq_some_iff.1 (Linked.face_get?_extend hv hn hqp tactic states)
    exact ⟨n', hn'⟩

theorem inTree_use (hproper : ∀ t ∈ s.tree, t.Proper) (hs : InTree s) (tactic : Tactic) :
    InTree (use tactic s).2 := by
  by_cases hmode : s.mode = .tactic
  · cases htree : s.tree with
    | none =>
      have hsame : (use tactic s).2 = s := by
        unfold use
        rw [bind_of_eq_pure (requireMode_eq_pure hmode _), bind_snd, reads_theTree, theTree_result, htree]
      rwa [hsame]
    | some t =>
      obtain ⟨p, n, hp, hn⟩ := hs hmode t htree
      by_cases hchange : ∃ t', (t.apply p tactic).result = .ok (some t')
      · obtain ⟨t', happly⟩ := hchange
        obtain ⟨n', hn'⟩ := exists_get?_apply happly hn
        have hproper' : t'.Proper := stable_proper.apply (hproper t htree) happly
        rw [use_eq hmode htree hp happly]
        cases hnext : t'.nextFrom p with
        | some g =>
          obtain ⟨m, hm⟩ := (Tree.mem_openGoals.1 (hproper'.of_nextFrom hn' hnext).1).exists_get?
          rintro - _ ⟨⟩
          exact ⟨g, m, rfl, hm⟩
        | none =>
          unfold goOn
          split_ifs
          · exact fun h => by cases h
          · rintro - _ ⟨⟩
            exact ⟨p, n', hp, hn'⟩
      · rwa [use_eq_self hmode htree hp (not_exists.1 hchange)]
  · have hsame : (use tactic s).2 = s := bind_of_mode hmode _ _
    rwa [hsame]

theorem inTree_useOnce (tactic : Tactic) (p : Path) : (useOnce tactic p).Keeps InTree := by
  intro s hs
  cases htree : s.tree with
  | none =>
    intro _ t ht
    have hsame : (useOnce tactic p s).2.tree = s.tree := by
      rcases applyAt_tree_eq p tactic s with heq | ⟨t, -, hnone, -⟩
      · rw [useOnce, bind_tree _ (fun _ => reads_status.keepsTree), heq]
      · rw [htree] at hnone
        cases hnone
    rw [hsame, htree] at ht
    cases ht
  | some t =>
    cases happly : (t.apply p tactic).result with
    | error e => rwa [((useOnce_eq htree tactic p).2 e happly).2]
    | ok x =>
      rw [((useOnce_eq htree tactic p).1 x happly).2]
      rintro hmode _ ⟨⟩
      obtain ⟨q, n, hq, hn⟩ := hs hmode t htree
      cases x with
      | none => exact ⟨q, n, hq, hn⟩
      | some t' =>
        obtain ⟨n', hn'⟩ := exists_get?_apply happly hn
        exact ⟨q, n', hq, hn'⟩

theorem inTree_declare (kind name : String) : (declare kind name).Keeps InTree :=
  (reads_requireMode _ _).keeps.bind fun _ => reads_session.keeps.bind fun _ =>
    (reads_ofOutcome _).keeps.bind fun _ => Keeps.bind (fun _ hs => hs) fun _ => (reads_pure _).keeps

theorem inTree_enter : enter.Keeps InTree := by
  refine (reads_requireMode _ _).keeps.bind fun _ => Keeps.bind ?_ fun _ =>
    ((reads_say _).bind fun _ => reads_currentState.bind fun _ => reads_say _).keeps
  intro s _ _ t ht
  have htree : s.tree = some t := ht
  exact ⟨[], t, by simp [change, htree], rfl⟩

/-- **A call keeps the current node in the tree.** -/
theorem inTree_call (hproper : ∀ t ∈ s.tree, t.Proper) (hs : InTree s) (c : Call) :
    InTree (c.request s).2 := by
  have hmode {m : Mode} {why : Refusal} := (reads_requireMode m why).keeps (I := InTree)
  cases c with
  | declare kind name => exact (inTree_declare kind name).bind (fun _ => (reads_pure _).keeps) s hs
  | declareAll kind names =>
    exact (hmode.bind fun _ => Keeps.mapM (inTree_declare kind) names).bind
      (fun _ => (reads_pure _).keeps) s hs
  | assume t name =>
    exact (hmode.bind fun _ => (reads_ofOutcome _).keeps.bind fun _ => reads_session.keeps.bind fun _ =>
      (reads_ofOutcome _).keeps.bind fun _ _ hs => hs) s hs
  | clear => exact (hmode.bind fun _ _ hs => hs) s hs
  | begin goal =>
    refine keeps_begin goal (fun _ u _ => ?_) s hs
    rintro - _ ⟨⟩
    exact ⟨[], _, rfl, rfl⟩
  | abandon => exact hmode.bind (fun _ _ _ _ _ ht => by cases ht) s hs
  | useText text => exact hs
  | useTextEverywhere => exact (reads_theTree.bind fun _ => reads_ofOutcome _).keeps s hs
  | command c =>
    cases c with
    | use tactic => exact inTree_use hproper hs tactic
    | useLemma name l => exact inTree_use hproper hs _
    | useEverywhere tactic =>
      exact reads_theTree.keeps.bind (fun t => .forM (inTree_useOnce tactic) t.openGoals) s hs
    | undo => exact inTree_undo s hs
    | back => exact moves_back.inTree s hs
    | forward case => exact (moves_forward case).inTree s hs
    | visit p => exact (moves_visit p).inTree s hs
    | nextGoal => exact moves_nextGoal.inTree s hs
    | previousGoal => exact moves_previousGoal.inTree s hs
    | firstGoal => exact moves_firstGoal.inTree s hs
    | lastGoal => exact moves_lastGoal.inTree s hs
    | leave =>
      exact hmode.bind (fun _ => Keeps.bind (fun _ _ h => by cases h) fun _ => (reads_say _).keeps) s hs
    | enter => exact inTree_enter s hs
    | setAutoFinish on => exact (reads_say _).keeps.bind (fun _ _ hs => hs) s hs

end Session

/-- Linked nodes, and the number of the root if there is a proof. -/
structure Links where
  nodes : List (Node State Tactic)
  root : Option Nat

namespace Links
open Linked Request

def Draw (l : Links) : Option ProofTree → Prop
  | some t => ∃ r, l.root = some r ∧ Draws l.nodes r t
  | none => l.root = none

def find (l : Links) (p : Path) : Option Nat := l.root.bind (walk l.nodes · p)

/-- **The links change as the proof tree does**: a new proof has a new root, a tactic gives a node new
children, and a node whose tactic is taken back loses them. -/
inductive Relinks : Option ProofTree → Links → Option ProofTree → Links → Prop
  | same {t : Option ProofTree} {l : Links} : Relinks t l t l
  | plant {t : Option ProofTree} {l : Links} (u : State) : Relinks t l (some (Tree.leaf u))
      ⟨l.nodes ++ [⟨u, none, none, []⟩], some l.nodes.length⟩
  | drop {t : Option ProofTree} {l : Links} : Relinks t l none { l with root := none }
  | grow {t : ProofTree} {l : Links} {p : Path} {n : Nat} (place : l.find p = some n) (tactic : Tactic)
      (states : List State) : Relinks (some t) l (some (Tree.modify (Tree.extend tactic states) p t))
      { l with nodes := grow l.nodes n tactic states }
  | prune {t : ProofTree} {l : Links} {p : Path} {n : Nat} (place : l.find p = some n) :
      Relinks (some t) l (some (Tree.modify Tree.clear p t)) { l with nodes := prune l.nodes n }
  | trans {t t' t'' : Option ProofTree} {l l' l'' : Links} (first : Relinks t l t' l')
      (rest : Relinks t' l' t'' l'') : Relinks t l t'' l''

variable {s : Session} {l l' : Links} {t t' : Option ProofTree} {p : Path} {n : Nat}

theorem Draw.walk_of_find {u : ProofTree} (h : l.Draw (some u)) (hn : l.find p = some n) :
    ∃ r, l.root = some r ∧ Draws l.nodes r u ∧ walk l.nodes r p = some n := by
  obtain ⟨r, hr, hdraws⟩ := h
  rw [find, hr, Option.bind_some] at hn
  exact ⟨r, hr, hdraws, hn⟩

theorem Draw.exists_find {u v : ProofTree} (h : l.Draw (some u)) (hv : u.get? p = some v) :
    ∃ n, l.find p = some n := by
  obtain ⟨r, hr, hdraws⟩ := h
  obtain ⟨n, hn⟩ := hdraws.exists_walk hv
  exact ⟨n, by rw [find, hr, Option.bind_some, hn]⟩

theorem Relinks.draw (h : Relinks t l t' l') (hl : l.Draw t) : l'.Draw t' := by
  induction h with
  | same => exact hl
  | plant u => exact ⟨_, rfl, draws_leaf _ u⟩
  | drop => rfl
  | grow place tactic states =>
    obtain ⟨r, hr, hdraws, hn⟩ := hl.walk_of_find place
    exact ⟨r, hr, hdraws.grow hn tactic states⟩
  | prune place =>
    obtain ⟨r, hr, hdraws, hn⟩ := hl.walk_of_find place
    exact ⟨r, hr, hdraws.prune hn⟩
  | trans _ _ ih ih' => exact ih' (ih hl)

theorem stable_relinks (hl : l.Draw t) : Stable fun u => ∃ l', Relinks t l (some u) l' where
  apply := by
    rintro u _ p tactic ⟨l', hu⟩ happly
    obtain ⟨v, states, hv, -, rfl⟩ := apply_eq_some happly
    obtain ⟨n, hn⟩ := (hu.draw hl).exists_find hv
    exact ⟨_, hu.trans (.grow hn tactic states)⟩
  clear := by
    rintro u q ⟨l', hu⟩
    cases hv : u.get? q with
    | none =>
      rw [modify_of_none hv]
      exact ⟨l', hu⟩
    | some v =>
      obtain ⟨n, hn⟩ := (hu.draw hl).exists_find hv
      exact ⟨_, hu.trans (.prune hn)⟩

/-- **What one call keeps of the proof tree.** -/
theorem maintains_call {P : ProofTree → Prop} (hP : Stable P) (hleaf : ∀ u, P (Tree.leaf u))
    (c : Call) : c.request.Maintains P := by
  cases c with
  | declare kind name =>
    exact (keepsTree_declare kind name).maintains.bind fun _ => (reads_pure _).keepsTree.maintains
  | declareAll kind names =>
    exact (maintains_declareAll kind names).bind fun _ => (reads_pure _).keepsTree.maintains
  | assume t name => exact (keepsTree_assume t name).maintains
  | clear => exact keepsTree_clear.maintains
  | begin goal => exact maintains_begin hleaf goal
  | abandon => exact maintains_abandon
  | useText text => exact (reads_fail _).keepsTree.maintains
  | useTextEverywhere => exact (reads_theTree.bind fun _ => reads_ofOutcome _).keepsTree.maintains
  | command c => exact hP.command c

theorem exists_relinks (hl : l.Draw s.tree) (c : Call) :
    ∃ l', Relinks s.tree l (c.request s).2.tree l' := by
  cases htree : (c.request s).2.tree with
  | none => exact ⟨_, .drop⟩
  | some u =>
    refine maintains_call (stable_relinks hl) (fun u => ⟨_, .plant u⟩) c s (fun u hu => ?_) u htree
    rw [hu]
    exact ⟨l, .same⟩

/-- **The links that follow a session** from the start. -/
inductive Follow : Session → Links → Prop
  | start : Follow Session.start ⟨[], none⟩
  | call {s : Session} {l l' : Links} (before : Follow s l) (c : Call)
      (change : Relinks s.tree l (c.request s).2.tree l') : Follow (c.request s).2 l'

theorem Follow.keeps (h : Follow s l) : (∀ t ∈ s.tree, t.Proper) ∧ InTree s ∧ l.Draw s.tree := by
  induction h with
  | start => exact ⟨fun _ ht => (by cases ht), fun h => (by cases h), rfl⟩
  | call _ c change ih =>
    obtain ⟨hproper, hs, hl⟩ := ih
    exact ⟨maintains_call stable_proper Tree.proper_leaf c _ hproper, inTree_call hproper hs c,
      change.draw hl⟩

def after (calls : List Call) : Session := calls.foldl (fun s c => (c.request s).2) Session.start

theorem exists_follow (calls : List Call) : ∃ l, Follow (after calls) l := by
  induction calls using List.reverseRecOn with
  | nil => exact ⟨_, .start⟩
  | append_singleton calls c ih =>
    obtain ⟨l, hl⟩ := ih
    obtain ⟨l', hl'⟩ := exists_relinks hl.keeps.2.2 c
    have hafter : after (calls ++ [c]) = (c.request (after calls)).2 := by simp [after]
    exact ⟨l', hafter ▸ hl.call c hl'⟩

/-- **The proof tree stays a tree.** After any calls its nodes are linked both ways as a tree that
draws the proof tree, and in tactic mode the current node is one of them. -/
theorem links_stay_tree (calls : List Call) :
    (∃ l, Follow (after calls) l) ∧ ∀ l t, Follow (after calls) l → (after calls).tree = some t →
      ∃ r, l.root = some r ∧ IsTree l.nodes r ∧ Draws l.nodes r t ∧
        (∀ p v, t.get? p = some v → ∃ n, l.find p = some n) ∧
        ((after calls).mode = .tactic → ∃ p n, (after calls).current = some p ∧ l.find p = some n) := by
  refine ⟨exists_follow calls, fun l t hl htree => ?_⟩
  obtain ⟨hproper, hs, hdraw⟩ := hl.keeps
  rw [htree] at hdraw
  have hplace : ∀ p v, t.get? p = some v → ∃ n, l.find p = some n := fun _ _ hv => hdraw.exists_find hv
  obtain ⟨r, hr, hdraws⟩ := hdraw
  refine ⟨r, hr, hdraws.isTree (hproper t htree), hdraws, hplace, fun hmode => ?_⟩
  obtain ⟨p, v, hp, hv⟩ := hs hmode t htree
  obtain ⟨n, hn⟩ := hplace p v hv
  exact ⟨p, n, hp, hn⟩

/-- A conjunction is split, the step is taken back from the second case, and it is split again. -/
theorem links_stay_tree_split_again :
    let goal := Term.app .and [.var ⟨"P", .prop⟩, .var ⟨"Q", .prop⟩]
    let calls : List Call := [.declareAll "bool" ["P", "Q"], .begin goal, .command (.use .splitGoal),
      .command .nextGoal, .command .undo, .command (.use .splitGoal), .command .lastGoal]
    ∃ l t r, Follow (after calls) l ∧ (after calls).tree = some t ∧ t.openGoals = [[0], [1]] ∧
      l.root = some r ∧ IsTree l.nodes r ∧ (after calls).current = some [1] ∧ ∃ n, l.find [1] = some n := by
  intro goal calls
  have hgoals : (after calls).tree.map (·.openGoals) = some [[0], [1]] := by decide +kernel
  have hp : (after calls).current = some [1] := by decide +kernel
  obtain ⟨t, ht, hopen⟩ := Option.map_eq_some_iff.1 hgoals
  obtain ⟨⟨l, hl⟩, h⟩ := links_stay_tree calls
  obtain ⟨r, hr, htree, -, -, hcurrent⟩ := h l t hl ht
  obtain ⟨q, n, hq, hn⟩ := hcurrent (by decide +kernel)
  cases hp.symm.trans hq
  exact ⟨l, t, r, hl, ht, hopen, hr, htree, hp, n, hn⟩

end Links
end Majorant
