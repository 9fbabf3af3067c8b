import Majorant.Proofs.Session.Atomic
import Majorant.Proofs.Session.Script

/-!
# What becomes of the open goals

In the list of open goals, a tactic replaces the entry of its goal by entries for the states that
it leaves.
-/

namespace Majorant
open Proof

namespace Proof.Tree

variable {S T : Type} {t n : Tree S T} {p q : Path} {f : Tree S T → Tree S T}

/-- What a node shows of itself: its state, the tactic used on it and the number of its children. -/
def face (n : Tree S T) : S × Option T × Nat := (n.state, n.tactic, n.children.length)

/-- **A change at a path is seen at the node there and below it only.** -/
theorem face_get?_modify (h : ¬ p <+: q) (t : Tree S T) :
    ((modify f p t).get? q).map face = (t.get? q).map face := by
  induction p generalizing q t with
  | nil => exact absurd List.nil_prefix h
  | cons i p ih =>
    obtain ⟨s, x, cs⟩ := t
    cases q with
    | nil => simp [modify, get?, face, state, tactic, children]
    | cons j q =>
      simp only [modify, get?, List.getElem?_modify]
      cases cs[j]? with
      | none => rfl
      | some c =>
        by_cases hij : i = j
        · subst hij
          have hrest : ¬ p <+: q := fun hpre => h (List.cons_prefix_cons.2 ⟨rfl, hpre⟩)
          simpa using ih hrest c
        · simp [hij]

theorem Goal.not_isPrefix (hp : t.Goal p) (hq : t.Goal q) (hne : q ≠ p) : ¬ p <+: q := by
  induction hp generalizing q with
  | here =>
    cases hq
    exact absurd rfl hne
  | @inner s x cs i c p hc hp ih =>
    cases hq with
    | @inner _ _ _ j d q hd hq =>
      intro hpre
      obtain ⟨rfl, hrest⟩ := List.cons_prefix_cons.1 hpre
      cases hc.symm.trans hd
      exact ih hq (fun heq => hne (by rw [heq])) hrest

theorem openFromList_modify {cs : List (Tree S T)} {i : Nat} {c : Tree S T} (hc : cs[i]? = some c)
    (here : Path) (k : Nat) : ∃ before after, ∀ f,
      openFromList [] here k (cs.modify i f) =
        before ++ openFrom [] (here ++ [k + i]) (f c) ++ after := by
  induction cs generalizing i k with
  | nil => cases hc
  | cons d cs ih =>
    cases i with
    | zero =>
      cases hc
      exact ⟨[], openFromList [] here (k + 1) cs, fun f => rfl⟩
    | succ i =>
      obtain ⟨before, after, h⟩ := ih hc (k + 1)
      refine ⟨openFrom [] (here ++ [k]) d ++ before, after, fun f => ?_⟩
      have hindex : k + 1 + i = k + (i + 1) := by omega
      simp [openFromList, h, hindex]

/-- **A change at an open goal changes the list of goals there**, and neither before nor after it. -/
theorem openFrom_modify (hp : t.Goal p) (hn : t.get? p = some n) (here : Path) :
    ∃ before after, ∀ f, openFrom [] here (modify f p t) =
      before ++ openFrom [] (here ++ p) (f n) ++ after := by
  induction hp generalizing here with
  | here =>
    cases hn
    exact ⟨[], [], fun f => by simp [modify]⟩
  | @inner s x cs i c p hc hp ih =>
    rw [get?_cons hc] at hn
    obtain ⟨before, after, hlist⟩ := openFromList_modify hc here 0
    obtain ⟨before', after', hchild⟩ := ih hn (here ++ [i])
    refine ⟨before ++ before', after' ++ after, fun f => ?_⟩
    have hnode : openFrom [] here (modify f (i :: p) (.node s (some x) cs)) =
        openFromList [] here 0 (cs.modify i (modify f p)) := by
      simp [modify, openFrom]
    rw [hnode, hlist, Nat.zero_add, hchild]
    simp

theorem openGoals_modify (hp : t.Goal p) (hn : t.get? p = some n) :
    ∃ before after, t.openGoals = before ++ p :: after ∧
      ∀ f, (modify f p t).openGoals = before ++ openFrom [] p (f n) ++ after := by
  obtain ⟨before, after, h⟩ := openFrom_modify hp hn []
  refine ⟨before, after, ?_, h⟩
  have hself : openFrom [] p n = [p] := by
    have hopen := hp.tactic_eq_none hn
    obtain ⟨s, x, cs⟩ := n
    obtain rfl : x = none := hopen
    simp [openFrom]
  have hsame := h fun _ => n
  rw [modify_const hn, List.nil_append, hself] at hsame
  simpa [openGoals] using hsame

def entryAt? (t : Tree S T) (p : Path) : Option (Path × S) := (t.get? p).map fun n => (p, n.state)

def openNodes (t : Tree S T) : List (Path × S) := t.openGoals.filterMap t.entryAt?

def goalsBelow (p : Path) (states : List S) : List (Path × S) :=
  states.zipIdx.map fun e => (p ++ [e.2], e.1)

theorem map_fst_openNodes (t : Tree S T) : t.openNodes.map Prod.fst = t.openGoals := by
  have hall : ∀ q ∈ t.openGoals, (t.entryAt? q).map Prod.fst = some q := by
    intro q hq
    obtain ⟨n, hn⟩ := (mem_openGoals.1 hq).get?
    simp [entryAt?, hn]
  rw [openNodes, List.map_filterMap, List.filterMap_congr hall, List.filterMap_some]

theorem mem_openNodes {s : S} :
    (p, s) ∈ t.openNodes ↔ t.Goal p ∧ ∃ n, t.get? p = some n ∧ n.state = s := by
  simp only [openNodes, entryAt?, List.mem_filterMap, mem_openGoals, Option.map_eq_some_iff,
    Prod.mk.injEq]
  constructor
  · rintro ⟨q, hq, n, hn, rfl, hs⟩
    exact ⟨hq, n, hn, hs⟩
  · rintro ⟨hp, n, hn, hs⟩
    exact ⟨p, hp, n, hn, rfl, hs⟩

theorem not_mem_of_openNodes {s : S} {before after : List (Path × S)}
    (hnodes : t.openNodes = before ++ (p, s) :: after) :
    p ∉ before.map Prod.fst ∧ p ∉ after.map Prod.fst := by
  have hnodup := t.nodup_openGoals
  rw [← map_fst_openNodes, hnodes, List.map_append, List.map_cons, List.nodup_append,
    List.nodup_cons] at hnodup
  obtain ⟨-, ⟨hafter, -⟩, hbefore⟩ := hnodup
  exact ⟨fun hmem => hbefore p hmem p List.mem_cons_self rfl, hafter⟩

theorem entryAt?_of_mem_openNodes {e : Path × S} (he : e ∈ t.openNodes) :
    t.entryAt? e.1 = some e := by
  obtain ⟨-, n, hn, hs⟩ := mem_openNodes.1 he
  rw [entryAt?, hn, Option.map_some, hs]

theorem filterMap_entryAt? {es : List (Path × S)} (h : ∀ e ∈ es, t.entryAt? e.1 = some e) :
    (es.map Prod.fst).filterMap t.entryAt? = es := by
  rw [List.filterMap_map]
  exact (List.filterMap_congr h).trans List.filterMap_some

theorem entryAt?_modify {e : Path × S} (hp : t.Goal p) (he : e ∈ t.openNodes) (hne : e.1 ≠ p) :
    (modify f p t).entryAt? e.1 = some e := by
  have hface := face_get?_modify (f := f) (hp.not_isPrefix (mem_openNodes.1 he).1 hne) t
  have hstate := congrArg (Option.map fun shown => (e.1, shown.1)) hface
  rw [Option.map_map, Option.map_map] at hstate
  exact hstate.trans (entryAt?_of_mem_openNodes he)

theorem openFromList_leaves (p : Path) (k : Nat) (states : List S) :
    openFromList [] p k (states.map (leaf (T := T))) = (states.zipIdx k).map fun e => p ++ [e.2] := by
  induction states generalizing k with
  | nil => rfl
  | cons s states ih =>
    rw [List.map_cons, openFromList, ih]
    simp [leaf, openFrom]

theorem openFrom_leaves (s : S) (x : T) (states : List S) (p : Path) :
    openFrom [] p (.node s (some x) (states.map leaf)) = (goalsBelow p states).map Prod.fst := by
  simp [openFrom, openFromList_leaves, goalsBelow]

theorem entryAt?_goalsBelow {s : S} {x : T} {states : List S}
    (hp : t.get? p = some (.node s (some x) (states.map leaf))) :
    ∀ e ∈ goalsBelow p states, t.entryAt? e.1 = some e := by
  intro e he
  obtain ⟨⟨s', k⟩, hk, rfl⟩ := List.mem_map.1 he
  have hchild : (states.map (leaf (T := T)))[k]? = some (leaf s') := by
    simp [List.mk_mem_zipIdx_iff_getElem?.1 hk]
  simp only [entryAt?, get?_append hp, get?_cons hchild]
  rfl

theorem Proper.get? (ht : t.Proper) (hn : t.get? p = some n) : n.Proper := by
  induction p generalizing t with
  | nil =>
    cases hn
    exact ht
  | cons i p ih =>
    obtain ⟨children, -⟩ := ht
    rename_i s x cs
    cases hc : cs[i]? with
    | none =>
      rw [Tree.get?, hc] at hn
      cases hn
    | some c =>
      rw [get?_cons hc] at hn
      exact ih (children c (List.mem_of_getElem? hc)) hn

theorem Proper.eq_leaf (ht : t.Proper) (hp : t.Goal p) (hn : t.get? p = some n) : n = leaf n.state := by
  have hopen := hp.tactic_eq_none hn
  obtain ⟨-, childless⟩ := ht.get? hn
  obtain rfl : _ = none := hopen
  rw [childless rfl]
  rfl

/-- **An open goal that is extended is replaced by the new goals.** -/
theorem openNodes_extend {s : S} {before after : List (Path × S)} (ht : t.Proper)
    (hnodes : t.openNodes = before ++ (p, s) :: after) (x : T) (states : List S) :
    (modify (extend x states) p t).get? p = some (.node s (some x) (states.map leaf)) ∧
      (modify (extend x states) p t).openNodes = before ++ goalsBelow p states ++ after := by
  have hmem : (p, s) ∈ t.openNodes := by
    rw [hnodes]
    exact List.mem_append_right before List.mem_cons_self
  obtain ⟨hp, n, hn, rfl⟩ := mem_openNodes.1 hmem
  have hnode : extend x states n = .node n.state (some x) (states.map leaf) := by
    rw [ht.eq_leaf hp hn]
    rfl
  have hget : (modify (extend x states) p t).get? p =
      some (.node n.state (some x) (states.map leaf)) := by
    rw [get?_modify hn, hnode]
  refine ⟨hget, ?_⟩
  obtain ⟨hbefore, hafter⟩ := not_mem_of_openNodes hnodes
  obtain ⟨before', after', hgoals, hmodify⟩ := openGoals_modify hp hn
  rw [← map_fst_openNodes, hnodes, List.map_append, List.map_cons] at hgoals
  obtain ⟨rfl, -, rfl⟩ := (List.append_cons_inj_of_notMem hbefore hafter).1 hgoals
  -- the goals before and after stand where they stood
  have hkeeps : ∀ es : List (Path × S), (∀ e ∈ es, e ∈ t.openNodes) → p ∉ es.map Prod.fst →
      (es.map Prod.fst).filterMap (modify (extend x states) p t).entryAt? = es := by
    intro es hes hnot
    refine filterMap_entryAt? fun e he => entryAt?_modify hp (hes e he) ?_
    rintro rfl
    exact hnot (List.mem_map_of_mem he)
  rw [openNodes, hmodify, hnode, openFrom_leaves, List.filterMap_append, List.filterMap_append,
    hkeeps before (by simp +contextual [hnodes]) hbefore,
    filterMap_entryAt? (entryAt?_goalsBelow hget),
    hkeeps after (by simp +contextual [hnodes]) hafter]

end Proof.Tree

namespace ProofTree
open Proof.Tree

variable {t t' n : ProofTree} {p : Path} {tactic : Tactic} {before after : List (Path × State)}

theorem apply_result_map (hn : t.get? p = some n) (tactic : Tactic) :
    (t.apply p tactic).result = (tactic.run n.state).result.map fun states =>
      if isIdle n.state states then none else some (modify (extend tactic states) p t) := by
  cases hrun : (tactic.run n.state).result with
  | ok states => exact apply_result hn hrun
  | error e =>
    unfold ProofTree.apply
    rw [hn]
    exact Outcome.result_bind_of_error hrun _

/-- **What takes the place of an open goal** when a tactic is used on it: the goal itself if the tactic
does nothing, and otherwise new goals for the states that the tactic leaves. -/
def Replaced (tactic : Tactic) (goal : Path × State) (left : List (Path × State)) : Prop :=
  ∃ states, (tactic.run goal.2).result = .ok states ∧
    left = if isIdle goal.2 states then [goal] else goalsBelow goal.1 states

/-- **One application** replaces the goal and keeps the goals before and after it. -/
theorem openNodes_apply {goal : Path × State} {r : Option ProofTree} (ht : t.Proper)
    (hnodes : t.openNodes = before ++ goal :: after)
    (happly : (t.apply goal.1 tactic).result = .ok r) :
    (r.getD t).Proper ∧ ∃ left, Replaced tactic goal left ∧
      (r.getD t).openNodes = before ++ left ++ after := by
  obtain ⟨p, u⟩ := goal
  have hmem : (p, u) ∈ t.openNodes := by
    rw [hnodes]
    exact List.mem_append_right before List.mem_cons_self
  obtain ⟨-, n, hn, rfl⟩ := mem_openNodes.1 hmem
  rw [apply_result_map hn] at happly
  cases hrun : (tactic.run n.state).result with
  | error e =>
    rw [hrun] at happly
    cases happly
  | ok states =>
    rw [hrun] at happly
    cases happly
    by_cases hidle : isIdle n.state states = true
    · refine ⟨by simpa [hidle] using ht, [(p, n.state)], ⟨states, hrun, by simp [hidle]⟩, ?_⟩
      simp [hidle, hnodes]
    · refine ⟨?_, goalsBelow p states, ⟨states, hrun, by simp [hidle]⟩, ?_⟩
      · simpa [hidle] using ht.modify (fun m hm => hm.extend tactic states) p
      · simpa [hidle] using (openNodes_extend ht hnodes tactic states).2

/-- **All goals that are left to be visited are replaced**, one after another, and those that stand before
them stay. -/
theorem openNodes_applyEach {todo : List (Path × State)} (ht : t.Proper)
    (hnodes : t.openNodes = before ++ todo)
    (heach : applyEach tactic (todo.map Prod.fst) t = .ok t') :
    ∃ lefts, List.Forall₂ (Replaced tactic) todo lefts ∧ t'.openNodes = before ++ lefts.flatten := by
  induction todo generalizing t before with
  | nil =>
    cases heach
    exact ⟨[], .nil, hnodes⟩
  | cons goal todo ih =>
    rw [List.map_cons, applyEach] at heach
    cases happly : (t.apply goal.1 tactic).result with
    | error e =>
      rw [happly] at heach
      cases heach
    | ok r =>
      rw [happly] at heach
      -- what takes the place of the goal counts as visited from now on
      obtain ⟨hproper, left, hleft, hopen⟩ := openNodes_apply ht hnodes happly
      obtain ⟨lefts, hlefts, hall⟩ := ih hproper hopen heach
      refine ⟨left :: lefts, .cons hleft hlefts, ?_⟩
      rw [hall, List.flatten_cons, List.append_assoc]

end ProofTree

namespace Session
open Request Proof.Tree ProofTree

variable {s : Session} {t : ProofTree} {tactic : Tactic}

theorem forM_useOnce_ok (htree : s.tree = some t) {ps : List Path}
    (h : (ps.forM (useOnce tactic) s).1.result = .ok ()) :
    ∃ t', applyEach tactic ps t = .ok t' ∧
      (ps.forM (useOnce tactic) s).2 = { s with tree := some t' } := by
  induction ps generalizing s t with
  | nil =>
    refine ⟨t, rfl, ?_⟩
    rw [← htree]
    rfl
  | cons p ps ih =>
    have hforM : (p :: ps).forM (useOnce tactic) s =
        (useOnce tactic p >>= fun _ => ps.forM (useOnce tactic)) s := rfl
    rw [hforM, bind_result] at h
    rw [hforM, bind_snd, applyEach]
    cases happly : (t.apply p tactic).result with
    | error e =>
      rw [((useOnce_eq htree tactic p).2 e happly).1] at h
      cases h
    | ok r =>
      obtain ⟨hresult, hsnd⟩ := (useOnce_eq htree tactic p).1 r happly
      rw [hresult, hsnd] at h ⊢
      exact ih rfl h

/-- How an application ends is decided by what the tactic leaves of the state. -/
theorem applyAt_of_get? {p : Path} {n : ProofTree} (htree : s.tree = some t) (hn : t.get? p = some n)
    (tactic : Tactic) :
    (∀ e, (tactic.run n.state).result = .error e →
      (applyAt p tactic s).1.result = .error e ∧ (applyAt p tactic s).2 = s) ∧
    ∀ states, (tactic.run n.state).result = .ok states →
      (applyAt p tactic s).1.result = .ok (!isIdle n.state states) ∧
      (applyAt p tactic s).2 = if isIdle n.state states then s
        else { s with tree := some (modify (extend tactic states) p t) } := by
  obtain ⟨hresult, hsnd⟩ := applyAt_eq htree p tactic
  have hsame : s = { s with tree := some t } := by rw [← htree]
  rw [apply_result_map hn] at hresult hsnd
  constructor
  · intro e hrun
    rw [hrun] at hresult hsnd
    exact ⟨hresult, hsnd⟩
  · intro states hrun
    rw [hrun] at hresult hsnd
    rw [hresult, hsnd]
    cases hidle : isIdle n.state states with
    | true => exact ⟨by simp [Except.map, hidle], by simpa [Except.map, hidle] using hsame.symm⟩
    | false => simp [Except.map, hidle]

theorem exists_same_of_isIdle {u : State} {states : List State} (h : isIdle u states = true) :
    ∃ u', states = [u'] ∧ u'.same u = true := by
  match states, h with
  | [u'], h => exact ⟨u', rfl, h⟩

/-- **A tactic replaces its own goal** in the list of open goals.

If it has an effect on the goal at a position of the list, new goals for the states that it leaves stand
there in order, and every node but that of the goal shows what it showed before.  If it leaves the state as
it was, or fails, nothing changes.  Used everywhere, it replaces each of the goals by what it leaves of
it. -/
theorem open_goals_replaced (hs : Reachable s) (htree : s.tree = some t) (tactic : Tactic) :
    t.openNodes.map Prod.fst = t.openGoals ∧
    (∀ i p u, t.openNodes[i]? = some (p, u) →
      ((applyAt p tactic s).1.result = .ok true → ∃ states t',
        (tactic.run u).result = .ok states ∧ (applyAt p tactic s).2 = { s with tree := some t' } ∧
        t'.openNodes = t.openNodes.take i ++ goalsBelow p states ++ t.openNodes.drop (i + 1) ∧
        t'.get? p = some (.node u (some tactic) (states.map leaf)) ∧
        ∀ q, ¬ p <+: q → (t'.get? q).map face = (t.get? q).map face) ∧
      ((applyAt p tactic s).1.result = .ok false →
        (applyAt p tactic s).2 = s ∧ ∃ u', (tactic.run u).result = .ok [u'] ∧ u'.same u = true) ∧
      ∀ e, (applyAt p tactic s).1.result = .error e →
        (applyAt p tactic s).2 = s ∧ (tactic.run u).result = .error e) ∧
    ((useEverywhere tactic s).1.result = .ok () → ∃ t' lefts,
      (useEverywhere tactic s).2 = { s with tree := some t' } ∧
      List.Forall₂ (Replaced tactic) t.openNodes lefts ∧ t'.openNodes = lefts.flatten) := by
  have ht : t.Proper := hs.proper t htree
  refine ⟨map_fst_openNodes t, ?_, ?_⟩
  · intro i p u hgoal
    obtain ⟨hp, n, hn, rfl⟩ := mem_openNodes.1 (List.mem_of_getElem? hgoal)
    obtain ⟨hfails, hruns⟩ := applyAt_of_get? htree hn tactic
    cases hrun : (tactic.run n.state).result with
    | error e =>
      obtain ⟨hresult, hsnd⟩ := hfails e hrun
      rw [hresult, hsnd]
      refine ⟨nofun, nofun, ?_⟩
      rintro e' ⟨⟩
      exact ⟨rfl, rfl⟩
    | ok states =>
      obtain ⟨hresult, hsnd⟩ := hruns states hrun
      rw [hresult, hsnd]
      cases hidle : isIdle n.state states with
      | true =>
        obtain ⟨u', rfl, hsame⟩ := exists_same_of_isIdle hidle
        exact ⟨nofun, fun _ => ⟨rfl, u', rfl, hsame⟩, nofun⟩
      | false =>
        have hnodes : t.openNodes = t.openNodes.take i ++ (p, n.state) :: t.openNodes.drop (i + 1) := by
          obtain ⟨hlt, hget⟩ := List.getElem?_eq_some_iff.1 hgoal
          rw [← hget, ← List.drop_eq_getElem_cons hlt, List.take_append_drop]
        obtain ⟨hget, hopen⟩ := openNodes_extend ht hnodes tactic states
        exact ⟨fun _ => ⟨states, _, rfl, rfl, hopen, hget, fun q hq => face_get?_modify hq t⟩,
          nofun, nofun⟩
  · intro h
    rw [useEverywhere_eq htree] at h ⊢
    obtain ⟨t', heach, hsnd⟩ := forM_useOnce_ok htree h
    rw [← map_fst_openNodes] at heach
    have hnodes : t.openNodes = [] ++ t.openNodes := rfl
    obtain ⟨lefts, hlefts, hall⟩ := openNodes_applyEach ht hnodes heach
    exact ⟨t', lefts, hsnd, hlefts, hall⟩

/-- Three goals, of which the second and the third one are assumed. -/
def allThree : Session := run [.use .splitGoal] threeGoals

theorem reachable_allThree : Reachable allThree :=
  reachable_run (.begin _ (.assume _ _ (.assume _ _ (.declareAll _ _ .start))))

/-- The second goal is proved and leaves the list; if all are tried, the first one stays. -/
theorem allThree_tried :
    allThree.tree.map openGoals = some [[0], [1], [2]] ∧
    (applyAt [1] .trivial allThree).2.tree.map openGoals = some [[0], [2]] ∧
    (useEverywhere .trivial allThree).2.tree.map openGoals = some [[0]] := by
  obtain ⟨-, hone, hall⟩ := open_goals_replaced reachable_allThree rfl .trivial
  refine ⟨rfl, ?_, ?_⟩
  · obtain ⟨states, t', hrun, hsnd, hopen, -⟩ := (hone 1 [1] _ rfl).1 rfl
    cases hrun
    rw [hsnd, Option.map_some, ← map_fst_openNodes, hopen]
    rfl
  · obtain ⟨t', lefts, hsnd, hlefts, hopen⟩ := hall rfl
    rw [hsnd, Option.map_some, ← map_fst_openNodes, hopen]
    -- the first goal stays, the others leave nothing
    rcases hlefts with _ | ⟨⟨_, hfirst, rfl⟩, hrest⟩
    rcases hrest with _ | ⟨⟨_, hsecond, rfl⟩, hrest⟩
    rcases hrest with _ | ⟨⟨_, hthird, rfl⟩, ⟨⟩⟩
    cases hfirst
    cases hsecond
    cases hthird
    rfl

end Session
end Majorant
