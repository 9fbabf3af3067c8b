import Majorant.Proofs.Session.Neighbours
import Majorant.Proofs.Session.Soundness

/-!
# Where a session goes on after a tactic

In every session that can be reached, open nodes have no children.
-/

namespace Majorant
open Proof

namespace Proof.Tree

variable {S T : Type}

theorem proper_leaf (s : S) : (leaf s : Tree S T).Proper := .node nofun fun _ => rfl

theorem proper_clear (n : Tree S T) : n.clear.Proper := by
  obtain ⟨s, x, cs⟩ := n
  exact proper_leaf s

theorem Proper.extend {n : Tree S T} (h : n.Proper) (tactic : T) (states : List S) :
    (extend tactic states n).Proper := by
  obtain ⟨children, -⟩ := h
  refine .node (fun c hc => ?_) nofun
  rcases List.mem_append.1 hc with hc | hc
  · exact children c hc
  · obtain ⟨s, -, rfl⟩ := List.mem_map.1 hc
    exact proper_leaf s

/-- A change of one node keeps open nodes without children if it does so at that node. -/
theorem Proper.modify {f : Tree S T → Tree S T} (hf : ∀ n : Tree S T, n.Proper → (f n).Proper)
    (p : Path) {t : Tree S T} (h : t.Proper) : (modify f p t).Proper := by
  induction p generalizing t with
  | nil => exact hf t h
  | cons i p ih =>
    obtain ⟨children, childless⟩ := h
    refine .node (fun c hc => ?_) fun hx => ?_
    · obtain ⟨k, hk⟩ := List.mem_iff_getElem?.1 hc
      rw [List.getElem?_modify] at hk
      obtain ⟨d, hd, rfl⟩ := Option.map_eq_some_iff.1 hk
      have hproper := children d (List.mem_of_getElem? hd)
      by_cases hik : i = k
      · rw [if_pos hik]
        exact ih hproper
      · rwa [if_neg hik]
    · rw [childless hx]
      cases i <;> rfl

theorem get?_modify {f : Tree S T → Tree S T} {p : Path} {t n : Tree S T} (h : t.get? p = some n) :
    (modify f p t).get? p = some (f n) := by
  induction p generalizing t with
  | nil =>
    cases h
    rfl
  | cons i p ih =>
    obtain ⟨s, x, cs⟩ := t
    cases hc : cs[i]? with
    | none =>
      rw [get?, hc] at h
      cases h
    | some c =>
      rw [get?_cons hc] at h
      have hchild : (cs.modify i (Tree.modify f p))[i]? = some (Tree.modify f p c) := by
        rw [List.getElem?_modify, hc]
        simp
      rw [Tree.modify, get?_cons hchild]
      exact ih h

theorem Goal.tactic_eq_none {t n : Tree S T} {p : Path} (h : t.Goal p) (hn : t.get? p = some n) :
    n.tactic = none := by
  induction h with
  | here =>
    cases hn
    rfl
  | inner hc _ ih =>
    rw [get?_cons hc] at hn
    exact ih hn

end Proof.Tree

namespace Request

variable {α β : Type} {P : ProofTree → Prop} {I : Session → Prop}

def Keeps (I : Session → Prop) (r : Request α) : Prop := ∀ s, I s → I (r s).2

theorem Keeps.bind {x : Request α} {f : α → Request β} (hx : x.Keeps I) (hf : ∀ a, (f a).Keeps I) :
    (x >>= f).Keeps I := by
  intro s hs
  rw [bind_snd]
  cases (x s).1.result with
  | ok a => exact hf a _ (hx s hs)
  | error e => exact hx s hs

theorem Reads.keeps {r : Request α} (h : r.Reads) : r.Keeps I := fun s hs => (h s).symm ▸ hs

theorem Keeps.forM {f : α → Request Unit} (hf : ∀ a, (f a).Keeps I) (as : List α) :
    (as.forM f).Keeps I := by
  induction as with
  | nil => exact (reads_pure _).keeps
  | cons a as ih => exact (hf a).bind fun _ => ih

theorem Keeps.mapM {f : α → Request β} (hf : ∀ a, (f a).Keeps I) (as : List α) :
    (as.mapM f).Keeps I := by
  have hloop : ∀ bs, (List.mapM.loop f as bs).Keeps I := by
    induction as with
    | nil => exact fun bs => (reads_pure _).keeps
    | cons a as ih => exact fun bs => (hf a).bind fun b => ih (b :: bs)
  exact hloop []

def Maintains (P : ProofTree → Prop) (r : Request α) : Prop :=
  ∀ s : Session, (∀ t ∈ s.tree, P t) → ∀ t ∈ (r s).2.tree, P t

theorem KeepsTree.maintains {r : Request α} (h : r.KeepsTree) : r.Maintains P := by
  intro s hs t ht
  rw [h s] at ht
  exact hs t ht

theorem Maintains.bind {x : Request α} {f : α → Request β} (hx : x.Maintains P)
    (hf : ∀ a, (f a).Maintains P) : (x >>= f).Maintains P := Keeps.bind hx hf

theorem Maintains.forM {f : α → Request Unit} (hf : ∀ a, (f a).Maintains P) (as : List α) :
    (as.forM f).Maintains P := Keeps.forM hf as

theorem Maintains.mapM {f : α → Request β} (hf : ∀ a, (f a).Maintains P) (as : List α) :
    (as.mapM f).Maintains P := Keeps.mapM hf as

end Request

namespace Session
open Request

/-- A property of proof trees that is kept when a tactic changes the tree and when a node is cleared. -/
structure Stable (P : ProofTree → Prop) : Prop where
  apply : ∀ {t t' : ProofTree} {p : Path} {tactic : Tactic}, P t →
    (t.apply p tactic).result = .ok (some t') → P t'
  clear : ∀ {t : ProofTree} (q : Path), P t → P (Tree.modify Tree.clear q t)

variable {P : ProofTree → Prop}

theorem Stable.applyAt (hP : Stable P) (p : Path) (tactic : Tactic) :
    (applyAt p tactic).Maintains P := by
  intro s hs t' ht'
  rcases applyAt_tree_eq p tactic s with heq | ⟨t, u, ht, happly, heq⟩
  · rw [heq] at ht'
    exact hs t' ht'
  · rw [heq] at ht'
    cases ht'
    exact hP.apply (hs t ht) happly

theorem Stable.use (hP : Stable P) (tactic : Tactic) : (use tactic).Maintains P := by
  intro s hs t' ht'
  rcases use_tree tactic s with heq | ⟨p, -, -, heq⟩
  · rw [heq] at ht'
    exact hs t' ht'
  · rw [heq] at ht'
    exact hP.applyAt p tactic s hs t' ht'

theorem Stable.useEverywhere (hP : Stable P) (tactic : Tactic) :
    (useEverywhere tactic).Maintains P :=
  reads_theTree.keepsTree.maintains.bind fun _ => .forM (fun p => (hP.applyAt p tactic).bind
    fun _ => reads_status.keepsTree.maintains) _

theorem maintains_undo (hclear : ∀ {t : ProofTree} (q : Path), P t → P (Tree.modify Tree.clear q t)) :
    undo.Maintains P := by
  intro s hs t' ht'
  rcases clears_undo s with heq | ⟨q, heq⟩
  · rw [heq] at ht'
    exact hs t' ht'
  · rw [heq] at ht'
    obtain ⟨t, ht, rfl⟩ := Option.map_eq_some_iff.1 ht'
    exact hclear q (hs t ht)

theorem Stable.command (hP : Stable P) (c : Command) : c.request.Maintains P := by
  cases c with
  | use tactic => exact hP.use tactic
  | useLemma name l => exact hP.use _
  | useEverywhere tactic => exact hP.useEverywhere tactic
  | undo => exact maintains_undo hP.clear
  | back => exact moves_back.keepsTree.maintains
  | forward case => exact (moves_forward case).keepsTree.maintains
  | visit p => exact (moves_visit p).keepsTree.maintains
  | nextGoal => exact moves_nextGoal.keepsTree.maintains
  | previousGoal => exact moves_previousGoal.keepsTree.maintains
  | firstGoal => exact moves_firstGoal.keepsTree.maintains
  | lastGoal => exact moves_lastGoal.keepsTree.maintains
  | leave => exact keepsTree_leave.maintains
  | enter => exact keepsTree_enter.maintains
  | setAutoFinish on => exact (keepsTree_setAutoFinish on).maintains

theorem Stable.run (hP : Stable P) (cs : List Command) {s : Session} (hs : ∀ t ∈ s.tree, P t) :
    ∀ t ∈ (run cs s).tree, P t := by
  induction cs generalizing s with
  | nil => exact hs
  | cons c cs ih => exact ih (hP.command c s hs)

theorem stable_proper : Stable Tree.Proper where
  apply := by
    intro t t' p tactic ht happly
    obtain ⟨n, states, -, -, rfl⟩ := apply_eq_some happly
    exact ht.modify (fun n hn => hn.extend tactic states) p
  clear := fun q ht => ht.modify (fun n _ => Tree.proper_clear n) q

theorem keepsTree_declare (kind name : String) : (declare kind name).KeepsTree :=
  (reads_requireMode _ _).keepsTree.bind fun _ => reads_session.keepsTree.bind fun _ =>
    (reads_ofOutcome _).keepsTree.bind fun _ => keepsTree_change_bind (fun _ => rfl) fun _ =>
      (reads_pure _).keepsTree

theorem keepsTree_assume (t : Term) (name : String) : (assume t name).KeepsTree :=
  (reads_requireMode _ _).keepsTree.bind fun _ => (reads_ofOutcome _).keepsTree.bind fun _ =>
    reads_session.keepsTree.bind fun _ => (reads_ofOutcome _).keepsTree.bind fun _ =>
      keepsTree_change fun _ => rfl

theorem keepsTree_clear : clear.KeepsTree :=
  (reads_requireMode _ _).keepsTree.bind fun _ => keepsTree_change fun _ => rfl

theorem keeps_begin {I : Session → Prop} (goal : Term)
    (hI : ∀ (s : Session) u heading, I { s with
      mode := .tactic, tree := some (Tree.leaf u), current := some [], heading := heading,
      assumptions := [] }) : (begin goal).Keeps I := by
  rw [begin_eq]
  exact (reads_ofOutcome _).keeps.bind fun g => (reads_requireMode _ _).keeps.bind fun _ =>
    (reads_ofOutcome _).keeps.bind fun _ => reads_session.keeps.bind fun s =>
      (reads_ofOutcome _).keeps.bind fun _ => Keeps.bind (fun s _ => hI s _ _) fun _ =>
        ((reads_say _).bind fun _ => reads_say _).keeps

theorem maintains_begin (hleaf : ∀ u, P (Tree.leaf u)) (goal : Term) : (begin goal).Maintains P :=
  keeps_begin goal fun _ u _ _ ht => Option.some.inj ht ▸ hleaf u

theorem maintains_abandon : abandon.Maintains P :=
  (reads_requireMode _ _).keeps.bind fun _ _ _ => nofun

theorem maintains_declareAll (kind : String) (names : List String) :
    (declareAll kind names).Maintains P :=
  (reads_requireMode _ _).keepsTree.maintains.bind fun _ =>
    Maintains.mapM (fun name => (keepsTree_declare kind name).maintains) names

/-- **The sessions that can be reached** from the start. -/
inductive Reachable : Session → Prop
  | start : Reachable start
  | declare {s : Session} (kind name : String) (h : Reachable s) : Reachable (declare kind name s).2
  | declareAll {s : Session} (kind : String) (names : List String) (h : Reachable s) :
      Reachable (declareAll kind names s).2
  | assume {s : Session} (t : Term) (name : String) (h : Reachable s) : Reachable (assume t name s).2
  | clear {s : Session} (h : Reachable s) : Reachable (clear s).2
  | begin {s : Session} (goal : Term) (h : Reachable s) : Reachable (begin goal s).2
  | abandon {s : Session} (h : Reachable s) : Reachable (abandon s).2
  | command {s : Session} (c : Command) (h : Reachable s) : Reachable (c.request s).2

/-- **Open nodes have no children** in a session that can be reached. -/
theorem Reachable.proper {s : Session} (h : Reachable s) : ∀ t ∈ s.tree, t.Proper := by
  induction h with
  | start => exact nofun
  | declare kind name _ ih => exact (keepsTree_declare kind name).maintains _ ih
  | declareAll kind names _ ih => exact maintains_declareAll kind names _ ih
  | assume t name _ ih => exact (keepsTree_assume t name).maintains _ ih
  | clear _ ih => exact keepsTree_clear.maintains _ ih
  | begin goal _ ih => exact maintains_begin Tree.proper_leaf goal _ ih
  | abandon _ ih => exact maintains_abandon _ ih
  | command c _ ih => exact stable_proper.command c _ ih

variable {s : Session} {t t' : ProofTree} {p : Path} {tactic : Tactic}

/-- The session that goes on at a goal, or takes the proof to be finished. -/
def goOn (s : Session) : Option Path → Session
  | some g => { s with current := some g }
  | none => if s.autoFinish then { s with current := none, mode := .assumption } else s

theorem goOn_none_of_autoFinish (h : s.autoFinish = true) :
    s.goOn none = { s with current := none, mode := .assumption } := if_pos h

theorem goOn_none_of_not_autoFinish (h : s.autoFinish = false) : s.goOn none = s := by
  rw [goOn, h]
  rfl

theorem status_result (htree : s.tree = some t) : (status s).1.result = .ok () := by
  unfold status
  rw [bind_result, theTree_result, htree]
  change (reportOpen t.openCount _).1.result = _
  rcases t.openCount with _ | _ | n <;> rfl

/-- **The session after a tactic** has changed the tree. -/
theorem use_eq (hmode : s.mode = .tactic) (htree : s.tree = some t) (hcurrent : s.current = some p)
    (happly : (t.apply p tactic).result = .ok (some t')) :
    (use tactic s).2 = goOn { s with tree := some t' } (t'.nextFrom p) := by
  have hat : (applyAt p tactic s).1.result = .ok true ∧
      (applyAt p tactic s).2 = { s with tree := some t' } := by
    unfold applyAt
    rw [bind_of_eq_pure (theTree_eq_pure htree), bind_result, bind_snd, liftM_apply, happly]
    exact ⟨rfl, rfl⟩
  unfold use
  rw [bind_of_eq_pure (requireMode_eq_pure hmode _), bind_of_eq_pure (theTree_eq_pure htree),
    bind_of_eq_pure (here_eq_pure hcurrent), bind_snd, hat.1, hat.2]
  dsimp only
  rw [if_pos rfl, bind_snd, reads_status, status_result rfl]
  dsimp only
  rw [bind_of_eq_pure (theTree_eq_pure rfl)]
  unfold Tree.nextFrom
  cases (t'.neighbours p).after <|> (t'.neighbours p).before <;> rfl

theorem not_mem_openGoals_of_apply (happly : (t.apply p tactic).result = .ok (some t')) :
    p ∉ t'.openGoals := by
  obtain ⟨n, states, hn, -, rfl⟩ := apply_eq_some happly
  intro hp
  have hnone := (Tree.mem_openGoals.1 hp).tactic_eq_none (Tree.get?_modify hn)
  obtain ⟨s, x, cs⟩ := n
  cases hnone

/-- **Where a session goes on.**  When a tactic has changed the tree, the session goes on with an open
goal in view of the node it was used on, if there is one.  Otherwise it takes the proof to be finished,
and leaves tactic mode or stays at a node that is not open.  So a session never leaves open goals behind
exactly as long as some open goal is in view while any is left. -/
theorem use_goes_on_in_view {s : Session} (hs : Reachable s) {t t' : ProofTree} {p : Path}
    {tactic : Tactic} (hmode : s.mode = .tactic) (htree : s.tree = some t)
    (hcurrent : s.current = some p) (happly : (t.apply p tactic).result = .ok (some t')) :
    (use tactic s).2.tree = some t' ∧
      ((∃ g ∈ t'.openGoals, t'.InView p g) → (use tactic s).2.mode = .tactic ∧
        ∃ g ∈ t'.openGoals, t'.InView p g ∧ (use tactic s).2.current = some g) ∧
      ((∀ g ∈ t'.openGoals, ¬ t'.InView p g) →
        if s.autoFinish then (use tactic s).2.mode = .assumption ∧ (use tactic s).2.current = none
        else (use tactic s).2.mode = .tactic ∧ (use tactic s).2.current = some p ∧
          p ∉ t'.openGoals) ∧
      ((t'.openCount ≠ 0 → (use tactic s).2.mode = .tactic ∧
          ∃ g ∈ t'.openGoals, (use tactic s).2.current = some g) ↔
        (t'.openCount ≠ 0 → ∃ g ∈ t'.openGoals, t'.InView p g)) := by
  have hgone := not_mem_openGoals_of_apply happly
  obtain ⟨n, states, hn, -, heq⟩ := apply_eq_some happly
  have hproper : t'.Proper := by
    rw [heq]
    exact (hs.proper t htree).modify (fun n hn => hn.extend tactic states) p
  have hnode : t'.get? p = some (Tree.extend tactic states n) := by
    rw [heq]
    exact Tree.get?_modify hn
  rw [use_eq hmode htree hcurrent happly]
  cases hnext : t'.nextFrom p with
  | some g =>
    obtain ⟨hg, hview⟩ := hproper.of_nextFrom hnode hnext
    exact ⟨rfl, fun _ => ⟨hmode, g, hg, hview, rfl⟩, fun hnone => absurd hview (hnone g hg),
      fun _ _ => ⟨g, hg, hview⟩, fun _ _ => ⟨hmode, g, hg, rfl⟩⟩
  | none =>
    have hnone := (hproper.nextFrom_eq_none_iff hnode).1 hnext
    have hview : ¬ ∃ g ∈ t'.openGoals, t'.InView p g := fun ⟨g, hg, hview⟩ => hnone g hg hview
    by_cases hauto : s.autoFinish = true
    · rw [goOn_none_of_autoFinish (s := { s with tree := some t' }) hauto, if_pos hauto]
      refine ⟨rfl, fun h => absurd h hview, fun _ => ⟨rfl, rfl⟩, fun h hopen => ?_,
        fun h hopen => absurd (h hopen) hview⟩
      cases (h hopen).1
    · rw [goOn_none_of_not_autoFinish (s := { s with tree := some t' }) (by simpa using hauto),
        if_neg hauto]
      refine ⟨rfl, fun h => absurd h hview, fun _ => ⟨hmode, hcurrent, hgone⟩, fun h hopen => ?_,
        fun h hopen => absurd (h hopen) hview⟩
      obtain ⟨-, g, hg, hat⟩ := h hopen
      cases hcurrent.symm.trans hat
      exact absurd hg hgone

/-- A session in which two of three propositions are assumed, and the conjunction of all three is to be
proved. -/
def threeGoals : Session :=
  let p := Term.var ⟨"P", .prop⟩
  let q := Term.var ⟨"Q", .prop⟩
  let r := Term.var ⟨"R", .prop⟩
  (begin (.app .and [p, q, r]) (assume r "hR" (assume q "hQ"
    (declareAll "bool" ["P", "Q", "R"] start).2).2).2).2

/-- The goal is split, and the second of the new goals is proved. -/
def middleProved : Session := run [.use .splitGoal, .nextGoal, .use .trivial] threeGoals

theorem reachable_run {cs : List Command} {s : Session} (hs : Reachable s) : Reachable (run cs s) := by
  induction cs generalizing s with
  | nil => exact hs
  | cons c cs ih => exact ih (.command c hs)

theorem reachable_middleProved : Reachable middleProved :=
  reachable_run (.begin _ (.assume _ _ (.assume _ _ (.declareAll _ _ .start))))

/-- When the third goal has been proved, the first one is open but not in view, and the session leaves
the proof. -/
theorem middleProved_left :
    (use .trivial middleProved).2.tree.map (·.openGoals) = some [[0]] ∧
      (use .trivial middleProved).2.mode = .assumption := by
  obtain ⟨htree, -, hleft, -⟩ :=
    @use_goes_on_in_view _ reachable_middleProved _ _ _ .trivial rfl rfl rfl rfl
  refine ⟨by rw [htree]; rfl, (hleft ?_).1⟩
  intro g hg hview
  rw [List.mem_singleton.1 hg] at hview
  rcases hview with _ | hlt | _ | _
  omega

end Session
end Majorant
