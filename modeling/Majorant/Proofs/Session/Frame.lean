import Majorant.Proof.Session
import Majorant.Proofs.Outcome

/-!
# What requests leave alone

Most requests to a session read it, or move in its proof tree, and leave the tree as it is.
-/

namespace Majorant

namespace Request

variable {α β : Type}

def Reads (r : Request α) : Prop := ∀ s, (r s).2 = s

def KeepsTree (r : Request α) : Prop := ∀ s, (r s).2.tree = s.tree

theorem Reads.keepsTree {r : Request α} (h : r.Reads) : r.KeepsTree := fun s => by rw [h s]

theorem bind_snd (x : Request α) (f : α → Request β) (s : Session) :
    ((x >>= f) s).2 = match (x s).1.result with
      | .ok a => (f a (x s).2).2
      | .error _ => (x s).2 := by
  change (x.andThen f s).2 = _
  unfold andThen
  obtain ⟨⟨r, log⟩, s'⟩ := x s
  cases r <;> rfl

theorem bind_result (x : Request α) (f : α → Request β) (s : Session) :
    ((x >>= f) s).1.result = match (x s).1.result with
      | .ok a => (f a (x s).2).1.result
      | .error e => .error e := by
  change (x.andThen f s).1.result = _
  unfold andThen
  obtain ⟨⟨r, log⟩, s'⟩ := x s
  cases r <;> rfl

theorem exists_of_bind_result {x : Request α} {f : α → Request β} {s : Session} {b : β}
    (h : ((x >>= f) s).1.result = .ok b) :
    ∃ a, (x s).1.result = .ok a ∧ (f a (x s).2).1.result = .ok b ∧
      ((x >>= f) s).2 = (f a (x s).2).2 := by
  rw [bind_result] at h
  rw [bind_snd]
  cases hx : (x s).1.result with
  | ok a =>
    rw [hx] at h
    exact ⟨a, rfl, h, rfl⟩
  | error e =>
    rw [hx] at h
    cases h

/-- A request that only looks something up, and finds it, goes on with what it has found. -/
theorem bind_of_eq_pure {x : Request α} {s : Session} {a : α} (h : x s = (pure a, s))
    (f : α → Request β) : (x >>= f) s = f a s := by
  change andThen x f s = f a s
  unfold andThen
  rw [h]
  rfl

theorem reads_pure (a : α) : (pure a : Request α).Reads := fun _ => rfl

theorem reads_ofOutcome (o : Outcome α) : (ofOutcome o).Reads := fun _ => rfl

theorem liftM_apply (o : Outcome α) (s : Session) : (liftM o : Request α) s = (o, s) := rfl

theorem reads_session : session.Reads := fun _ => rfl

theorem reads_fail (e : Failure) : (fail e : Request α).Reads := fun _ => rfl

theorem reads_say (text : String) : (say text).Reads := fun _ => rfl

theorem Reads.bind {x : Request α} {f : α → Request β} (hx : x.Reads) (hf : ∀ a, (f a).Reads) :
    (x >>= f).Reads := by
  intro s
  rw [bind_snd, hx s]
  cases (x s).1.result with
  | ok a => exact hf a s
  | error e => rfl

theorem KeepsTree.bind {x : Request α} {f : α → Request β} (hx : x.KeepsTree)
    (hf : ∀ a, (f a).KeepsTree) : (x >>= f).KeepsTree := by
  intro s
  rw [bind_snd, ← hx s]
  cases (x s).1.result with
  | ok a => exact hf a _
  | error e => rfl

theorem keepsTree_change {f : Session → Session} (h : ∀ s, (f s).tree = s.tree) :
    (change f).KeepsTree := h

theorem keepsTree_change_bind {f : Session → Session} {g : Unit → Request β}
    (hf : ∀ s, (f s).tree = s.tree) (hg : ∀ a, (g a).KeepsTree) : (change f >>= g).KeepsTree :=
  (keepsTree_change hf).bind hg

theorem bind_tree (x : Request α) {f : α → Request β} (hf : ∀ a, (f a).KeepsTree) (s : Session) :
    ((x >>= f) s).2.tree = (x s).2.tree := by
  rw [bind_snd]
  cases (x s).1.result with
  | ok a => exact hf a _
  | error e => rfl

end Request

namespace Session
open Request Proof

theorem reads_requireMode (m : Mode) (why : Refusal) : (requireMode m why).Reads :=
  reads_session.bind fun _ => reads_ofOutcome _

theorem reads_theTree : theTree.Reads := by
  refine reads_session.bind fun s => ?_
  cases s.tree with
  | none => exact reads_fail _
  | some t => exact reads_pure t

theorem reads_here : here.Reads := by
  refine reads_session.bind fun s => ?_
  cases s.current with
  | none => exact reads_fail _
  | some p => exact reads_pure p

theorem reads_nodeAt (p : Path) : (nodeAt p).Reads := by
  refine reads_theTree.bind fun t => ?_
  cases t.get? p with
  | none => exact reads_fail _
  | some n => exact reads_pure n

theorem reads_currentState : currentState.Reads :=
  (reads_here.bind fun p => reads_nodeAt p).bind fun _ => reads_pure _

theorem reads_status : status.Reads := by
  refine reads_theTree.bind fun t => ?_
  unfold reportOpen
  split <;> exact reads_say _

variable {s : Session} {t n : ProofTree} {p : Path}

theorem session_eq_pure (s : Session) : session s = (pure s, s) := rfl

theorem requireMode_eq_pure {m : Mode} (hmode : s.mode = m) (why : Refusal) :
    requireMode m why s = (pure (), s) := by
  unfold requireMode
  rw [bind_of_eq_pure (session_eq_pure s)]
  change (Outcome.require (s.mode = m) _, s) = _
  rw [hmode]
  simp only [Outcome.require, decide_true, if_true]
  rfl

theorem theTree_eq_pure (htree : s.tree = some t) : theTree s = (pure t, s) := by
  unfold theTree
  rw [bind_of_eq_pure (session_eq_pure s), htree]
  rfl

theorem here_eq_pure (hcurrent : s.current = some p) : here s = (pure p, s) := by
  unfold here
  rw [bind_of_eq_pure (session_eq_pure s), hcurrent]
  rfl

theorem nodeAt_eq_pure (htree : s.tree = some t) (hn : t.get? p = some n) :
    nodeAt p s = (pure n, s) := by
  unfold nodeAt
  rw [bind_of_eq_pure (theTree_eq_pure htree), hn]
  rfl

theorem keepsTree_moveTo (p : Path) : (moveTo p).KeepsTree := by
  refine (reads_requireMode _ _).keepsTree.bind fun _ => reads_theTree.keepsTree.bind fun t =>
    (reads_nodeAt p).keepsTree.bind fun n => keepsTree_change_bind (fun _ => rfl) fun _ => ?_
  split
  · exact (reads_say _).keepsTree
  · exact (reads_say _).keepsTree

theorem theTree_result (s : Session) :
    (theTree s).1.result = match s.tree with
      | some t => .ok t
      | none => .error .noTree := by
  obtain ⟨mode, assumptions, heading, tree, current, autoFinish⟩ := s
  cases tree <;> rfl

theorem nodeAt_result (p : Path) (s : Session) :
    (nodeAt p s).1.result = match s.tree with
      | some t =>
        match t.get? p with
        | some n => .ok n
        | none => .error .outOfRange
      | none => .error .noTree := by
  unfold nodeAt
  rw [bind_result, reads_theTree s, theTree_result]
  cases s.tree with
  | none => rfl
  | some t =>
    dsimp only
    cases t.get? p <;> rfl

theorem nodeAt_of_moveTo {p : Path} {s : Session} (h : (moveTo p s).1.result = .ok ()) :
    ∃ n, (nodeAt p (moveTo p s).2).1.result = .ok n := by
  have htree : (moveTo p s).2.tree = s.tree := keepsTree_moveTo p s
  unfold moveTo at h
  obtain ⟨_, -, h, -⟩ := exists_of_bind_result h
  rw [reads_requireMode _ _ s] at h
  obtain ⟨t, -, h, -⟩ := exists_of_bind_result h
  rw [reads_theTree s] at h
  obtain ⟨n, hn, -, -⟩ := exists_of_bind_result h
  refine ⟨n, ?_⟩
  rw [nodeAt_result, htree, ← nodeAt_result, hn]

/-- **The request moves to a node**, or leaves the session as it is. -/
def Moves (r : Request Unit) : Prop :=
  ∀ s, (r s).2 = s ∨ ∃ p, (r s).2 = (moveTo p s).2 ∧
    ((moveTo p s).1.result = .ok () → (r s).1.result = .ok ())

theorem Moves.keepsTree {r : Request Unit} (h : Moves r) : r.KeepsTree := by
  intro s
  rcases h s with heq | ⟨p, heq, -⟩ <;> rw [heq]
  exact keepsTree_moveTo p s

theorem moves_of_reads {r : Request Unit} (h : r.Reads) : Moves r := fun s => .inl (h s)

theorem moves_bind {α : Type} {x : Request α} {f : α → Request Unit} (hx : x.Reads)
    (hf : ∀ a, Moves (f a)) : Moves (x >>= f) := by
  intro s
  rw [bind_snd, bind_result, hx s]
  cases (x s).1.result with
  | ok a => exact hf a s
  | error e => exact .inl rfl

theorem moves_moveTo_bind (p : Path) {f : Unit → Request Unit} (hf : (f ()).Reads)
    (hok : ∀ s n, (nodeAt p s).1.result = .ok n → (f () s).1.result = .ok ()) :
    Moves (moveTo p >>= f) := by
  intro s
  refine .inr ⟨p, ?_, fun h => ?_⟩
  · rw [bind_snd]
    cases (moveTo p s).1.result with
    | ok a => exact hf _
    | error e => rfl
  · obtain ⟨n, hn⟩ := nodeAt_of_moveTo h
    rw [bind_result, h]
    exact hok _ n hn

theorem moves_moveOr (p : Option Path) (otherwise : String) : Moves (moveOr p otherwise) := by
  cases p with
  | none => exact moves_of_reads (reads_say _)
  | some p => exact fun s => .inr ⟨p, rfl, id⟩

theorem moves_visit (p : Path) : Moves (visit p) := by
  refine moves_bind reads_session fun s => ?_
  cases s.tree with
  | none =>
    exact moves_of_reads ((reads_ofOutcome _).bind fun _ => (reads_requireMode _ _).bind fun _ =>
      reads_fail _)
  | some t => exact moves_bind (reads_ofOutcome _) fun _ s => .inr ⟨p, rfl, id⟩

theorem moves_nextGoal : Moves nextGoal :=
  moves_bind (reads_requireMode _ _) fun _ => moves_bind reads_theTree fun _ =>
    moves_bind reads_here fun _ => moves_moveOr _ _

theorem moves_previousGoal : Moves previousGoal :=
  moves_bind (reads_requireMode _ _) fun _ => moves_bind reads_theTree fun _ =>
    moves_bind reads_here fun _ => moves_moveOr _ _

theorem moves_firstGoal : Moves firstGoal :=
  moves_bind (reads_requireMode _ _) fun _ => moves_bind reads_theTree fun _ => moves_moveOr _ _

theorem moves_lastGoal : Moves lastGoal :=
  moves_bind (reads_requireMode _ _) fun _ => moves_bind reads_theTree fun _ => moves_moveOr _ _

theorem moves_back : Moves back := by
  refine moves_bind (reads_requireMode _ _) fun _ => moves_bind reads_here fun p => ?_
  cases parent? p with
  | none => exact moves_of_reads (reads_say _)
  | some q => exact moves_moveTo_bind q (reads_say _) fun _ _ _ => rfl

theorem moves_forward (case : Int) : Moves (forward case) := by
  refine moves_bind (reads_requireMode _ _) fun _ => moves_bind reads_here fun p =>
    moves_bind (reads_nodeAt p) fun n => ?_
  dsimp only
  split
  · exact moves_of_reads (reads_say _)
  · split
    · exact moves_of_reads (reads_say _)
    · cases caseIndex n.children.length case with
      | none => exact moves_of_reads (reads_fail _)
      | some i =>
        refine moves_moveTo_bind _ ((reads_nodeAt _).bind fun _ => reads_say _) fun s n hn => ?_
        rw [bind_result, hn]
        rfl

theorem keepsTree_leave : leave.KeepsTree :=
  (reads_requireMode _ _).keepsTree.bind fun _ => keepsTree_change_bind (fun _ => rfl) fun _ =>
    (reads_say _).keepsTree

theorem keepsTree_enter : enter.KeepsTree :=
  (reads_requireMode _ _).keepsTree.bind fun _ => keepsTree_change_bind (fun _ => rfl) fun _ =>
    (reads_say _).keepsTree.bind fun _ => reads_currentState.keepsTree.bind fun _ =>
      (reads_say _).keepsTree

theorem keepsTree_setAutoFinish (on : Bool) : (setAutoFinish on).KeepsTree :=
  (reads_say _).keepsTree.bind fun _ => keepsTree_change fun _ => rfl

theorem here_result (s : Session) :
    (here s).1.result = match s.current with
      | some p => .ok p
      | none => .error .noCurrentNode := by
  obtain ⟨mode, assumptions, heading, tree, current, autoFinish⟩ := s
  cases current <;> rfl

theorem apply_eq_some {t t' : ProofTree} {p : Path} {tactic : Tactic}
    (h : (t.apply p tactic).result = .ok (some t')) :
    ∃ n states, t.get? p = some n ∧ (tactic.run n.state).result = .ok states ∧
      t' = Tree.modify (Tree.extend tactic states) p t := by
  unfold ProofTree.apply at h
  cases hn : t.get? p with
  | none =>
    rw [hn] at h
    cases h
  | some n =>
    rw [hn] at h
    obtain ⟨states, hrun, h⟩ := Outcome.result_bind_eq_ok.1 h
    refine ⟨n, states, rfl, hrun, ?_⟩
    dsimp only at h
    rw [Outcome.result_pure, Except.ok.injEq] at h
    split_ifs at h
    exact (Option.some.inj h).symm

theorem applyAt_tree_eq (p : Path) (tactic : Tactic) (s : Session) :
    (applyAt p tactic s).2.tree = s.tree ∨
      ∃ t t', s.tree = some t ∧ (t.apply p tactic).result = .ok (some t') ∧
        (applyAt p tactic s).2.tree = some t' := by
  unfold applyAt
  rw [bind_snd, reads_theTree s, theTree_result]
  cases htree : s.tree with
  | none => exact .inl htree
  | some t =>
    dsimp only
    rw [bind_snd, liftM_apply]
    cases happly : (t.apply p tactic).result with
    | error e => exact .inl htree
    | ok r =>
      cases r with
      | none => exact .inl htree
      | some t' => exact .inr ⟨t, t', rfl, happly, rfl⟩

/-- **An application extends the node by the states the tactic left**, or leaves the tree as it is. -/
theorem applyAt_tree (p : Path) (tactic : Tactic) (s : Session) :
    (applyAt p tactic s).2.tree = s.tree ∨
      ∃ t n states, s.tree = some t ∧ t.get? p = some n ∧ (tactic.run n.state).result = .ok states ∧
        (applyAt p tactic s).2.tree = some (Tree.modify (Tree.extend tactic states) p t) := by
  rcases applyAt_tree_eq p tactic s with heq | ⟨t, t', ht, happly, heq⟩
  · exact .inl heq
  · obtain ⟨n, states, hn, hrun, rfl⟩ := apply_eq_some happly
    exact .inr ⟨t, n, states, ht, hn, hrun, heq⟩

theorem requireMode_result (m : Mode) (why : Refusal) (s : Session) :
    (requireMode m why s).1.result = if s.mode = m then .ok () else .error (.refused why) := by
  unfold requireMode
  rw [bind_result]
  change (Outcome.require (s.mode = m) (.refused why)).result = _
  unfold Outcome.require
  by_cases h : s.mode = m <;> simp [h, Outcome.ret, Outcome.fail]

/-- **To use a tactic** changes the tree as the application to the current node does, if the session is
in tactic mode and has one. -/
theorem use_tree (tactic : Tactic) (s : Session) :
    (use tactic s).2.tree = s.tree ∨
      ∃ p, s.mode = .tactic ∧ s.current = some p ∧
        (use tactic s).2.tree = (applyAt p tactic s).2.tree := by
  unfold use
  rw [bind_snd, reads_requireMode _ _ s, requireMode_result]
  by_cases hmode : s.mode = .tactic
  swap
  · rw [if_neg hmode]
    exact .inl rfl
  rw [if_pos hmode]
  dsimp only
  rw [bind_snd, reads_theTree s, theTree_result]
  cases htree : s.tree with
  | none => exact .inl htree
  | some t =>
    dsimp only
    rw [bind_snd, reads_here s, here_result]
    cases hcurrent : s.current with
    | none => exact .inl htree
    | some p =>
      -- What is done after the application writes lines and moves on.
      refine .inr ⟨p, hmode, rfl, bind_tree _ (fun changed => ?_) s⟩
      cases changed with
      | false => exact (reads_pure _).keepsTree
      | true =>
        refine reads_status.keepsTree.bind fun _ => reads_theTree.keepsTree.bind fun t => ?_
        split
        · exact keepsTree_change fun _ => rfl
        · refine keepsTree_change fun s => ?_
          split <;> rfl

/-- The request clears a node of the tree, or leaves the tree as it is. -/
def Clears {α : Type} (r : Request α) : Prop :=
  ∀ s, (r s).2.tree = s.tree ∨ ∃ q, (r s).2.tree = s.tree.map (Tree.modify Tree.clear q)

theorem clears_bind {α β : Type} {x : Request α} {f : α → Request β} (hx : x.KeepsTree)
    (hf : ∀ a, Clears (f a)) : Clears (x >>= f) := by
  intro s
  rw [bind_snd, ← hx s]
  cases (x s).1.result with
  | ok a => exact hf a _
  | error e => exact .inl rfl

theorem clears_undo : Clears undo := by
  refine clears_bind (reads_requireMode _ _).keepsTree fun _ => clears_bind reads_here.keepsTree
    fun p => ?_
  cases parent? p with
  | none => exact fun s => .inl rfl
  | some q =>
    exact clears_bind (keepsTree_moveTo q) fun _ => clears_bind (reads_nodeAt q).keepsTree fun _ =>
      clears_bind (reads_say _).keepsTree fun _ s => .inr ⟨q, rfl⟩

end Session
end Majorant
