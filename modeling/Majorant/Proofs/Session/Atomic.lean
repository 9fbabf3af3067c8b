import Majorant.Proofs.Session.Reachable

/-!
# Calls that fail

Almost every request makes all of its checks before its first change, so that a failure leaves the
session as it was.
-/

namespace Majorant
open Proof

namespace Request

variable {α β : Type}

/-- **A failure leaves the session as it was.** -/
def Atomic (r : Request α) : Prop := ∀ s e, (r s).1.result = .error e → (r s).2 = s

def Total (r : Request α) : Prop := ∀ s, ∃ a, (r s).1.result = .ok a

theorem Reads.atomic {r : Request α} (h : r.Reads) : r.Atomic := fun s _ _ => h s

theorem Total.atomic {r : Request α} (h : r.Total) : r.Atomic := by
  intro s e he
  obtain ⟨a, ha⟩ := h s
  rw [ha] at he
  cases he

theorem total_say (text : String) : (say text).Total := fun _ => ⟨(), rfl⟩

theorem total_change (f : Session → Session) : (change f).Total := fun _ => ⟨(), rfl⟩

theorem total_pure (a : α) : (pure a : Request α).Total := fun _ => ⟨a, rfl⟩

theorem Total.bind {x : Request α} {f : α → Request β} (hx : x.Total) (hf : ∀ a, (f a).Total) :
    (x >>= f).Total := by
  intro s
  obtain ⟨a, ha⟩ := hx s
  rw [bind_result, ha]
  exact hf a _

theorem Reads.bind_atomic {x : Request α} {f : α → Request β} (hx : x.Reads)
    (hf : ∀ a, (f a).Atomic) : (x >>= f).Atomic := by
  intro s e he
  rw [bind_result] at he
  rw [bind_snd]
  rw [hx s] at he ⊢
  cases hresult : (x s).1.result with
  | ok a =>
    rw [hresult] at he
    exact hf a s e he
  | error e => rfl

theorem Atomic.bind {x : Request α} {f : α → Request β} (hx : x.Atomic)
    (hf : ∀ s a, (x s).1.result = .ok a → ∃ b, (f a (x s).2).1.result = .ok b) :
    (x >>= f).Atomic := by
  intro s e he
  rw [bind_result] at he
  rw [bind_snd]
  cases hresult : (x s).1.result with
  | ok a =>
    obtain ⟨b, hb⟩ := hf s a hresult
    rw [hresult] at he
    dsimp only at he
    rw [hb] at he
    cases he
  | error e' => exact hx s e' hresult

theorem Atomic.bind_total {x : Request α} {f : α → Request β} (hx : x.Atomic)
    (hf : ∀ a, (f a).Total) : (x >>= f).Atomic := hx.bind fun s a _ => hf a (x s).2

end Request

namespace Session
open Request

theorem atomic_declare (kind name : String) : (declare kind name).Atomic :=
  (reads_requireMode _ _).bind_atomic fun _ => reads_session.bind_atomic fun _ =>
    (reads_ofOutcome _).bind_atomic fun _ => ((total_change _).bind fun _ => total_pure _).atomic

theorem declare_result {kind : String} {k : Kind} (hkind : Kind.ofName? kind = some k) (name : String)
    {s : Session} (hmode : s.mode = .assumption) :
    (∃ v, (declare kind name s).1.result = .ok v) ∧ (declare kind name s).2.mode = .assumption := by
  unfold declare
  rw [bind_result, bind_snd, reads_requireMode _ _ s, requireMode_result, if_pos hmode]
  dsimp only
  rw [bind_result, bind_snd]
  dsimp only [session, Outcome.result_pure]
  rw [bind_result, bind_snd, liftM_apply, Variable.named, hkind]
  exact ⟨⟨_, rfl⟩, hmode⟩

theorem declare_unknown {kind : String} (hkind : Kind.ofName? kind = none) (name : String)
    (s : Session) : ∃ e, (declare kind name s).1.result = .error e := by
  unfold declare
  rw [bind_result, reads_requireMode _ _ s, requireMode_result]
  split_ifs
  · dsimp only
    rw [bind_result]
    dsimp only [session, Outcome.result_pure]
    rw [bind_result, liftM_apply, Variable.named, hkind]
    exact ⟨_, rfl⟩
  · exact ⟨_, rfl⟩

/-- Whether variables can be introduced depends on their kind, so the first one fails if any does. -/
theorem atomic_declareAll (kind : String) (names : List String) : (declareAll kind names).Atomic := by
  intro s e he
  unfold declareAll at he ⊢
  rw [bind_result, reads_requireMode _ _ s, requireMode_result] at he
  rw [bind_snd, reads_requireMode _ _ s, requireMode_result]
  split_ifs at he ⊢ with hmode
  · change (List.mapM.loop (declare kind) names [] s).1.result = _ at he
    change (List.mapM.loop (declare kind) names [] s).2 = _
    cases hkind : Kind.ofName? kind with
    | none =>
      cases names with
      | nil => cases he
      | cons name names =>
        obtain ⟨e', he'⟩ := declare_unknown hkind name s
        rw [List.mapM.loop, bind_snd, he']
        exact atomic_declare kind name s e' he'
    | some k =>
      -- Every declaration succeeds, so there is no failure.
      have hloop : ∀ vs s, s.mode = .assumption →
          ∃ ws, (List.mapM.loop (declare kind) names vs s).1.result = .ok ws := by
        clear he hmode s
        induction names with
        | nil => exact fun vs s _ => ⟨_, rfl⟩
        | cons name names ih =>
          intro vs s hmode
          obtain ⟨⟨v, hv⟩, hmode'⟩ := declare_result hkind name hmode
          rw [List.mapM.loop, bind_result, hv]
          exact ih (v :: vs) _ hmode'
      obtain ⟨ws, hws⟩ := hloop [] s hmode
      rw [hws] at he
      cases he
  · rfl

theorem atomic_assume (t : Term) (name : String) : (assume t name).Atomic :=
  (reads_requireMode _ _).bind_atomic fun _ => (reads_ofOutcome _).bind_atomic fun _ =>
    reads_session.bind_atomic fun _ => (reads_ofOutcome _).bind_atomic fun _ =>
      (total_change _).atomic

theorem atomic_clear : clear.Atomic :=
  (reads_requireMode _ _).bind_atomic fun _ => (total_change _).atomic

theorem atomic_begin (goal : Term) : (begin goal).Atomic := by
  rw [begin_eq]
  exact (reads_ofOutcome _).bind_atomic fun g => (reads_requireMode _ _).bind_atomic fun _ =>
    (reads_ofOutcome _).bind_atomic fun _ => reads_session.bind_atomic fun _ =>
      (reads_ofOutcome _).bind_atomic fun _ =>
        ((total_change _).bind fun _ => (total_say _).bind fun _ => total_say _).atomic

theorem atomic_abandon : abandon.Atomic :=
  (reads_requireMode _ _).bind_atomic fun _ => (total_change _).atomic

theorem atomic_leave : leave.Atomic :=
  (reads_requireMode _ _).bind_atomic fun _ =>
    ((total_change _).bind fun _ => total_say _).atomic

theorem atomic_setAutoFinish (on : Bool) : (setAutoFinish on).Atomic :=
  ((total_say _).bind fun _ => total_change _).atomic

theorem atomic_moveTo (p : Path) : (moveTo p).Atomic := by
  refine (reads_requireMode _ _).bind_atomic fun _ => reads_theTree.bind_atomic fun t =>
    (reads_nodeAt p).bind_atomic fun n => ((total_change _).bind fun _ => ?_).atomic
  split <;> exact total_say _

theorem Moves.atomic {r : Request Unit} (h : Moves r) : r.Atomic := by
  intro s e he
  rcases h s with heq | ⟨p, heq, hok⟩
  · exact heq
  · cases hresult : (moveTo p s).1.result with
    | ok a => cases (hok hresult).symm.trans he
    | error e => rw [heq, atomic_moveTo p s e hresult]

theorem atomic_moveTo_bind (p : Path) {f : ProofTree → Request Unit} (hf : ∀ n, (f n).Total) :
    (moveTo p >>= fun _ => nodeAt p >>= f).Atomic := by
  refine (atomic_moveTo p).bind fun s _ h => ?_
  obtain ⟨n, hn⟩ := nodeAt_of_moveTo h
  rw [bind_result, hn]
  exact hf n _

theorem atomic_undo : undo.Atomic := by
  refine (reads_requireMode _ _).bind_atomic fun _ => reads_here.bind_atomic fun p => ?_
  cases parent? p with
  | none => exact (total_say _).atomic
  | some q => exact atomic_moveTo_bind q fun n => (total_say _).bind fun _ => total_change _

theorem applyAt_eq {s : Session} {t : ProofTree} (htree : s.tree = some t) (p : Path)
    (tactic : Tactic) :
    (applyAt p tactic s).1.result = (t.apply p tactic).result.map Option.isSome ∧
      (applyAt p tactic s).2 = match (t.apply p tactic).result with
        | .ok r => { s with tree := some (r.getD t) }
        | .error _ => s := by
  have hsame : s = { s with tree := some t } := by rw [← htree]
  unfold applyAt
  rw [bind_result, bind_snd, reads_theTree s, theTree_result, htree]
  dsimp only
  rw [bind_result, bind_snd, liftM_apply]
  cases (t.apply p tactic).result with
  | error e => exact ⟨rfl, rfl⟩
  | ok r =>
    cases r with
    | none => exact ⟨rfl, hsame⟩
    | some t' => exact ⟨rfl, rfl⟩

theorem atomic_use (tactic : Tactic) : (use tactic).Atomic := by
  refine (reads_requireMode _ _).bind_atomic fun _ => reads_theTree.bind_atomic fun _ =>
    reads_here.bind_atomic fun p => Atomic.bind ?_ fun s changed h => ?_
  · intro s e he
    cases htree : s.tree with
    | none =>
      unfold applyAt
      rw [bind_snd, reads_theTree s, theTree_result, htree]
    | some t =>
      obtain ⟨hresult, hsnd⟩ := applyAt_eq htree p tactic
      rw [hresult] at he
      rw [hsnd]
      cases happly : (t.apply p tactic).result with
      | error e => rfl
      | ok r =>
        rw [happly] at he
        cases he
  · cases changed with
    | false => exact ⟨(), rfl⟩
    | true =>
      obtain ⟨t, ht⟩ : ∃ t, (applyAt p tactic s).2.tree = some t := by
        rcases applyAt_tree_eq p tactic s with heq | ⟨-, t, -, -, heq⟩
        · cases htree : s.tree with
          | none =>
            unfold applyAt at h
            rw [bind_result, theTree_result, htree] at h
            cases h
          | some t => exact ⟨t, heq.trans htree⟩
        · exact ⟨t, heq⟩
      rw [if_pos rfl, bind_result, status_result ht, reads_status]
      dsimp only
      rw [bind_result, reads_theTree, theTree_result, ht]
      dsimp only
      cases (t.neighbours p).after <|> (t.neighbours p).before <;> exact ⟨(), rfl⟩

/-- To enter a proof fails without a change in tactic mode, and after the change of mode if there is no
proof. -/
theorem enter_error {s : Session} {e : Failure} (h : (enter s).1.result = .error e) :
    s.mode ≠ .assumption ∧ (enter s).2 = s ∨
      s.mode = .assumption ∧ s.tree = none ∧
        (enter s).2 = { s with mode := .tactic, current := none } := by
  unfold enter at h ⊢
  rw [bind_result, reads_requireMode _ _ s, requireMode_result] at h
  rw [bind_snd, reads_requireMode _ _ s, requireMode_result]
  by_cases hmode : s.mode = .assumption
  · rw [if_pos hmode] at h ⊢
    obtain ⟨mode, assumptions, heading, tree, current, autoFinish⟩ := s
    cases tree with
    | none => exact .inr ⟨hmode, rfl, rfl⟩
    | some t => cases h
  · rw [if_neg hmode]
    exact .inl ⟨hmode, rfl⟩

end Session

namespace ProofTree

variable {t t' : ProofTree} {p q : Path} {tactic : Tactic}

/-- **A tactic is applied to several nodes in turn**, as long as it does not fail. -/
def applyEach (tactic : Tactic) : List Path → ProofTree → Except Failure ProofTree
  | [], t => .ok t
  | p :: ps, t =>
    match (t.apply p tactic).result with
    | .ok r => applyEach tactic ps (r.getD t)
    | .error e => .error e

def Handled (t : ProofTree) (q : Path) : Prop := ∃ n, t.get? q = some n ∧ n.tactic.isSome

theorem handled_modify_extend (states : List State) (h : t.Handled q) (p : Path) :
    Handled (Tree.modify (Tree.extend tactic states) p t) q := by
  obtain ⟨n, hn, hsome⟩ := h
  induction q generalizing t p with
  | nil =>
    obtain ⟨s, x, cs⟩ := t
    cases hn
    cases p with
    | nil => exact ⟨_, rfl, rfl⟩
    | cons i p => exact ⟨_, rfl, hsome⟩
  | cons j q ih =>
    obtain ⟨s, x, cs⟩ := t
    cases hc : cs[j]? with
    | none =>
      rw [Tree.get?, hc] at hn
      cases hn
    | some c =>
      rw [Tree.get?_cons hc] at hn
      cases p with
      | nil =>
        -- The new children stand after the old ones.
        have hold : (cs ++ states.map Tree.leaf)[j]? = some c := by
          rw [List.getElem?_append_left (List.getElem?_eq_some_iff.1 hc).1, hc]
        refine ⟨n, ?_, hsome⟩
        rw [Tree.modify, Tree.extend, Tree.get?_cons hold, hn]
      | cons i p =>
        by_cases hij : i = j
        · have hchild : (cs.modify i (Tree.modify (Tree.extend tactic states) p))[j]? =
              some (Tree.modify (Tree.extend tactic states) p c) := by
            simp [hc, hij]
          obtain ⟨m, hm, hmsome⟩ := ih p hn
          refine ⟨m, ?_, hmsome⟩
          rw [Tree.modify, Tree.get?_cons hchild, hm]
        · have hchild : (cs.modify i (Tree.modify (Tree.extend tactic states) p))[j]? = some c := by
            simp [hc, hij]
          refine ⟨n, ?_, hsome⟩
          rw [Tree.modify, Tree.get?_cons hchild, hn]

theorem Handled.applyEach {ps : List Path} (h : t.Handled q)
    (heach : applyEach tactic ps t = .ok t') : t'.Handled q := by
  induction ps generalizing t with
  | nil =>
    cases heach
    exact h
  | cons p ps ih =>
    rw [ProofTree.applyEach] at heach
    cases happly : (t.apply p tactic).result with
    | error e =>
      rw [happly] at heach
      cases heach
    | ok r =>
      rw [happly] at heach
      refine ih ?_ heach
      cases r with
      | none => exact h
      | some t₁ =>
        obtain ⟨n, states, -, -, rfl⟩ := Session.apply_eq_some happly
        exact handled_modify_extend states h p

theorem handled_of_apply (happly : (t.apply p tactic).result = .ok (some t')) : t'.Handled p := by
  obtain ⟨n, states, hn, -, rfl⟩ := Session.apply_eq_some happly
  obtain ⟨s, x, cs⟩ := n
  exact ⟨_, Tree.get?_modify hn, rfl⟩

theorem not_handled_of_mem_openGoals (h : p ∈ t.openGoals) : ¬ t.Handled p := by
  rintro ⟨n, hn, hsome⟩
  rw [(Tree.mem_openGoals.1 h).tactic_eq_none hn] at hsome
  cases hsome

/-- **Applications to open goals leave the tree as it was** exactly when none of them has an effect. -/
theorem applyEach_eq_self_iff {ps : List Path} (hopen : ∀ p ∈ ps, p ∈ t.openGoals)
    (heach : applyEach tactic ps t = .ok t') :
    t' = t ↔ ∀ p ∈ ps, (t.apply p tactic).result = .ok none := by
  induction ps with
  | nil =>
    cases heach
    exact ⟨fun _ => nofun, fun _ => rfl⟩
  | cons p ps ih =>
    rw [applyEach] at heach
    cases happly : (t.apply p tactic).result with
    | error e =>
      rw [happly] at heach
      cases heach
    | ok r =>
      rw [happly] at heach
      cases r with
      | none =>
        rw [ih (fun q hq => hopen q (.tail p hq)) heach, List.forall_mem_cons]
        exact (and_iff_right happly).symm
      | some t₁ =>
        have hne : t' ≠ t := fun heq => not_handled_of_mem_openGoals (hopen p (.head ps))
          (heq ▸ (handled_of_apply happly).applyEach heach)
        refine ⟨fun heq => absurd heq hne, fun hidle => ?_⟩
        have := happly.symm.trans (hidle p (.head ps))
        cases this

end ProofTree

namespace Session
open Request

variable {s : Session} {t t' : ProofTree} {p : Path} {tactic : Tactic}

theorem useOnce_eq (htree : s.tree = some t) (tactic : Tactic) (p : Path) :
    (∀ r, (t.apply p tactic).result = .ok r → (useOnce tactic p s).1.result = .ok () ∧
        (useOnce tactic p s).2 = { s with tree := some (r.getD t) }) ∧
      ∀ e, (t.apply p tactic).result = .error e →
        (useOnce tactic p s).1.result = .error e ∧ (useOnce tactic p s).2 = s := by
  obtain ⟨hresult, hsnd⟩ := applyAt_eq htree p tactic
  unfold useOnce
  constructor
  · intro r hr
    rw [hr] at hresult hsnd
    rw [bind_result, bind_snd, hresult, hsnd]
    exact ⟨status_result rfl, reads_status _⟩
  · intro e he
    rw [he] at hresult hsnd
    rw [bind_result, bind_snd, hresult, hsnd]
    exact ⟨rfl, rfl⟩

theorem forM_useOnce_eq (htree : s.tree = some t) {before after : List Path} {e : Failure}
    (heach : ProofTree.applyEach tactic before t = .ok t')
    (hfails : (t'.apply p tactic).result = .error e) :
    ((before ++ p :: after).forM (useOnce tactic) s).1.result = .error e ∧
      ((before ++ p :: after).forM (useOnce tactic) s).2 = { s with tree := some t' } := by
  induction before generalizing s t with
  | nil =>
    cases heach
    obtain ⟨hresult, hsnd⟩ := (useOnce_eq htree tactic p).2 e hfails
    change ((useOnce tactic p >>= fun _ => after.forM (useOnce tactic)) s).1.result = _ ∧
      ((useOnce tactic p >>= fun _ => after.forM (useOnce tactic)) s).2 = _
    rw [bind_result, bind_snd, hresult, hsnd, ← htree]
    exact ⟨rfl, rfl⟩
  | cons q before ih =>
    rw [ProofTree.applyEach] at heach
    cases happly : (t.apply q tactic).result with
    | error e =>
      rw [happly] at heach
      cases heach
    | ok r =>
      rw [happly] at heach
      obtain ⟨hresult, hsnd⟩ := (useOnce_eq htree tactic q).1 r happly
      change ((useOnce tactic q >>= fun _ => (before ++ p :: after).forM (useOnce tactic)) s).1.result
        = _ ∧ ((useOnce tactic q >>= fun _ => (before ++ p :: after).forM (useOnce tactic)) s).2 = _
      rw [bind_result, bind_snd, hresult, hsnd]
      exact ih rfl heach

theorem exists_of_forM_useOnce (htree : s.tree = some t) {ps : List Path} {e : Failure}
    (h : (ps.forM (useOnce tactic) s).1.result = .error e) :
    ∃ before p after t', ps = before ++ p :: after ∧
      ProofTree.applyEach tactic before t = .ok t' ∧ (t'.apply p tactic).result = .error e := by
  induction ps generalizing s t with
  | nil => cases h
  | cons q ps ih =>
    change ((useOnce tactic q >>= fun _ => ps.forM (useOnce tactic)) s).1.result = _ at h
    rw [bind_result] at h
    cases happly : (t.apply q tactic).result with
    | error e' =>
      rw [((useOnce_eq htree tactic q).2 e' happly).1] at h
      cases h
      exact ⟨[], q, ps, t, rfl, rfl, happly⟩
    | ok r =>
      obtain ⟨hresult, hsnd⟩ := (useOnce_eq htree tactic q).1 r happly
      rw [hresult, hsnd] at h
      obtain ⟨before, p, after, t', rfl, heach, hfails⟩ := ih rfl h
      refine ⟨q :: before, p, after, t', rfl, ?_, hfails⟩
      rw [ProofTree.applyEach, happly]
      exact heach

theorem useEverywhere_eq (htree : s.tree = some t) (tactic : Tactic) :
    useEverywhere tactic s = t.openGoals.forM (useOnce tactic) s := by
  obtain ⟨mode, assumptions, heading, tree, current, autoFinish⟩ := s
  subst htree
  rfl

/-- **What a failure leaves when a tactic is used everywhere**: the tactic has been applied to the goals
before the one at which it fails. -/
theorem useEverywhere_error (htree : s.tree = some t) {e : Failure}
    (h : (useEverywhere tactic s).1.result = .error e) :
    ∃ before p after t', t.openGoals = before ++ p :: after ∧
      ProofTree.applyEach tactic before t = .ok t' ∧ (t'.apply p tactic).result = .error e ∧
      (useEverywhere tactic s).2 = { s with tree := some t' } := by
  rw [useEverywhere_eq htree] at h ⊢
  obtain ⟨before, p, after, t', hgoals, heach, hfails⟩ := exists_of_forM_useOnce htree h
  refine ⟨before, p, after, t', hgoals, heach, hfails, ?_⟩
  rw [hgoals]
  exact (forM_useOnce_eq htree heach hfails).2

/-- **What can be asked of a session**, in either mode.  Something that is no tactic can be handed over
in place of one. -/
inductive Call where
  | declare (kind name : String)
  | declareAll (kind : String) (names : List String)
  | assume (t : Term) (name : String)
  | clear
  | begin (goal : Term)
  | abandon
  | command (c : Command)
  | useText (text : String)
  | useTextEverywhere

/-- The request that a call makes; what it returns is left out. -/
def Call.request : Call → Request Unit
  | declare kind name => Session.declare kind name >>= fun _ => pure ()
  | declareAll kind names => Session.declareAll kind names >>= fun _ => pure ()
  | assume t name => Session.assume t name
  | clear => Session.clear
  | begin goal => Session.begin goal
  | abandon => Session.abandon
  | command c => c.request
  | useText text => Session.useText text
  | useTextEverywhere => Session.useTextEverywhere

/-- **The call changes the session before it fails**: the proof is entered although there is none, or
the tactic has an effect at a goal before the one at which it fails. -/
inductive Call.ActsEarly : Call → Session → Prop
  | enter {s : Session} (mode : s.mode = .assumption) (tree : s.tree = none) :
      ActsEarly (.command .enter) s
  | useEverywhere {s : Session} {tactic : Tactic} {t t' : ProofTree} {before after : List Path}
      {p q : Path} {e : Failure} (tree : s.tree = some t) (goals : t.openGoals = before ++ p :: after)
      (each : ProofTree.applyEach tactic before t = .ok t')
      (fails : (t'.apply p tactic).result = .error e) (mem : q ∈ before)
      (effect : (t.apply q tactic).result ≠ .ok none) :
      ActsEarly (.command (.useEverywhere tactic)) s

/-- **All other calls are atomic.** -/
theorem Call.atomic (c : Call) (henter : c ≠ .command .enter)
    (heverywhere : ∀ tactic, c ≠ .command (.useEverywhere tactic)) : c.request.Atomic := by
  cases c with
  | declare kind name => exact (atomic_declare kind name).bind_total fun _ => total_pure _
  | declareAll kind names => exact (atomic_declareAll kind names).bind_total fun _ => total_pure _
  | assume t name => exact atomic_assume t name
  | clear => exact atomic_clear
  | begin goal => exact atomic_begin goal
  | abandon => exact atomic_abandon
  | useText text => exact (reads_fail _).atomic
  | useTextEverywhere => exact (reads_theTree.bind fun _ => reads_ofOutcome _).atomic
  | command c =>
    cases c with
    | use tactic => exact atomic_use tactic
    | useLemma name l => exact atomic_use _
    | useEverywhere tactic => exact absurd rfl (heverywhere tactic)
    | undo => exact atomic_undo
    | back => exact moves_back.atomic
    | forward case => exact (moves_forward case).atomic
    | visit p => exact (moves_visit p).atomic
    | nextGoal => exact moves_nextGoal.atomic
    | previousGoal => exact moves_previousGoal.atomic
    | firstGoal => exact moves_firstGoal.atomic
    | lastGoal => exact moves_lastGoal.atomic
    | leave => exact atomic_leave
    | enter => exact absurd rfl henter
    | setAutoFinish on => exact atomic_setAutoFinish on

/-- A tactic used everywhere that fails leaves the session as it was, unless it had an effect before. -/
theorem useEverywhere_unchanged_iff {e : Failure}
    (h : (useEverywhere tactic s).1.result = .error e) :
    (useEverywhere tactic s).2 = s ↔ ¬ Call.ActsEarly (.command (.useEverywhere tactic)) s := by
  cases htree : s.tree with
  | none =>
    unfold useEverywhere
    rw [bind_snd, reads_theTree s, theTree_result, htree]
    refine ⟨fun _ hacts => ?_, fun _ => rfl⟩
    cases hacts with
    | useEverywhere htree' =>
      rw [htree] at htree'
      cases htree'
  | some t =>
    -- The failing goal is the same in every description of the failure.
    have hsame : ∀ {before after p t' e'}, t.openGoals = before ++ p :: after →
        ProofTree.applyEach tactic before t = .ok t' → (t'.apply p tactic).result = .error e' →
        ((useEverywhere tactic s).2 = s ↔ ∀ q ∈ before, (t.apply q tactic).result = .ok none) := by
      intro before after p t' e' hgoals heach hfails
      have hopen : ∀ q ∈ before, q ∈ t.openGoals := fun q hq => by
        rw [hgoals]
        exact List.mem_append_left _ hq
      rw [← ProofTree.applyEach_eq_self_iff hopen heach, useEverywhere_eq htree, hgoals,
        (forM_useOnce_eq htree heach hfails).2]
      constructor
      · intro heq
        have := congrArg Session.tree heq
        exact Option.some.inj (this.trans htree)
      · rintro rfl
        rw [← htree]
    constructor
    · intro heq hacts
      cases hacts with
      | useEverywhere htree' hgoals heach hfails hmem heffect =>
        cases htree'.symm.trans htree
        exact heffect ((hsame hgoals heach hfails).1 heq _ hmem)
    · intro hnot
      obtain ⟨before, p, after, t', hgoals, heach, hfails, -⟩ := useEverywhere_error htree h
      refine (hsame hgoals heach hfails).2 fun q hq => ?_
      by_contra heffect
      exact hnot (.useEverywhere htree hgoals heach hfails hq heffect)

/-- **A call that fails leaves the session as it was**, whatever it is asked and in whatever session,
unless it acts before it fails.  If there is no proof to enter, the session is left in tactic mode; if a
tactic that is used everywhere fails at a goal, the goals before it keep what was done there, and nothing
else is changed. -/
theorem failed_call_unchanged_iff (s : Session) (c : Call) {e : Failure}
    (h : (c.request s).1.result = .error e) :
    ((c.request s).2 = s ↔ ¬ c.ActsEarly s) ∧
      (c.ActsEarly s →
        c = .command .enter ∧ s.mode = .assumption ∧ s.tree = none ∧
          (c.request s).2 = { s with mode := .tactic, current := none } ∨
        ∃ tactic t before p after t', c = .command (.useEverywhere tactic) ∧ s.tree = some t ∧
          t.openGoals = before ++ p :: after ∧ ProofTree.applyEach tactic before t = .ok t' ∧
          (t'.apply p tactic).result = .error e ∧ (c.request s).2 = { s with tree := some t' }) := by
  by_cases henter : c = .command .enter
  · subst henter
    rcases enter_error h with ⟨hmode, heq⟩ | ⟨hmode, htree, heq⟩
    · have hnot : ¬ Call.ActsEarly (.command .enter) s := by
        rintro ⟨hassumption⟩
        exact hmode hassumption
      exact ⟨⟨fun _ => hnot, fun _ => heq⟩, fun hacts => absurd hacts hnot⟩
    · refine ⟨⟨fun hsame => ?_, fun hnot => absurd (.enter hmode htree) hnot⟩,
        fun _ => .inl ⟨rfl, hmode, htree, heq⟩⟩
      -- The mode has changed.
      have hchanged := congrArg Session.mode (heq.symm.trans hsame)
      rw [hmode] at hchanged
      cases hchanged
  · by_cases heverywhere : ∃ tactic, c = .command (.useEverywhere tactic)
    · obtain ⟨tactic, rfl⟩ := heverywhere
      refine ⟨useEverywhere_unchanged_iff h, fun hacts => ?_⟩
      cases hacts with
      | useEverywhere htree =>
        obtain ⟨before, p, after, t', hgoals, heach, hfails, heq⟩ := useEverywhere_error htree h
        exact .inr ⟨tactic, _, before, p, after, t', rfl, htree, hgoals, heach, hfails, heq⟩
    · have hnot : ¬ c.ActsEarly s := by
        rintro ⟨⟩
        · exact henter rfl
        · exact heverywhere ⟨_, rfl⟩
      have heq := c.atomic henter (fun tactic hc => heverywhere ⟨tactic, hc⟩) s e h
      exact ⟨⟨fun _ => hnot, fun _ => heq⟩, fun hacts => absurd hacts hnot⟩

/-- A session with two goals, of which only the first one is a disjunction. -/
def mixedGoals : Session :=
  let p := Term.var ⟨"P", .prop⟩
  let q := Term.var ⟨"Q", .prop⟩
  let r := Term.var ⟨"R", .prop⟩
  run [.use .splitGoal] (begin (.app .and [.app .or [p, q], r])
    (declareAll "bool" ["P", "Q", "R"] start).2).2

/-- The choice of a disjunct fails at the second goal.  Used there it leaves the session as it was; used
everywhere it has replaced the first goal.  A proof that was never started cannot be entered, but the
session is in tactic mode afterwards. -/
theorem mixedGoals_failures :
    (∃ e, (use (.option 1) (run [.nextGoal] mixedGoals)).1.result = .error e ∧
      (use (.option 1) (run [.nextGoal] mixedGoals)).2 = run [.nextGoal] mixedGoals) ∧
    (∃ e, (useEverywhere (.option 1) mixedGoals).1.result = .error e ∧
      (useEverywhere (.option 1) mixedGoals).2 ≠ mixedGoals) ∧
    ∃ e, (enter start).1.result = .error e ∧ (enter start).2 ≠ start := by
  refine ⟨⟨_, rfl, ?_⟩, ⟨_, rfl, ?_⟩, ⟨_, rfl, ?_⟩⟩
  · refine (failed_call_unchanged_iff _ (.command (.use (.option 1))) rfl).1.2 ?_
    rintro ⟨⟩
  · intro heq
    refine (failed_call_unchanged_iff _ (.command (.useEverywhere (.option 1))) rfl).1.1 heq ?_
    exact @Call.ActsEarly.useEverywhere _ _ _ _ [[0]] [] [1] [0] _ rfl rfl rfl rfl (.head _)
      (by rintro ⟨⟩)
  · intro heq
    exact (failed_call_unchanged_iff start (.command .enter) rfl).1.1 heq (.enter rfl rfl)

end Session
end Majorant
