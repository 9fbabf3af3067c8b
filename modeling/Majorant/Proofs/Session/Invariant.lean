import Majorant.Proofs.Context
import Majorant.Proofs.Session.Atomic
import Majorant.Proofs.Session.Replay

/-!
# Invariants of sessions

Terms come into a session when a variable is declared, a statement is assumed, a proof is started or a tactic
is applied.  A property that passes these four gates holds in every session that can be reached.
-/

namespace Majorant
open Proof

namespace Request

variable {α β : Type}

def KeepsAssumptions (r : Request α) : Prop := ∀ s, (r s).2.assumptions = s.assumptions

theorem Reads.keepsAssumptions {r : Request α} (h : r.Reads) : r.KeepsAssumptions :=
  fun s => by rw [h s]

theorem KeepsAssumptions.bind {x : Request α} {f : α → Request β} (hx : x.KeepsAssumptions)
    (hf : ∀ a, (f a).KeepsAssumptions) : (x >>= f).KeepsAssumptions := by
  intro s
  rw [bind_snd]
  cases (x s).1.result with
  | ok a => exact (hf a _).trans (hx s)
  | error e => exact hx s

theorem keepsAssumptions_change {f : Session → Session} (h : ∀ s, (f s).assumptions = s.assumptions) :
    (change f).KeepsAssumptions := h

theorem keepsAssumptions_change_bind {f : Session → Session} {g : Unit → Request β}
    (h : ∀ s, (f s).assumptions = s.assumptions) (hg : ∀ u, (g u).KeepsAssumptions) :
    (change f >>= g).KeepsAssumptions := (keepsAssumptions_change h).bind hg

theorem KeepsAssumptions.forM {f : α → Request Unit} (hf : ∀ a, (f a).KeepsAssumptions)
    (as : List α) : (as.forM f).KeepsAssumptions := by
  induction as with
  | nil => exact (reads_pure _).keepsAssumptions
  | cons a as ih => exact (hf a).bind fun _ => ih

end Request

namespace Session
open Request

theorem keepsAssumptions_moveTo (p : Path) : (moveTo p).KeepsAssumptions := by
  refine (reads_requireMode _ _).keepsAssumptions.bind fun _ =>
    reads_theTree.keepsAssumptions.bind fun t => (reads_nodeAt p).keepsAssumptions.bind fun n =>
      keepsAssumptions_change_bind (fun _ => rfl) fun _ => ?_
  split <;> exact (reads_say _).keepsAssumptions

theorem Moves.keepsAssumptions {r : Request Unit} (h : Moves r) : r.KeepsAssumptions := by
  intro s
  rcases h s with heq | ⟨p, heq, -⟩ <;> rw [heq]
  exact keepsAssumptions_moveTo p s

theorem keepsAssumptions_undo : undo.KeepsAssumptions := by
  refine (reads_requireMode _ _).keepsAssumptions.bind fun _ =>
    reads_here.keepsAssumptions.bind fun p => ?_
  cases parent? p with
  | none => exact (reads_say _).keepsAssumptions
  | some q =>
    exact (keepsAssumptions_moveTo q).bind fun _ => (reads_nodeAt q).keepsAssumptions.bind fun n =>
      (reads_say _).keepsAssumptions.bind fun _ => keepsAssumptions_change fun _ => rfl

theorem keepsAssumptions_applyAt (p : Path) (tactic : Tactic) :
    (applyAt p tactic).KeepsAssumptions := by
  refine reads_theTree.keepsAssumptions.bind fun t => (reads_ofOutcome _).keepsAssumptions.bind fun r => ?_
  cases r with
  | none => exact (reads_pure _).keepsAssumptions
  | some t' =>
    exact keepsAssumptions_change_bind (fun _ => rfl) fun _ => (reads_pure _).keepsAssumptions

theorem keepsAssumptions_use (tactic : Tactic) : (use tactic).KeepsAssumptions := by
  refine (reads_requireMode _ _).keepsAssumptions.bind fun _ =>
    reads_theTree.keepsAssumptions.bind fun _ => reads_here.keepsAssumptions.bind fun p =>
      (keepsAssumptions_applyAt p tactic).bind fun changed => ?_
  cases changed with
  | false => exact (reads_pure _).keepsAssumptions
  | true =>
    refine reads_status.keepsAssumptions.bind fun _ => reads_theTree.keepsAssumptions.bind fun t => ?_
    dsimp only
    split
    · exact keepsAssumptions_change fun _ => rfl
    · refine keepsAssumptions_change fun s => ?_
      split <;> rfl

/-- **Commands leave the assumptions as they are.** -/
theorem keepsAssumptions_command (c : Command) : c.request.KeepsAssumptions := by
  have hmode := fun m why => (reads_requireMode m why).keepsAssumptions
  have htree := reads_theTree.keepsAssumptions
  cases c with
  | use tactic => exact keepsAssumptions_use tactic
  | useLemma name l => exact keepsAssumptions_use _
  | useEverywhere tactic =>
    exact htree.bind fun _ => .forM (fun p => (keepsAssumptions_applyAt p tactic).bind fun _ =>
      reads_status.keepsAssumptions) _
  | undo => exact keepsAssumptions_undo
  | back => exact moves_back.keepsAssumptions
  | forward case => exact (moves_forward case).keepsAssumptions
  | visit p => exact (moves_visit p).keepsAssumptions
  | nextGoal => exact moves_nextGoal.keepsAssumptions
  | previousGoal => exact moves_previousGoal.keepsAssumptions
  | firstGoal => exact moves_firstGoal.keepsAssumptions
  | lastGoal => exact moves_lastGoal.keepsAssumptions
  | leave =>
    exact (hmode _ _).bind fun _ => keepsAssumptions_change_bind (fun _ => rfl) fun _ =>
      (reads_say _).keepsAssumptions
  | enter =>
    exact (hmode _ _).bind fun _ => keepsAssumptions_change_bind (fun _ => rfl) fun _ =>
      ((reads_say _).bind fun _ => reads_currentState.bind fun _ => reads_say _).keepsAssumptions
  | setAutoFinish on =>
    exact (reads_say _).keepsAssumptions.bind fun _ => keepsAssumptions_change fun _ => rfl

theorem declare_assumptions (kind name : String) (s : Session) :
    (declare kind name s).2.assumptions = s.assumptions ∨
      ∃ v : Variable, v.name = s.assumptions.fresh name ∧
        (declare kind name s).2.assumptions = s.assumptions ++ [(v.name, Proof.declare v)] := by
  cases hresult : (declare kind name s).1.result with
  | error e => exact .inl (congrArg Session.assumptions (atomic_declare kind name s e hresult))
  | ok t =>
    refine .inr ?_
    unfold declare at hresult ⊢
    obtain ⟨-, -, hresult, hsnd⟩ := exists_of_bind_result hresult
    rw [reads_requireMode] at hresult hsnd
    rw [hsnd]
    obtain ⟨s', hs', hresult, hsnd⟩ := exists_of_bind_result hresult
    cases hs'
    rw [hsnd]
    obtain ⟨v, hv, -, hsnd⟩ := exists_of_bind_result hresult
    rw [hsnd]
    have hname : v.name = s.assumptions.fresh name := by
      change (Variable.named kind _).result = .ok v at hv
      unfold Variable.named at hv
      split at hv
      · cases hv
        rfl
      · cases hv
    refine ⟨v, hname, ?_⟩
    rw [hname]
    exact Context.put_of_not_contains (Context.not_contains_fresh s.assumptions name)

theorem assume_assumptions (t : Term) (name : String) (s : Session) :
    (assume t name s).2.assumptions = s.assumptions ∨
      t.isStatement = true ∧ t.isDefined s.assumptions.declaredVariables = true ∧
        (assume t name s).2.assumptions = s.assumptions ++ [(s.assumptions.fresh name, t)] := by
  cases hresult : (assume t name s).1.result with
  | error e => exact .inl (congrArg Session.assumptions (atomic_assume t name s e hresult))
  | ok u =>
    refine .inr ?_
    unfold assume at hresult ⊢
    obtain ⟨-, -, hresult, hsnd⟩ := exists_of_bind_result hresult
    rw [reads_requireMode] at hresult hsnd
    rw [hsnd]
    obtain ⟨u, hstatement, hresult, hsnd⟩ := exists_of_bind_result hresult
    rw [hsnd]
    obtain ⟨s', hs', hresult, hsnd⟩ := exists_of_bind_result hresult
    cases hs'
    rw [hsnd]
    obtain ⟨u', hdefined, -, hsnd⟩ := exists_of_bind_result hresult
    rw [hsnd]
    exact ⟨Outcome.yields_require _ _ u hstatement, Outcome.yields_require _ _ u' hdefined,
      Context.put_of_not_contains (Context.not_contains_fresh s.assumptions name)⟩

theorem clear_assumptions (s : Session) :
    (clear s).2.assumptions = s.assumptions ∨ (clear s).2.assumptions = [] := by
  unfold clear
  rw [bind_snd, reads_requireMode, requireMode_result]
  split_ifs
  · exact .inr rfl
  · exact .inl rfl

theorem begin_cases (goal : Term) (s : Session) :
    (begin goal s).2 = s ∨ ∃ g, (statementOf goal).result = .ok g ∧ g.isStatement = true ∧
      g.isDefined s.assumptions.declaredVariables = true ∧ (begin goal s).2.assumptions = [] ∧
      (begin goal s).2.tree = some (Tree.leaf ⟨g, s.assumptions⟩) := by
  cases hresult : (begin goal s).1.result with
  | error e => exact .inl (atomic_begin goal s e hresult)
  | ok u =>
    refine .inr ?_
    rw [begin_eq] at hresult ⊢
    obtain ⟨g, hg, hresult, hsnd⟩ := exists_of_bind_result hresult
    rw [reads_ofOutcome] at hresult hsnd
    rw [hsnd]
    refine ⟨g, hg, ?_⟩
    unfold beginWith at hresult ⊢
    obtain ⟨-, -, hresult, hsnd⟩ := exists_of_bind_result hresult
    rw [reads_requireMode] at hresult hsnd
    rw [hsnd]
    obtain ⟨u, hstatement, hresult, hsnd⟩ := exists_of_bind_result hresult
    rw [hsnd]
    obtain ⟨s', hs', hresult, hsnd⟩ := exists_of_bind_result hresult
    cases hs'
    rw [hsnd]
    obtain ⟨u', hdefined, -, hsnd⟩ := exists_of_bind_result hresult
    rw [hsnd]
    exact ⟨Outcome.yields_require _ _ u hstatement, Outcome.yields_require _ _ u' hdefined, rfl, rfl⟩

theorem abandon_cases (s : Session) :
    (abandon s).2 = s ∨ (abandon s).2.assumptions = [] ∧ (abandon s).2.tree = none := by
  unfold abandon
  rw [bind_snd, reads_requireMode, requireMode_result]
  split_ifs
  · exact .inr ⟨rfl, rfl⟩
  · exact .inl rfl

/-- **The assumptions have a property, and so have all states of the proof tree.** -/
structure Throughout (P : Context → Prop) (Q : State → Prop) (s : Session) : Prop where
  assumptions : P s.assumptions
  states : ∀ t ∈ s.tree, t.Each fun u _ _ => Q u

variable {P : Context → Prop} {Q : State → Prop} {s s' : Session} {tactic : Tactic}

theorem Throughout.of_eq (h : s.Throughout P Q) (hassumptions : s'.assumptions = s.assumptions)
    (htree : s'.tree = s.tree) : s'.Throughout P Q where
  assumptions := hassumptions ▸ h.assumptions
  states := htree ▸ h.states

theorem Throughout.state {t n : ProofTree} {p : Path} (h : s.Throughout P Q) (ht : s.tree = some t)
    (hn : t.get? p = some n) : Q n.state := ((h.states t ht).get? hn).here

/-- The property passes on from a state to the states that the tactic leaves. -/
def PassesOn (Q : State → Prop) (tactic : Tactic) (u : State) : Prop :=
  Q u → (tactic.run u).Yields fun states => ∀ u' ∈ states, Q u'

theorem Throughout.applyAt {p : Path} (h : s.Throughout P Q)
    (hpasses : ∀ t n, s.tree = some t → t.get? p = some n → PassesOn Q tactic n.state) :
    (applyAt p tactic s).2.Throughout P Q := by
  refine ⟨keepsAssumptions_applyAt p tactic s ▸ h.assumptions, ?_⟩
  rcases applyAt_tree p tactic s with heq | ⟨t, n, states, ht, hn, hrun, heq⟩
  · rw [heq]
    exact h.states
  · have hnew := hpasses t n ht hn (h.state ht hn) states hrun
    rw [heq]
    -- The node keeps its state and its children; the states that the tactic leaves are new leaves.
    rintro _ ⟨⟩
    refine (h.states t ht).modify (Tree.state_extend tactic states) p fun m hm hold => ?_
    obtain ⟨here, children⟩ := hold
    refine .node here fun c hc => ?_
    rcases List.mem_append.1 hc with hc | hc
    · exact children c hc
    · obtain ⟨u, hu, rfl⟩ := List.mem_map.1 hc
      exact .node (hnew u hu) nofun

theorem Throughout.use (h : s.Throughout P Q) (hpasses : ∀ u, UsesAt s u → PassesOn Q tactic u) :
    (use tactic s).2.Throughout P Q := by
  refine ⟨keepsAssumptions_use tactic s ▸ h.assumptions, ?_⟩
  rcases use_tree tactic s with heq | ⟨p, hmode, hcurrent, heq⟩
  · rw [heq]
    exact h.states
  · rw [heq]
    exact (h.applyAt fun t n ht hn => hpasses n.state ⟨hmode, t, p, n, ht, hcurrent, hn, rfl⟩).states

theorem Throughout.forM (ps : List Path) (h : s.Throughout P Q)
    (hpasses : ∀ u, UsesAlong tactic ps s u → PassesOn Q tactic u) :
    (ps.forM (useOnce tactic) s).2.Throughout P Q := by
  induction ps generalizing s with
  | nil => exact h
  | cons p ps ih =>
    have happlied := h.applyAt (p := p) fun t n ht hn => hpasses n.state (.here ht hn)
    have hkeeps : (useOnce tactic p).KeepsAssumptions :=
      (keepsAssumptions_applyAt p tactic).bind fun _ => reads_status.keepsAssumptions
    have htree : (useOnce tactic p s).2.tree = (Session.applyAt p tactic s).2.tree :=
      bind_tree _ (fun _ => reads_status.keepsTree) s
    have hfirst : (useOnce tactic p s).2.Throughout P Q :=
      ⟨(hkeeps s).symm ▸ h.assumptions, htree.symm ▸ happlied.states⟩
    change ((useOnce tactic p >>= fun _ => ps.forM (useOnce tactic)) s).2.Throughout P Q
    rw [bind_snd]
    cases hresult : (useOnce tactic p s).1.result with
    | error e => exact hfirst
    | ok a => exact ih hfirst fun u hu => hpasses u (.later hresult hu)

/-- **What one command keeps**: a property that passes on wherever the command applies a tactic. -/
theorem Throughout.command (c : Command) (h : s.Throughout P Q)
    (hpasses : ∀ tactic u, Applies c s tactic u → PassesOn Q tactic u) :
    (c.request s).2.Throughout P Q := by
  have hkept := fun htree => h.of_eq (keepsAssumptions_command c s) htree
  cases c with
  | use tactic => exact h.use fun u hu => hpasses tactic u (.use hu)
  | useLemma name l => exact h.use fun u hu => hpasses _ u (.useLemma hu)
  | useEverywhere tactic =>
    cases htree : s.tree with
    | none =>
      refine hkept ?_
      change (useEverywhere tactic s).2.tree = _
      unfold useEverywhere
      rw [bind_snd, reads_theTree s, theTree_result, htree]
      exact htree
    | some t =>
      change (useEverywhere tactic s).2.Throughout P Q
      rw [useEverywhere_eq htree]
      exact h.forM t.openGoals fun u hu => hpasses tactic u (.useEverywhere htree hu)
  | undo =>
    refine ⟨keepsAssumptions_undo s ▸ h.assumptions, ?_⟩
    rintro t' ht'
    rcases clears_undo s with heq | ⟨q, heq⟩
    · exact h.states t' (heq ▸ ht')
    · obtain ⟨t, ht, rfl⟩ := Option.map_eq_some_iff.1 (heq ▸ ht')
      refine (h.states t ht).modify Tree.state_clear q ?_
      rintro ⟨u, x, cs⟩ - hn
      exact .node hn.here nofun
  | back => exact hkept (moves_back.keepsTree s)
  | forward case => exact hkept ((moves_forward case).keepsTree s)
  | visit p => exact hkept ((moves_visit p).keepsTree s)
  | nextGoal => exact hkept (moves_nextGoal.keepsTree s)
  | previousGoal => exact hkept (moves_previousGoal.keepsTree s)
  | firstGoal => exact hkept (moves_firstGoal.keepsTree s)
  | lastGoal => exact hkept (moves_lastGoal.keepsTree s)
  | leave => exact hkept (keepsTree_leave s)
  | enter => exact hkept (keepsTree_enter s)
  | setAutoFinish on => exact hkept (keepsTree_setAutoFinish on s)

/-- **The sessions that are reached** from the start by calls of some sort. -/
inductive ReachedBy (allowed : Call → Session → Prop) : Session → Prop
  | start : ReachedBy allowed start
  | call {s : Session} {c : Call} (before : ReachedBy allowed s) (call : allowed c s) :
      ReachedBy allowed (c.request s).2

/-- **The properties pass the gates** through which terms come into a session. -/
structure Inductive (allowed : Call → Session → Prop) (P : Context → Prop) (Q : State → Prop) :
    Prop where
  nil : P []
  declare : ∀ {c : Context} {v : Variable} (name : String), P c → v.name = c.fresh name →
    P (c ++ [(v.name, Proof.declare v)])
  assume : ∀ {s : Session} {t : Term} {name : String}, allowed (.assume t name) s → P s.assumptions →
    t.isStatement = true → t.isDefined s.assumptions.declaredVariables = true →
      P (s.assumptions ++ [(s.assumptions.fresh name, t)])
  begin : ∀ {s : Session} {goal g : Term}, allowed (.begin goal) s → P s.assumptions →
    (statementOf goal).result = .ok g → g.isStatement = true →
      g.isDefined s.assumptions.declaredVariables = true → Q ⟨g, s.assumptions⟩
  apply : ∀ {s : Session} {c : Command} {tactic : Tactic} {u : State}, allowed (.command c) s →
    Applies c s tactic u → PassesOn Q tactic u

variable {allowed : Call → Session → Prop}

theorem Inductive.throughout_declare (h : Inductive allowed P Q) (hs : s.Throughout P Q)
    (kind name : String) : (Session.declare kind name s).2.Throughout P Q := by
  refine ⟨?_, (keepsTree_declare kind name s).symm ▸ hs.states⟩
  rcases declare_assumptions kind name s with heq | ⟨v, hv, heq⟩
  · rw [heq]
    exact hs.assumptions
  · rw [heq]
    exact h.declare name hs.assumptions hv

theorem Inductive.call (h : Inductive allowed P Q) {c : Call} (hc : allowed c s)
    (hs : s.Throughout P Q) : (c.request s).2.Throughout P Q := by
  cases c with
  | declare kind name =>
    change ((Session.declare kind name >>= fun _ => pure ()) s).2.Throughout P Q
    rw [bind_snd]
    split <;> exact h.throughout_declare hs kind name
  | declareAll kind names =>
    -- The loop goes on from the session that the last declaration has left.
    have hloop : ∀ vs s, s.Throughout P Q →
        (List.mapM.loop (Session.declare kind) names vs s).2.Throughout P Q := by
      clear hs hc
      induction names with
      | nil => exact fun vs s hs => hs
      | cons name names ih =>
        intro vs s hs
        rw [List.mapM.loop, bind_snd]
        split
        · exact ih _ _ (h.throughout_declare hs kind name)
        · exact h.throughout_declare hs kind name
    have hall : (Session.declareAll kind names s).2.Throughout P Q := by
      unfold Session.declareAll
      rw [bind_snd, reads_requireMode]
      split
      · exact hloop [] s hs
      · exact hs
    change ((Session.declareAll kind names >>= fun _ => pure ()) s).2.Throughout P Q
    rw [bind_snd]
    split <;> exact hall
  | assume t name =>
    refine ⟨?_, (keepsTree_assume t name s).symm ▸ hs.states⟩
    rcases assume_assumptions t name s with heq | ⟨hstatement, hdefined, heq⟩
    · exact heq.symm ▸ hs.assumptions
    · exact heq.symm ▸ h.assume hc hs.assumptions hstatement hdefined
  | clear =>
    refine ⟨?_, (keepsTree_clear s).symm ▸ hs.states⟩
    rcases clear_assumptions s with heq | heq
    · exact heq.symm ▸ hs.assumptions
    · exact heq.symm ▸ h.nil
  | begin goal =>
    change (Session.begin goal s).2.Throughout P Q
    rcases begin_cases goal s with heq | ⟨g, hg, hstatement, hdefined, hassumptions, htree⟩
    · rwa [heq]
    · refine ⟨hassumptions.symm ▸ h.nil, ?_⟩
      rw [htree]
      rintro _ ⟨⟩
      exact .node (h.begin hc hs.assumptions hg hstatement hdefined) nofun
  | abandon =>
    change (Session.abandon s).2.Throughout P Q
    rcases abandon_cases s with heq | ⟨hassumptions, htree⟩
    · rwa [heq]
    · refine ⟨hassumptions.symm ▸ h.nil, ?_⟩
      rw [htree]
      exact nofun
  | command c => exact hs.command c fun tactic u hu => h.apply hc hu
  | useText text => exact hs
  | useTextEverywhere =>
    have hreads : Session.useTextEverywhere.Reads := reads_theTree.bind fun _ => reads_ofOutcome _
    change (Session.useTextEverywhere s).2.Throughout P Q
    rwa [hreads s]

/-- **What holds in every session that is reached.** -/
theorem Inductive.throughout (h : Inductive allowed P Q) (hs : ReachedBy allowed s) :
    s.Throughout P Q := by
  induction hs with
  | start => exact ⟨h.nil, nofun⟩
  | call _ hc ih => exact h.call hc ih

end Session
end Majorant
