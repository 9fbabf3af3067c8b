import Majorant.Proofs.Session.Frame
import Majorant.Proofs.Session.Justification

/-!
# Sessions compose sound steps to sound proofs

If every application of a tactic in a session is locally sound and no goal is open in the end, the goal
follows from the assumptions that were there when the proof was started.
-/

namespace Majorant
open Proof

variable {W : Type*}

/-- The goal of a state holds wherever its hypotheses do. -/
def Proof.State.Valid (Holds : W → Term → Prop) (s : State) : Prop :=
  ∀ w, (∀ h ∈ s.context.hypotheses, Holds w h) → Holds w s.goal

/-- The application of a tactic to a state is sound: if all states it leaves are valid, so is the
state. -/
def Tactic.LocallySound (Holds : W → Term → Prop) (tactic : Tactic) (s : State) : Prop :=
  ∀ states, (tactic.run s).result = .ok states → (∀ s' ∈ states, s'.Valid Holds) → s.Valid Holds

namespace Session
open Request

/-- What can be asked of a session while a proof is under way. -/
inductive Command where
  | use (tactic : Tactic)
  | useLemma (name : String) (l : Lemma)
  | useEverywhere (tactic : Tactic)
  | undo
  | back
  | forward (case : Int)
  | visit (p : Path)
  | nextGoal
  | previousGoal
  | firstGoal
  | lastGoal
  | leave
  | enter
  | setAutoFinish (on : Bool)

def Command.request : Command → Request Unit
  | use tactic => Session.use tactic
  | useLemma name l => Session.use (.useLemma name l)
  | useEverywhere tactic => Session.useEverywhere tactic
  | undo => Session.undo
  | back => Session.back
  | forward case => Session.forward case
  | visit p => Session.visit p
  | nextGoal => Session.nextGoal
  | previousGoal => Session.previousGoal
  | firstGoal => Session.firstGoal
  | lastGoal => Session.lastGoal
  | leave => Session.leave
  | enter => Session.enter
  | setAutoFinish on => Session.setAutoFinish on

/-- The session after some commands; one that fails leaves what it has changed before. -/
def run : List Command → Session → Session
  | [], s => s
  | c :: cs, s => run cs (c.request s).2

/-- What `useEverywhere` does at one open goal. -/
def useOnce (tactic : Tactic) (p : Path) : Request Unit := do
  let _ ← applyAt p tactic
  status

/-- The tactic is applied to the current node, which has the state `u`. -/
def UsesAt (s : Session) (u : State) : Prop :=
  s.mode = .tactic ∧ ∃ t p n, s.tree = some t ∧ s.current = some p ∧ t.get? p = some n ∧ n.state = u

/-- The tactic is applied to the state `u` on the way through some nodes; the first failure ends the
way. -/
inductive UsesAlong (tactic : Tactic) : List Path → Session → State → Prop
  | here {p : Path} {ps : List Path} {s : Session} {t n : ProofTree}
      (tree : s.tree = some t) (node : t.get? p = some n) : UsesAlong tactic (p :: ps) s n.state
  | later {p : Path} {ps : List Path} {s : Session} {u : State}
      (succeeds : (useOnce tactic p s).1.result = .ok ())
      (rest : UsesAlong tactic ps (useOnce tactic p s).2 u) : UsesAlong tactic (p :: ps) s u

/-- **A command applies a tactic to a state.** -/
inductive Applies : Command → Session → Tactic → State → Prop
  | use {tactic : Tactic} {s : Session} {u : State} (h : UsesAt s u) : Applies (.use tactic) s tactic u
  | useLemma {name : String} {l : Lemma} {s : Session} {u : State} (h : UsesAt s u) :
      Applies (.useLemma name l) s (.useLemma name l) u
  | useEverywhere {tactic : Tactic} {s : Session} {t : ProofTree} {u : State}
      (tree : s.tree = some t) (h : UsesAlong tactic t.openGoals s u) :
      Applies (.useEverywhere tactic) s tactic u

/-- **Every application that a run makes is locally sound.** -/
def SoundRun (Holds : W → Term → Prop) : List Command → Session → Prop
  | [], _ => True
  | c :: cs, s => (∀ tactic u, Applies c s tactic u → tactic.LocallySound Holds u) ∧
      SoundRun Holds cs (c.request s).2

/-- The session has a justified proof tree with a given state at its root. -/
def Rooted (Holds : W → Term → Prop) (root : State) (s : Session) : Prop :=
  ∃ t, s.tree = some t ∧ t.state = root ∧ t.Justified (State.Valid Holds)

variable {Holds : W → Term → Prop} {root : State} {s : Session}

theorem Rooted.of_tree_eq {s' : Session} (h : Rooted Holds root s) (htree : s'.tree = s.tree) :
    Rooted Holds root s' := by
  obtain ⟨t, ht, hroot, hjust⟩ := h
  exact ⟨t, htree.trans ht, hroot, hjust⟩

theorem Rooted.applyAt (h : Rooted Holds root s) {p : Path} {tactic : Tactic}
    (hsound : ∀ t n, s.tree = some t → t.get? p = some n → tactic.LocallySound Holds n.state) :
    Rooted Holds root (Session.applyAt p tactic s).2 := by
  rcases applyAt_tree p tactic s with heq | ⟨t, n, states, ht, hn, hrun, heq⟩
  · exact h.of_tree_eq heq
  · obtain ⟨t', ht', hroot, hjust⟩ := h
    rw [ht, Option.some.injEq] at ht'
    subst ht'
    refine ⟨_, heq, ?_, ?_⟩
    · rw [Tree.state_modify (Tree.state_extend tactic states), hroot]
    · refine hjust.modify (Tree.state_extend tactic states) p ?_
      intro n' hn' hjust'
      rw [hn, Option.some.injEq] at hn'
      subst hn'
      exact hjust'.extend (hsound t n ht hn states hrun)

theorem Rooted.use (h : Rooted Holds root s) {tactic : Tactic}
    (hsound : ∀ u, UsesAt s u → tactic.LocallySound Holds u) :
    Rooted Holds root (Session.use tactic s).2 := by
  rcases use_tree tactic s with heq | ⟨p, hmode, hcurrent, heq⟩
  · exact h.of_tree_eq heq
  · refine (h.applyAt ?_).of_tree_eq heq
    intro t n ht hn
    exact hsound n.state ⟨hmode, t, p, n, ht, hcurrent, hn, rfl⟩

theorem Rooted.useOnce (h : Rooted Holds root s) {p : Path} {tactic : Tactic}
    (hsound : ∀ t n, s.tree = some t → t.get? p = some n → tactic.LocallySound Holds n.state) :
    Rooted Holds root (Session.useOnce tactic p s).2 :=
  (h.applyAt hsound).of_tree_eq (bind_tree _ (fun _ => reads_status.keepsTree) s)

theorem Rooted.forM {tactic : Tactic} (ps : List Path) (h : Rooted Holds root s)
    (hsound : ∀ u, UsesAlong tactic ps s u → tactic.LocallySound Holds u) :
    Rooted Holds root (ps.forM (Session.useOnce tactic) s).2 := by
  induction ps generalizing s with
  | nil => exact h
  | cons p ps ih =>
    have hfirst := h.useOnce (p := p) fun t n ht hn => hsound n.state (.here ht hn)
    change Rooted Holds root
      ((Session.useOnce tactic p >>= fun _ => ps.forM (Session.useOnce tactic)) s).2
    rw [bind_snd]
    cases hresult : (Session.useOnce tactic p s).1.result with
    | error e => exact hfirst
    | ok a => exact ih hfirst fun u hu => hsound u (.later hresult hu)

theorem Rooted.useEverywhere (h : Rooted Holds root s) {tactic : Tactic}
    (hsound : ∀ t u, s.tree = some t → UsesAlong tactic t.openGoals s u →
      tactic.LocallySound Holds u) : Rooted Holds root (Session.useEverywhere tactic s).2 := by
  obtain ⟨t, ht, -⟩ := id h
  unfold Session.useEverywhere
  rw [bind_snd, reads_theTree s, theTree_result, ht]
  exact h.forM t.openGoals fun u hu => hsound t u ht hu

theorem Rooted.undo (h : Rooted Holds root s) : Rooted Holds root (Session.undo s).2 := by
  rcases clears_undo s with heq | ⟨q, heq⟩
  · exact h.of_tree_eq heq
  · obtain ⟨t, ht, hroot, hjust⟩ := h
    rw [ht] at heq
    refine ⟨_, heq, ?_, ?_⟩
    · rw [Tree.state_modify Tree.state_clear, hroot]
    · exact hjust.modify Tree.state_clear q fun n _ _ => .clear n

/-- **What one command keeps**: if the applications it makes are sound, the tree stays justified and
its root stays as it is. -/
theorem rooted_step (c : Command) (h : Rooted Holds root s)
    (hsound : ∀ tactic u, Applies c s tactic u → tactic.LocallySound Holds u) :
    Rooted Holds root (c.request s).2 := by
  cases c with
  | use tactic => exact h.use fun u hu => hsound tactic u (.use hu)
  | useLemma name l => exact h.use fun u hu => hsound _ u (.useLemma hu)
  | useEverywhere tactic =>
    exact h.useEverywhere fun t u ht hu => hsound tactic u (.useEverywhere ht hu)
  | undo => exact h.undo
  | back => exact h.of_tree_eq (moves_back.keepsTree s)
  | forward case => exact h.of_tree_eq ((moves_forward case).keepsTree s)
  | visit p => exact h.of_tree_eq ((moves_visit p).keepsTree s)
  | nextGoal => exact h.of_tree_eq (moves_nextGoal.keepsTree s)
  | previousGoal => exact h.of_tree_eq (moves_previousGoal.keepsTree s)
  | firstGoal => exact h.of_tree_eq (moves_firstGoal.keepsTree s)
  | lastGoal => exact h.of_tree_eq (moves_lastGoal.keepsTree s)
  | leave => exact h.of_tree_eq (keepsTree_leave s)
  | enter => exact h.of_tree_eq (keepsTree_enter s)
  | setAutoFinish on => exact h.of_tree_eq (keepsTree_setAutoFinish on s)

theorem rooted_run (cs : List Command) (h : Rooted Holds root s) (hsound : SoundRun Holds cs s) :
    Rooted Holds root (run cs s) := by
  induction cs generalizing s with
  | nil => exact h
  | cons c cs ih => exact ih (rooted_step c h hsound.1) hsound.2

def statementOf (goal : Term) : Outcome Term :=
  if goal = .lit .absent then pure goal else goal.ofLiteral

def beginWith (g : Term) : Request Unit := do
  requireMode .assumption .startProof
  Request.require g.isStatement (.goalNotProposition g)
  let s ← Request.session
  Request.require (g.isDefined s.assumptions.declaredVariables) (.goalNotDefined g)
  let state : State := ⟨g, s.assumptions⟩
  let premises := " ".intercalate (s.assumptions.lines.map fun l => "(" ++ l ++ ")")
  Request.change fun s => { s with
    mode := .tactic, tree := some (Tree.leaf state), current := some [],
    heading := "example " ++ premises ++ ": " ++ g.text, assumptions := [] }
  Request.say "Starting proof.  Current proof state:"
  Request.say state.text

theorem begin_eq (goal : Term) : begin goal = ofOutcome (statementOf goal) >>= beginWith := by
  unfold begin statementOf
  split <;> rfl

/-- A proof that has been started has one open goal: the statement, with the assumptions of the session
as hypotheses. -/
theorem begin_tree {goal : Term} {s : Session} (h : (begin goal s).1.result = .ok ()) :
    ∃ g, (statementOf goal).result = .ok g ∧
      (begin goal s).2.tree = some (Tree.leaf ⟨g, s.assumptions⟩) := by
  rw [begin_eq] at h ⊢
  obtain ⟨g, hg, h, hsnd⟩ := exists_of_bind_result h
  refine ⟨g, hg, ?_⟩
  rw [hsnd, reads_ofOutcome]
  rw [reads_ofOutcome] at h
  unfold beginWith at h ⊢
  obtain ⟨-, -, h, hsnd⟩ := exists_of_bind_result h
  rw [reads_requireMode] at h hsnd
  rw [hsnd]
  obtain ⟨-, -, h, hsnd⟩ := exists_of_bind_result h
  rw [hsnd]
  obtain ⟨s', hs', h, hsnd⟩ := exists_of_bind_result h
  cases hs'
  rw [hsnd]
  obtain ⟨-, -, h, hsnd⟩ := exists_of_bind_result h
  rw [hsnd]
  rfl

theorem status_of_openCount {s : Session} {t : ProofTree} (htree : s.tree = some t)
    (hopen : t.openCount = 0) : (status s).1 = .say "Proof complete!" := by
  have hstatus : (status s).1 = (reportOpen t.openCount s).1 := by
    obtain ⟨mode, assumptions, heading, tree, current, autoFinish⟩ := s
    subst htree
    rfl
  rw [hstatus, hopen]
  rfl

/-- **A complete proof proves its goal.**  After a proof of `goal` has been started and any commands have
been run, all of whose applications were locally sound, the tree is still that of the statement under
the assumptions of the start; and if no goal is open, so that the proof is reported complete, the
statement holds wherever these assumptions do. -/
theorem goal_valid_of_complete (Holds : W → Term → Prop) (s : Session) (goal : Term)
    (cs : List Command) (hbegin : (begin goal s).1.result = .ok ())
    (hsound : SoundRun Holds cs (begin goal s).2) :
    ∃ t g, (run cs (begin goal s).2).tree = some t ∧ (statementOf goal).result = .ok g ∧
      t.state = ⟨g, s.assumptions⟩ ∧
      (t.openCount = 0 →
        (status (run cs (begin goal s).2)).1 = .say "Proof complete!" ∧
        ∀ w, (∀ h ∈ s.assumptions.hypotheses, Holds w h) → Holds w g) := by
  obtain ⟨g, hg, htree⟩ := begin_tree hbegin
  have hstart : Rooted Holds ⟨g, s.assumptions⟩ (begin goal s).2 :=
    ⟨_, htree, rfl, Tree.justified_leaf _⟩
  obtain ⟨t, ht, hroot, hjust⟩ := rooted_run cs hstart hsound
  refine ⟨t, g, ht, hg, hroot, ?_⟩
  intro hopen
  have hvalid := hjust.valid_of_openGoals_eq_nil (List.length_eq_zero_iff.1 hopen)
  rw [hroot] at hvalid
  exact ⟨status_of_openCount ht hopen, hvalid⟩

/-- Truth of propositional variables and of their conjunctions; declarations hold. -/
def Truth (w : String → Prop) : Term → Prop
  | .var v => w v.name
  | .app .and [.var u, .var v] => w u.name ∧ w v.name
  | _ => True

def twoAssumptions : Session :=
  { start with assumptions :=
      [("P", Proof.declare ⟨"P", .prop⟩), ("Q", Proof.declare ⟨"Q", .prop⟩),
        ("h", .var ⟨"P", .prop⟩), ("k", .var ⟨"Q", .prop⟩)] }

def conjunction : Term := .app .and [.var ⟨"P", .prop⟩, .var ⟨"Q", .prop⟩]

/-- The goal is split, the split is taken back and made again, and then made once more at the node it
has already handled. -/
def splitTwice : List Command :=
  [.use .splitGoal, .undo, .use .splitGoal, .back, .use .splitGoal, .useEverywhere .trivial]

theorem splitGoal_locallySound :
    Tactic.splitGoal.LocallySound Truth ⟨conjunction, twoAssumptions.assumptions⟩ := by
  intro states hrun hvalid w hw
  cases hrun
  exact ⟨hvalid _ (.head _) w hw, hvalid _ (.tail _ (.head _)) w hw⟩

theorem trivial_locallySound {g : Term} (hg : g ∈ twoAssumptions.assumptions.hypotheses) :
    Tactic.trivial.LocallySound Truth ⟨g, twoAssumptions.assumptions⟩ := by
  intro _ _ _ w hw
  exact hw g hg

theorem splitTwice_soundRun :
    SoundRun Truth splitTwice (begin conjunction twoAssumptions).2 := by
  refine ⟨?_, nofun, ?_, nofun, ?_, ?_, True.intro⟩
  · rintro _ _ ⟨-, t, p, n, ht, hp, hn, rfl⟩
    cases ht
    cases hp
    cases hn
    exact splitGoal_locallySound
  · rintro _ _ ⟨-, t, p, n, ht, hp, hn, rfl⟩
    cases ht
    cases hp
    cases hn
    exact splitGoal_locallySound
  · rintro _ _ ⟨-, t, p, n, ht, hp, hn, rfl⟩
    cases ht
    cases hp
    cases hn
    exact splitGoal_locallySound
  · rintro _ u (_ | _ | ⟨ht, h⟩)
    cases ht
    -- The open goals are the four children of the root.
    change UsesAlong Tactic.trivial [[0], [1], [2], [3]] _ u at h
    rcases h with ⟨ht, hn⟩ | ⟨-, ⟨ht, hn⟩ | ⟨-, ⟨ht, hn⟩ | ⟨-, ⟨ht, hn⟩ | ⟨-, h⟩⟩⟩⟩
    · cases ht
      cases hn
      exact trivial_locallySound (by decide)
    · cases ht
      cases hn
      exact trivial_locallySound (by decide)
    · cases ht
      cases hn
      exact trivial_locallySound (by decide)
    · cases ht
      cases hn
      exact trivial_locallySound (by decide)
    · cases h

/-- The proof is complete, and the conjunction holds wherever the two propositions do. -/
theorem conjunction_valid :
    (run splitTwice (begin conjunction twoAssumptions).2).tree.map (·.openCount) = some 0 ∧
      ∀ w, (∀ h ∈ twoAssumptions.assumptions.hypotheses, Truth w h) → Truth w conjunction := by
  obtain ⟨t, g, ht, hg, -, hvalid⟩ :=
    goal_valid_of_complete Truth twoAssumptions conjunction splitTwice rfl splitTwice_soundRun
  cases ht
  cases hg
  exact ⟨rfl, (hvalid rfl).2⟩

end Session
end Majorant
