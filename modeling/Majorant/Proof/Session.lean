import Majorant.Proof.Tree
import Majorant.Tactic.Run

/-!
# Sessions

A session collects assumptions, starts a proof from them and applies tactics to the open goals of its
proof tree.  In *assumption mode* variables and hypotheses are introduced; in *tactic mode* tactics are
applied to the current node.

## Design notes

A request that fails keeps what it changed before.  A proof that is left stays in the session and can be
entered again.
-/

namespace Majorant

inductive Mode where
  | assumption | tactic
deriving DecidableEq, Repr

def Mode.name : Mode → String
  | assumption => "assumption"
  | tactic => "tactic"

abbrev ProofTree := Proof.Tree Proof.State Tactic

/-- **Apply a tactic to the node at a path.**  `none` says that the tactic left the state as it was. -/
def ProofTree.apply (t : ProofTree) (p : Proof.Path) (tactic : Tactic) :
    Outcome (Option ProofTree) := do
  match t.get? p with
  | none => .fail .outOfRange
  | some node =>
    let states ← tactic.run node.state
    let idle := match states with
      | [s] => s.same node.state
      | _ => false
    return if idle then none else some (Proof.Tree.modify (Proof.Tree.extend tactic states) p t)

/-- **A session.** -/
structure Session where
  mode : Mode
  assumptions : Proof.Context
  heading : String
  tree : Option ProofTree
  current : Option Proof.Path
  autoFinish : Bool
deriving Repr

/-- A request to a session: it has an outcome and leaves a session. -/
def Request (α : Type) := Session → Outcome α × Session

namespace Request

def ret {α : Type} (a : α) : Request α := fun s => (pure a, s)

/-- One request after another.  If the first one fails, its session stays. -/
def andThen {α β : Type} (x : Request α) (f : α → Request β) : Request β := fun s =>
  match x s with
  | (o, s') =>
    match o.result with
    | .ok a =>
      match f a s' with
      | (o', s'') => (⟨o'.result, o.log ++ o'.log⟩, s'')
    | .error e => (⟨.error e, o.log⟩, s')

instance : Monad Request where
  pure := ret
  bind := andThen

def ofOutcome {α : Type} (o : Outcome α) : Request α := fun s => (o, s)

instance : MonadLift Outcome Request where
  monadLift := ofOutcome

def session : Request Session := fun s => (pure s, s)

def change (f : Session → Session) : Request Unit := fun s => (pure (), f s)

def fail {α : Type} (e : Failure) : Request α := ofOutcome (.fail e)

def require (condition : Bool) (e : Failure) : Request Unit := ofOutcome (.require condition e)

def say (text : String) : Request Unit := ofOutcome (.say text)

end Request

namespace Session
open Term Proof

def start : Session :=
  { mode := .assumption, assumptions := [], heading := "", tree := none, current := none,
    autoFinish := true }

def requireMode (m : Mode) (why : Refusal) : Request Unit := do
  let s ← Request.session
  Request.require (s.mode = m) (.refused why)

def theTree : Request ProofTree := do
  match (← Request.session).tree with
  | some t => return t
  | none => Request.fail .noTree

def here : Request Path := do
  match (← Request.session).current with
  | some p => return p
  | none => Request.fail .noCurrentNode

def nodeAt (p : Path) : Request ProofTree := do
  match (← theTree).get? p with
  | some n => return n
  | none => Request.fail .outOfRange

def currentNode : Request ProofTree := do
  nodeAt (← here)

def modifyAt (p : Path) (f : ProofTree → ProofTree) : Request Unit :=
  Request.change fun s => { s with tree := s.tree.map (Tree.modify f p) }

def currentState : Request State := do
  return (← currentNode).state

/-- The proof state; it is only there in tactic mode. -/
def state : Request State := do
  requireMode .tactic .readState
  currentState

def goal : Request Term := do
  return (← currentState).goal

def hypotheses : Request (List String) := do
  return (← currentState).context.lines

def hypothesis (name : String) : Request Term := do
  let s ← Request.session
  if s.mode = .assumption then
    match s.assumptions.get? name with
    | none => Request.fail (.hypothesisUnassumed name)
    | some h => if isDeclaration h then Request.fail (.isDeclaration name) else return h
  else (← state).hypothesis name

def lookup (name : String) : Request Term := do
  let s ← Request.session
  if s.mode = .assumption then
    match s.assumptions.get? name with
    | none => Request.fail (.variableUnassumed name)
    | some h =>
      match declared? h with
      | some v => return v
      | none => Request.fail (.isHypothesis name)
  else (← state).lookup name

/-- **The term that an expression stands for**: its names are those of the session. -/
def evaluate (e : Expression) : Request Term := fun s =>
  (e.evaluate fun name => (lookup name s).1, s)

def lookupAll (names : List String) : Request (List Term) := names.mapM lookup

def declaredVariables : Request (List Term) := do
  let s ← Request.session
  if s.mode = .assumption then return s.assumptions.declaredVariables
  else return (← state).declaredVariables

def declare (kind name : String) : Request Term := do
  requireMode .assumption .introduceVariable
  let s ← Request.session
  let name := s.assumptions.fresh name
  let v ← Variable.named kind name
  Request.change fun s => { s with assumptions := s.assumptions.put name (Proof.declare v) }
  return var v

def declareAll (kind : String) (names : List String) : Request (List Term) := do
  requireMode .assumption .introduceVariable
  names.mapM (declare kind)

def assume (t : Term) (name : String) : Request Unit := do
  requireMode .assumption .addHypothesis
  Request.require t.isStatement (.assumptionNotProposition t)
  let s ← Request.session
  Request.require (t.isDefined s.assumptions.declaredVariables) (.assumptionNotDefined t)
  Request.change fun s => { s with assumptions := s.assumptions.put (s.assumptions.fresh name) t }

def clear : Request Unit := do
  requireMode .assumption .clearHypotheses
  Request.change fun s => { s with assumptions := [] }

/-- **Start a proof** of a statement from the assumptions, which are used up. -/
def begin (t : Term) : Request Unit := do
  let t ← if t = lit .absent then pure t else ofLiteral t
  requireMode .assumption .startProof
  Request.require t.isStatement (.goalNotProposition t)
  let s ← Request.session
  Request.require (t.isDefined s.assumptions.declaredVariables) (.goalNotDefined t)
  let state : State := ⟨t, s.assumptions⟩
  let premises := " ".intercalate (s.assumptions.lines.map fun l => "(" ++ l ++ ")")
  Request.change fun s => { s with
    mode := .tactic, tree := some (Tree.leaf state), current := some [],
    heading := "example " ++ premises ++ ": " ++ t.text, assumptions := [] }
  Request.say "Starting proof.  Current proof state:"
  Request.say state.text

def abandon : Request Unit := do
  requireMode .tactic .abandonProof
  Request.change fun s => { s with
    mode := .assumption, tree := none, current := none, heading := "", assumptions := [] }

def leave : Request Unit := do
  requireMode .tactic .alreadyAssuming
  Request.change fun s => { s with mode := .assumption, current := none }
  Request.say "Exiting Tactic mode."

def enter : Request Unit := do
  requireMode .assumption .alreadyProving
  Request.change fun s => { s with mode := .tactic, current := s.tree.map fun _ => [] }
  Request.say "Re-entering Tactic mode.  Current proof state:"
  let state ← currentState
  Request.say state.text

def setAutoFinish (on : Bool) : Request Unit := do
  Request.say (if on then
    "Proof assistant will automatically exit Tactic mode when proof is complete."
    else "Proof assistant will stay in Tactic mode even when proof is complete.")
  Request.change fun s => { s with autoFinish := on }

def reportOpen : Nat → Request Unit
  | 0 => Request.say "Proof complete!"
  | 1 => Request.say "1 goal remaining."
  | n => Request.say (toString n ++ " goals remaining.")

def status : Request Unit := do reportOpen (← theTree).openCount

/-- Apply a tactic to the node at a path; did it change anything? -/
def applyAt (p : Path) (tactic : Tactic) : Request Bool := do
  let t ← theTree
  match ← ProofTree.apply t p tactic with
  | none => return false
  | some t =>
    Request.change fun s => { s with tree := some t }
    return true

/-- **Apply a tactic** to the current node and move to the next open goal, if there is one. -/
def use (tactic : Tactic) : Request Unit := do
  requireMode .tactic .applyTactic
  let _ ← theTree
  let p ← here
  if ← applyAt p tactic then
    status
    let around := (← theTree).neighbours p
    match around.after <|> around.before with
    | some q => Request.change fun s => { s with current := some q }
    | none => Request.change fun s =>
      if s.autoFinish then { s with current := none, mode := .assumption } else s

/-- **Apply a tactic to every open goal**; the current node stays. -/
def useEverywhere (tactic : Tactic) : Request Unit := do
  let t ← theTree
  t.openGoals.forM fun p => do
    let _ ← applyAt p tactic
    status

def useText (text : String) : Request Unit := Request.fail (.notTactic text)

def useTextEverywhere : Request Unit := do
  let t ← theTree
  Request.require t.openGoals.isEmpty .unanswerable

def moveTo (p : Path) : Request Unit := do
  requireMode .tactic .setNode
  let t ← theTree
  let node ← nodeAt p
  Request.change fun s => { s with current := some p }
  if t.openGoals.contains p then
    let position := t.position p
    Request.say ("Moved to goal " ++ toString (position.before + 1) ++ " of " ++
      toString (position.before + 1 + position.after) ++ ".")
  else
    Request.say ("Moved to a proof state currently handled by \"" ++
      (match node.tactic with
        | some tactic => tactic.text
        | none => "None") ++ "\").")

/-- Move to a node given by its path from the root.  Without a tree there is only the root to ask
for. -/
def visit (p : Path) : Request Unit := do
  match (← Request.session).tree with
  | none =>
    Request.require p.isEmpty .unanswerable
    requireMode .tactic .setNode
    Request.fail .noTree
  | some t =>
    Request.require (t.get? p).isSome .outOfRange
    moveTo p

def moveOr (p : Option Path) (otherwise : String) : Request Unit :=
  match p with
  | some p => moveTo p
  | none => Request.say otherwise

def nextGoal : Request Unit := do
  requireMode .tactic .nextGoal
  let t ← theTree
  moveOr (t.neighbours (← here)).after "No subsequent goal to move to."

def previousGoal : Request Unit := do
  requireMode .tactic .previousGoal
  let t ← theTree
  moveOr (t.neighbours (← here)).before "No previous goal to move to."

def firstGoal : Request Unit := do
  requireMode .tactic .firstGoal
  let t ← theTree
  moveOr t.openGoals.head? "No goals to move to."

def lastGoal : Request Unit := do
  requireMode .tactic .lastGoal
  let t ← theTree
  moveOr t.openGoals.getLast? "No goals to move to."

def parent? (p : Path) : Option Path := if p.isEmpty then none else some p.dropLast

def back : Request Unit := do
  requireMode .tactic .moveBack
  match parent? (← here) with
  | some q =>
    moveTo q
    Request.say "Moved back a step in the proof."
  | none => Request.say "Already at start of proof."

/-- **Take back the tactic** that led to the current node. -/
def undo : Request Unit := do
  requireMode .tactic .undo
  match parent? (← here) with
  | some q =>
    moveTo q
    let node ← nodeAt q
    Request.say ("Undid previous tactic (" ++
      (match node.tactic with
        | some tactic => tactic.text
        | none => "None") ++ ").")
    modifyAt q Tree.clear
  | none => Request.say "No tactics to undo."

/-- The index of a case among `n` children: cases are counted from one, and those from zero down count
backwards from the end. -/
def caseIndex (n : Nat) (case : Int) : Option Nat :=
  let i := if case ≤ 0 then case - 1 + n else case - 1
  if 0 ≤ i && i < n then some i.toNat else none

def forwardText (case : Int) (children : Nat) : String :=
  if children = 1 then "Moved forward a step in the proof."
  else if case = 1 then "Moved forward to the first case of this step in the proof."
  else if case = 2 then "Moved forward to the second case of this step in the proof."
  else if case = 3 then "Moved forward to the third case of this step in the proof."
  else "Moved forward to case \x7bcase\x7d of this step in the proof."

def forward (case : Int) : Request Unit := do
  requireMode .tactic .moveForward
  let p ← here
  let node ← nodeAt p
  let n := node.children.length
  if n = 0 then Request.say "There are no more steps in this branch of the proof."
  else if (n : Int) < case then
    Request.say ("There are only \x7blen(self.current_node.children)\x7d cases " ++
      "after this step of the proof.")
  else
    match caseIndex n case with
    | none => Request.fail .outOfRange
    | some i =>
      moveTo (p ++ [i])
      let child ← nodeAt (p ++ [i])
      Request.say (forwardText case child.children.length)

def proof : Request String := do
  let s ← Request.session
  match s.tree with
  | none => Request.fail (.refused .noProof)
  | some t => return s.heading ++ " := by\n" ++ t.text Tactic.text s.current

def listGoals : Request Unit := do
  let t ← theTree
  let goals := t.openGoals
  (goals.zip (List.range goals.length)).forM fun (p, i) => do
    Request.say ("Goal " ++ toString (i + 1) ++ " of " ++ toString goals.length ++ ":")
    Request.say (← nodeAt p).state.text

def nodeRemark (t : ProofTree) (p : Path) (node : ProofTree) : String :=
  match node.tactic with
  | none =>
    let count := t.openCount
    if 1 < count then
      "\nThis is goal " ++ toString ((t.position p).before + 1) ++ " of " ++ toString count ++ "."
    else ""
  | some tactic =>
    match node.children.length with
    | 0 => "\nThis goal was solved with \"" ++ tactic.text ++ "\"."
    | 1 => "\nThe next step in the proof is \"" ++ tactic.text ++ "\"."
    | n => "\nThe next step in the proof is \"" ++ tactic.text ++ "\", generating " ++ toString n ++
      " sub-goals."

def text : Request String := do
  let s ← Request.session
  if s.mode = .assumption then
    if s.assumptions.isEmpty then
      return "Proof Assistant is in assumption mode.  No hypotheses."
    return "Proof Assistant is in assumption mode.  Current hypotheses:\n" ++
      "\n".intercalate s.assumptions.lines
  else
    let p ← here
    let node ← nodeAt p
    let t ← theTree
    return "Proof Assistant is in tactic mode.  Current proof state:\n" ++ node.state.text ++
      nodeRemark t p node

end Session
end Majorant
