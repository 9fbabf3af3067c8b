import Majorant.Exercise.Solution
import Majorant.Workload.Value

/-!
# Workloads on proofs
-/

namespace Majorant
namespace Workload
open Term Value Proof

def tryTactic (e : Exercise) (t : Tactic) : Outcome Value :=
  silently do
    e.pose
    Session.use t
    mode

def linearExercise (i : Nat) : Exercise :=
  match i % 3 with
  | 0 => .linear
  | 1 => .antisymmetry
  | _ => .linearImpossible

def linearProofs (n : Nat) : Outcome (List Value) := do
  let modes ← (List.range n).mapM fun i => tryTactic (linearExercise i) (.linear false)
  let stuck ← silently do
    Exercise.linearImpossible.pose
    Session.use (.linear true)
    written
  let done ← tryTactic .antisymmetry (.linear true)
  return modes ++ [stuck, done]

/-- **A series of asymptotic proofs**: one that succeeds, one with the goals left, one that fails. -/
def asymptoticProofs (n : Nat) : Outcome (List Value) :=
  rounds n do
    let done ← tryTactic .logLinear (.logLinear false true)
    let left ← silently do
      Exercise.solveByLogarithms
      return (← Session.theTree).openCount
    let stuck ← tryTactic .logLinearImpossible (.logLinear false true)
    return [done, count left, stuck]

def namedSolutions : List (String × Request Unit) :=
  [("linarith_solution", Exercise.linear.solve),
   ("split_solution", Exercise.split.solve),
   ("pigeonhole_solution", Exercise.pigeonhole.solve),
   ("ineq_solution", Exercise.antisymmetry.solve),
   ("ineq_solution2", Exercise.integerGap.solve),
   ("trivial_solution", Exercise.trivial.solve),
   ("positive_solution", Exercise.positive.solve),
   ("nonnegative_solution", Exercise.nonnegative.solve),
   ("min_max_solution", Exercise.extrema.solve),
   ("subst_solution", Exercise.substitution.solve),
   ("subst_all_solution", Exercise.substitutionAll.solve),
   ("subst_all_solution_reversed", Exercise.substitutionAllReversed.solve),
   ("case_split_solution", Exercise.caseSplit.solve),
   ("sympy_simplify_solution", Exercise.expansion.solve),
   ("calc_solution", Exercise.chain.solve),
   ("amgm_solution", Exercise.means.solve),
   ("loglinarith_solution", Exercise.logLinear.solve),
   ("linarith_failure_example", Exercise.linearImpossible.solve),
   ("loglinarith_failure_example", Exercise.logLinearImpossible.solve),
   ("loglinarith_hard_solution", Exercise.logLinearHard.solve),
   ("loglinarith_hard_solution2", Exercise.solveByLogarithms),
   ("bracket_submult_solution", Exercise.bracketProduct.solve),
   ("littlewood_paley_solution", Exercise.littlewoodPaley.solve)]

/-- **Solve the first exercises** of the list, and pose one more. -/
def solutions (n : Nat) : Outcome (List Value) := do
  let solved ← (namedSolutions.take n).mapM fun p => do
    silently p.2
    return Value.text p.1
  let posed ← silently do
    Exercise.complexLittlewoodPaley.pose
    written
  return solved ++ [posed]

def bound (i : Nat) : Outcome Term :=
  Operation.compare .lt (real "x") (sum [real "y", num i])

def boundState (n : Nat) : Outcome State := do
  let hyps ← (List.range n).mapM fun i => do return ("h" ++ toString i, ← bound i)
  let vars := [("x", declare ⟨"x", .real⟩), ("y", declare ⟨"y", .real⟩)]
  return ⟨← bound n, vars ++ hyps⟩

def states (n : Nat) : Outcome (List Value) := do
  let s ← boundState n
  let x ← s.lookup "x"
  let name ← s.nameOf x
  let h ← s.hypothesis "h0"
  let (renamed, t) ← s.rename "h0" "k0"
  let next ← (t.test (← bound 1) true).quiet
  let sure ← (t.test top true).quiet
  let equal ← (t.test (← Statement.relate .eq x (real "y")) true).quiet
  let failures := failingOutcome (t.remove "nope") ++ failingOutcome (t.remove "x") ++
    failingOutcome (t.hypothesis "x") ++ failingOutcome (t.lookup "k0") ++
    failingOutcome (t.nameOf (real "z")) ++ failingOutcome (t.rename "x" "z") ++
    failingOutcome (t.rename "h1" "h2")
  let left ← (Tactic.trivial.run t).quiet
  return [Value.text s.text, bool (s.same s), Value.text (s.fresh "h0"), term x, Value.text name,
    count s.declaredVariables.length, term h, count s.context.statements.length,
    count s.context.hypotheses.length, Value.text renamed, bool next, bool sure, bool equal] ++
    failures ++ [Value.text Tactic.trivial.text, count left.length]

/-- A tree that grows level by level: the tree, its last level, the level in the making, and how many
nodes are still to be added. -/
structure Growth where
  tree : ProofTree
  level : List Path
  next : List Path
  left : Nat

def blankState : State := ⟨top, []⟩

def Growth.expand (g : Growth) (p : Path) : Growth :=
  let k := min 2 g.left
  if k = 0 then g
  else
    { g with
      tree := Tree.modify (Tree.extend (.outline "split" []) (List.replicate k blankState)) p g.tree
      next := g.next ++ (List.range k).map fun i => p ++ [i]
      left := g.left - k }

def Growth.run : Nat → Growth → Growth
  | 0, g => g
  | n + 1, g =>
    if g.left = 0 then g
    else
      let g := g.level.foldl Growth.expand g
      Growth.run n { g with level := g.next, next := [] }

/-- A tree with `n` nodes, at least one, and the paths of its last level. -/
def levelTree (n : Nat) : ProofTree × List Path :=
  let g := Growth.run n ⟨Tree.leaf blankState, [[]], [], n - 1⟩
  (g.tree, g.level)

def around (t : ProofTree) (p : Path) : Value :=
  let n := t.neighbours p
  list [bool n.found, node t n.before, node t n.after]

def place (t : ProofTree) (p : Path) : Value :=
  let n := t.position p
  list [bool n.found, count n.before, count n.after]

/-- **Walks through a proof tree**: to the middle and to the end of its last level. -/
def trees (n : Nat) : Outcome (List Value) := do
  let (t, level) := levelTree n
  let middle := level.getD (level.length / 2) []
  let last := level.getLastD []
  let goals := t.openGoals
  let lines := t.lines Tactic.text none
  return [count t.openCount, bool goals.isEmpty, bool goals.head?.isSome, bool goals.getLast?.isSome,
    around t middle, around t last, place t middle, place t last, count goals.length,
    count (t.openFrom [last] []).length, count (lines.length - 1),
    count (lines.filter (·.endsWith "sorry")).length]

def contextTable (c : Context) : Value :=
  Value.text ("\x7b" ++ commas (c.map fun p => Text.quote p.1 ++ ": " ++ p.2.quoted) ++ "\x7d")

def shifted (i : Nat) : Outcome Term :=
  Operation.compare .lt (sum [real "x0", num i]) (sum [real "x1", num i])

def walk (n : Nat) : Request (List Value) := do
  let _ ← Session.declareAll "real" ["x0", "x1", "x2", "x3"]
  Session.assume (← shifted 0) "h"
  Session.assume (← shifted 0) "h"
  let assumed ← written
  let parts ← (List.range n).mapM fun i => Request.ofOutcome (shifted i)
  Session.begin (← Statement.conj parts)
  Session.setAutoFinish false
  Session.use .splitGoal
  let proof ← Session.proof
  let tree ← Session.theTree
  let split ← written
  [Session.firstGoal, Session.lastGoal, Session.previousGoal, Session.nextGoal, Session.firstGoal,
    Session.back].forM id
  let goal ← Session.goal
  let state ← Session.state
  let h ← Session.hypothesis "h"
  let x ← Session.lookup "x0"
  let vars ← Session.declaredVariables
  Session.forward 1
  Session.use .trivial
  Session.undo
  let t ← Session.theTree
  let here ← Session.here
  let undone ← written
  Session.abandon
  return [assumed, Value.text proof, Value.text (tree.text Tactic.text none), split, term goal,
    contextTable state.context, term h, term x, Value.text (Statement.setText vars),
    bool t.openGoals.isEmpty, place t here, undone, ← written]

def needProof : List (Request Unit) :=
  [do let _ ← Session.state, Session.abandon, Session.leave, Session.useText "trivial",
   Session.use .trivial, Session.nextGoal, Session.previousGoal, Session.firstGoal,
   Session.lastGoal, Session.back, Session.forward 1, Session.undo, Session.visit [],
   do let _ ← Session.proof]

def needAssumptions : List (Request Unit) :=
  [do let _ ← Session.declare "real" "c", do let _ ← Session.declareAll "real" ["c", "d"],
   Session.assume top "h", Session.clear, Session.begin top, Session.enter]

/-- **Moving in a session**: a walk through a proof, and requests that are refused. -/
def navigation (n : Nat) : Outcome (List Value) :=
  silently do
    let walked ← walk n
    let a ← Session.declare "real" "a"
    let _ ← Session.declare "real" "a"
    Session.assume (← Operation.compare .gt a (lit (.int 0))) "ha"
    let found ← Session.lookup "a"
    let h ← Session.hypothesis "ha"
    let list ← Session.lookupAll ["a"]
    let assumed ← written
    let first ← failingAll needProof
    Session.clear
    let _ ← Session.declare "real" "b"
    Session.begin top
    let second ← failingAll needAssumptions
    return walked ++ [term found, term h, Value.text ("[" ++ commas (list.map Term.quoted) ++ "]"),
      assumed] ++ first ++ second ++ [← written]

end Workload
end Majorant
