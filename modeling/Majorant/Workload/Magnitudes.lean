import Majorant.Workload.Value

/-!
# Workloads on quantities
-/

namespace Majorant
namespace Workload
open Term Value

def kindNames : List String :=
  ["int", "pos_int", "nonneg_int", "nonzero_int", "real", "pos_real", "nonneg_real",
   "nonzero_real", "rat", "pos_rat", "nonneg_rat", "nonzero_rat", "complex", "nonzero_complex",
   "bool", "order"]

def describeKind (i : Nat) : Outcome (List Value) := do
  let v ← Variable.named (kindNames.getD (i % kindNames.length) "") ("v" ++ toString i)
  let d := Proof.declare v
  return [text (var v).typeName, term d, text d.quoted, text (Proof.describe v.name d),
    bool ((var v).isDefined [var v])]

def fixedAmong (hyps ts : List Term) : List Value := ts.map fun t => bool (Magnitude.isFixed hyps t)

def boundedAmong (hyps ts : List Term) : List Value :=
  ts.map fun t => bool (Magnitude.isBounded hyps t)

/-- **Declare variables of all kinds in turn**, then ask what is fixed and what is bounded. -/
def kinds (n : Nat) : Outcome (List Value) := do
  let described ← (List.range n).mapM describeKind
  let (x, y, z) := (real "x", real "y", real "z")
  let p : Term := var ⟨"P", .prop⟩
  let fixedX := app .fixed [x]
  let boundedY := app .bounded [y]
  let hyps := [fixedX, boundedY]
  let below ← Statement.relate .lt x y
  let either ← Statement.disj [p, var ⟨"Q", .prop⟩]
  return described.flatten ++ failingOutcome (Variable.named "quaternion" "q") ++
    [text below.typeName, bool (y.isDefined [x]),
     text (fixedX.text ++ fixedX.quoted), text (boundedY.text ++ boundedY.quoted)] ++
    fixedAmong hyps [num 3, x, y, sum [x, num 2], product [x, y], power x (num 2), sum [x, z]] ++
    boundedAmong hyps [num 3, x, y, sum [x, y], product [x, y], z] ++
    boundedAmong hyps [p, power y (num 2), app .max [x, y], app .min [x, y], app .abs [y],
      product [y, z]] ++
    [term either]

def twice (t : Term) : Value := text (t.text ++ t.quoted)

def parts (t : Term) : List Term := [t, zero]

def monomialTable (t : Term) : Value :=
  text ("\x7b" ++ commas ((Magnitude.monomials t).map fun m => m.1.text ++ ": " ++ ratText m.2) ++
    "\x7d")

def twoOrders (a b : Term) : Outcome (List Value) := do
  let written := lit (.int 1)
  let results ← [Operation.add a b, Operation.add written a, Operation.sub a b, Operation.sub written a,
    Operation.neg a, Operation.mul a b, Operation.mul (lit (.int 2)) a, Operation.div a b,
    Operation.div written a, Operation.pow a (lit (.int 2)), Operation.abs a,
    Operation.compare .lt a b, Operation.compare .le a b, Operation.compare .gt a b,
    Operation.compare .ge a b].mapM id
  let same ← Operation.pow a (lit (.int 1))
  let difference ← Operation.sub a b
  return results.map term ++ [text (Magnitude.tupleText (parts a)), term same, twice undefined,
    twice difference]

def withoutResult (a : Term) : Outcome (List Value) := do
  let x := real "x"
  let results ← [Magnitude.theta x, Magnitude.theta (num (-1)), Magnitude.largest [],
    Magnitude.smallest [], Magnitude.toPower [a], Magnitude.toPower [a, x],
    Magnitude.toPower [x, num 2]].mapM id
  return results.map term

def takenApart (a b : Term) : Outcome (List Value) := do
  let greatest ← Magnitude.largest [a, b]
  let least ← Magnitude.smallest [a, b]
  let square ← Operation.pow b (lit (.int 2))
  let root ← Operation.pow a (lit (.ratio (1 / 2)))
  return [text (Statement.setText (Magnitude.maxima greatest)),
    text (Statement.setText (Magnitude.minima least)),
    text (Statement.setText (Magnitude.maxima a)), text (Statement.setText (Magnitude.minima a)),
    monomialTable square, monomialTable root]

/-- **The algebra of orders of magnitude**, on the magnitudes of some positive quantities. -/
def magnitudes (n : Nat) : Outcome (List Value) := do
  let quantity := fun i => positive ("a" ++ toString i)
  let sums ← (List.range n).mapM fun i =>
    Magnitude.theta (sum [product [quantity i, power (quantity ((i + 1) % n)) (num 2)], one])
  let orders ← (List.range n).mapM fun i => Magnitude.theta (quantity i)
  let greatest ← Magnitude.largest (orders.take 8)
  let least ← Magnitude.smallest (orders.take 8)
  let greatest' ← Evaluation.settle greatest
  let least' ← Evaluation.settle least
  let all ← (orders.take 12).foldlM Operation.mul (lit (.int 1))
  let all ← Evaluation.settle all
  match orders with
  | a :: _ :: _ =>
    let rest ← Operation.div all a
    let (x, y) := (quantity 0, quantity 1)
    let powers ← [Operation.pow a (lit (.ratio (3 / 2))), Magnitude.theta (power x (num (3 / 2))),
      Operation.pow a (lit (.int 3)), Operation.pow all (lit (.int 2)), Magnitude.theta (num 5),
      Magnitude.theta a].mapM id
    let compared ← [Magnitude.below .le x y, Magnitude.above .ge x y, Magnitude.asymp x y,
      Magnitude.below .lt x y, Magnitude.above .gt x y].mapM id
    let two ← twoOrders (order "O0") (order "O1")
    let missing ← (withoutResult (order "O0")).quiet
    let apart ← takenApart (order "O0") (order "O1")
    return (sums ++ [greatest, least, greatest', least', all, rest] ++ powers ++ compared).map term ++
      two ++ missing ++ apart
  | _ => .fail .outOfRange

def systemVariables (n : Nat) : List String :=
  (List.range (Nat.sqrt n + 1)).map fun i => "x" ++ toString i

def circle (n : Nat) : List (Linear.Inequality String) :=
  let vars := systemVariables n
  (List.range n).map fun i =>
    ⟨Linear.Inequality.collect [(vars.getD (i % vars.length) "", 1),
      (vars.getD ((i + 1) % vars.length) "", -1)], .leq, i + 1⟩

def decision (is : List (Linear.Inequality String)) : Outcome Value := do
  match ← Linear.feasibility id is with
  | .point values => return list [bool true, count values.length]
  | .multipliers ms => return list [bool false, count ms.length]

/-- **Chains of linear inequalities**: a system with a solution, and one without. -/
def systems (n : Nat) : Outcome (List Value) := do
  let bounds : List (Linear.Inequality String) :=
    [⟨[("x0", 1)], .geq, 0⟩, ⟨[("x0", 1)], .eq, 1⟩, ⟨[("x0", 1)], .gt, -1⟩, ⟨[("x0", 1)], .lt, 100⟩]
  let system := circle n ++ bounds
  let feasible ← decision system
  let infeasible ← decision (system ++ [⟨[("x0", 1)], .lt, 0⟩])
  let names := sortBy (fun a b => a ≤ b) (Linear.Inequality.allUnknowns system)
  let ratio := fun s => Linear.Inequality.orderForm id ⟨[("A", 1), ("B", -1)], s, 0⟩
  let ratios ← [.leq, .lt, .geq, .gt, .eq].mapM ratio
  return [feasible, text ("\x7b" ++ commas (names.map Text.quote) ++ "\x7d")] ++
    (system.take 5).map (fun (i : Linear.Inequality String) => Value.text (i.text id)) ++
    [infeasible] ++ ratios.map Value.text

end Workload
end Majorant
