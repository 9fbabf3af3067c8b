import Majorant.Magnitude.LittlewoodPaley

/-!
# Evaluating applications

`Evaluation.apply` builds the evaluated application of a head to arguments; `Evaluation.settle`
evaluates a whole term again from the inside.
-/

namespace Majorant
namespace Evaluation
open Term

/-- A formal difference whose first part has an order of magnitude. -/
def isOrderDifference : Term → Bool
  | app .difference (a :: _) => a.isOrder
  | _ => false

/-- **A sum of arbitrary quantities.**  A formal difference that evades questions is accepted only
behind a summand that is not known to commute, and never beside one whose parts would have to be
compared with a written number. -/
def addAll (ts : List Term) : Outcome Term := do
  let ts ← ts.mapM ofLiteral
  if !evadesList ts then return sum ts
  let parts := (ts.flatMap summands).filter fun | num _ => false | _ => true
  let before := parts.takeWhile (fun t => !t.evades)
  if before.all (·.is .commutative) then .fail .unanswerable
  else if before.any isOrderDifference then do
    let _ ← Magnitude.theta (lit (.int 0))
    let _ ← Magnitude.theta (lit (.int 0))
    .fail .mistyped
  else return sum ts

def apply (h : Head) (args : List Term) : Outcome Term :=
  match h, args with
  | .rel r, [a, b] => Statement.relate r a b
  | .and, ts => Statement.conj ts
  | .or, ts => Statement.disj ts
  | .not, [t] => Statement.not t
  | .theta, [t] => Magnitude.theta t
  | .orderMax, ts => Magnitude.largest ts
  | .orderMin, ts => Magnitude.smallest ts
  | .orderMul, ts => Magnitude.multiply ts
  | .orderPow, ts => Magnitude.toPower ts
  | .littlewoodPaley, ts => Magnitude.interaction ts
  | .max, ts => do
    let ts ← ts.mapM ofLiteral
    if evadesList ts then .fail .unanswerable else maximum ts
  | .min, ts => do
    let ts ← ts.mapM ofLiteral
    if evadesList ts then .fail .unanswerable else minimum ts
  | .add, ts => addAll ts
  | .mul, ts => do
    let ts ← ts.mapM ofLiteral
    if evadesList ts then .fail .unanswerable else return product ts
  | .pow, [b, e] => do
    let b ← ofLiteral b
    let e ← ofLiteral e
    if b.evades || e.evades then .fail .unanswerable else return power b e
  | .abs, [t] => do
    let t ← ofLiteral t
    if t.evades then .fail .unanswerable else return absolute t
  | h, ts => return app h ts

mutual

/-- **Evaluate a term again** from the inside.  Orders of magnitude spread their outermost head
only. -/
def settle : Term → Outcome Term
  | lit _ => .fail .unanswerable
  | app .orderMax as => Magnitude.largestSpread as
  | app .orderMin as => Magnitude.smallestSpread as
  | app .orderMul as => Magnitude.multiplyGathered as
  | app .orderPow (b :: e :: _) => Magnitude.toPowerSpread b e
  | app h as => do
    let as ← settleList as
    apply h as
  | t => pure t

def settleList : List Term → Outcome (List Term)
  | [] => pure []
  | t :: ts => do
    let t ← settle t
    let ts ← settleList ts
    return t :: ts

end

end Evaluation
end Majorant
