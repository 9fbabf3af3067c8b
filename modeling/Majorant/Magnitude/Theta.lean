import Majorant.Magnitude.Algebra
import Majorant.Number.Significant
import Majorant.Statement.Connective

/-!
# Orders of magnitude of arbitrary terms

Only positive quantities have an order of magnitude.  Anything else is met with a warning and the
undefined magnitude, so that building an expression never fails for this reason.
-/

namespace Majorant
namespace Magnitude
open Term

def warn (text : String) : Outcome Term := do
  Outcome.say ("Warning: a non-positive argument " ++ text ++ " was passed to Theta.")
  return undefined

def theta (t : Term) : Outcome Term :=
  match t with
  | lit .absent => .fail .unanswerable
  | lit (.float q) => if q > 0 then pure unit else warn (Significant.text q)
  | _ => do
    let t ← ofLiteral t
    if t.evades then .fail .unanswerable
    else if t.isOrder then pure t
    else if t.is .positive then pure (ofPositive t)
    else warn t.text

/-- An extremum of magnitudes; there must be at least one. -/
def extremal (h : Head) (name : String) (ts : List Term) : Outcome Term := do
  match ← ts.mapM theta with
  | [] =>
    Outcome.say ("Warning: " ++ name ++ " was passed no arguments.")
    return undefined
  | os => return extremum h os

def largest (ts : List Term) : Outcome Term := extremal .orderMax "OrderMax" ts

def smallest (ts : List Term) : Outcome Term := extremal .orderMin "OrderMin" ts

def multiply (ts : List Term) : Outcome Term := do
  return rawTimes (← ts.mapM theta)

def tupleText (ts : List Term) : String :=
  match ts with
  | [t] => "(" ++ t.quoted ++ ",)"
  | ts => "(" ++ commas (ts.map quoted) ++ ")"

def toPower (ts : List Term) : Outcome Term :=
  match ts with
  | [b, e] => do
    let b' ← ofLiteral b
    let e ← ofLiteral e
    if e.evades then .fail .unanswerable
    else if !e.isNumber then do
      Outcome.say ("Exponent " ++ e.text ++ " must be a number.")
      return undefined
    else if !b'.isOrder then do
      Outcome.say ("Base " ++ b'.text ++ " must be an order of magnitude.")
      return undefined
    else return rawPower b' e
  | ts => do
    Outcome.say ("OrderPow" ++ tupleText ts ++ " requires exactly two arguments.")
    return undefined

def largestSpread (ts : List Term) : Outcome Term := largest (spread .orderMax ts)

def smallestSpread (ts : List Term) : Outcome Term := smallest (spread .orderMin ts)

def multiplyGathered (ts : List Term) : Outcome Term := do
  let powers := (spread .orderMul ts).foldl gather []
  if powers.all (·.1.isOrder) then return times ts
  let parts ← (powers.filter (·.2 ≠ zero)).mapM fun p =>
    if p.2 = one then pure p.1 else toPower [p.1, p.2]
  match parts with
  | [] => return unit
  | [t] => return t
  | ts => multiply ts

def toPowerSpread (b e : Term) : Outcome Term := do
  match b with
  | app .orderMul as =>
    if as.all (·.isOrder) then return raise b e
    multiplyGathered (← (← as.mapM fun t =>
      if t.isOrder then pure (raiseFactorWith raise t e) else pure (power t e)).mapM theta)
  | _ => return raise b e

end Magnitude
end Majorant
