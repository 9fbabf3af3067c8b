import Majorant.Number.Rational
import Majorant.Outcome
import Majorant.Term.Sign

/-!
# Maxima and minima

Maxima and minima are kept flat.  An argument that is known to be dominated by another one is dropped,
numbers leave only the largest (or smallest) one, and an argument absorbs the opposite extrema it
takes part in.
-/

namespace Majorant
namespace Term

def extremumHead (greatest : Bool) : Head := if greatest then .max else .min

def comparable (t : Term) : Bool :=
  t.isQuantity && !t.isNot .extReal &&
    (!t.isNumber || (t.is .extReal && !t.isOrder))

def rawExtremum (greatest : Bool) : List Term → Term
  | [t] => t
  | ts => app (extremumHead greatest) (ordered ts)

def wins? (greatest : Bool) (a b : Term) : Option Bool :=
  let direct := fun (x y : Term) => match atLeast? x y with
    | some v => some v
    | none => (atLeast? y x).map (!·)
  let larger := match direct a b with
    | some v => some v
    | none => direct (takeOut (sub a b)) zero
  larger.map (· == greatest)

def addContender (greatest : Bool) (best : List Term) (t : Term) : List Term :=
  let loses := best.any fun b => b == t || wins? greatest t b == some false
  let rest := best.filter fun b => !(wins? greatest t b == some true)
  if loses then best
  else rest ++ [t]

/-- Inside later arguments, remove what the argument `a` makes superfluous: an extremum of the same
kind loses the argument, an opposite one that holds it becomes the argument itself. -/
def absorbInto (greatest : Bool) (a : Term) : Term → Term
  | app h as =>
    if h = extremumHead greatest then
      if as.contains a then rawExtremum greatest (as.filter (· ≠ a)) else app h as
    else if h = extremumHead (!greatest) then
      if as.contains a then a else app h as
    else app h as
  | t => t

def absorbAll (greatest : Bool) : Nat → List Term → List Term
  | 0, ts => ts
  | _, [] => []
  | n + 1, a :: as => a :: absorbAll greatest n (as.map (absorbInto greatest a))

/-- Opposite extrema among the arguments that share elements are joined into one. -/
def joinShared (greatest : Bool) (ts : List Term) : List Term :=
  let isOpposite := fun t : Term => match t with
    | app h _ => h == extremumHead (!greatest)
    | _ => false
  match ts.filter isOpposite with
  | first :: second :: rest =>
    let all := first :: second :: rest
    let common := first.args.filter fun x => all.all fun t => t.args.contains x
    if common.isEmpty then ts
    else
      let differences := all.map fun t =>
        rawExtremum (!greatest) (t.args.filter fun x => !common.contains x)
      let joined :=
        if all.any fun t => t.args.all common.contains then rawExtremum (!greatest) common
        else rawExtremum (!greatest) (common ++ [rawExtremum greatest differences])
      (ts.filter fun t => !isOpposite t) ++ [joined]
  | _ => ts

/-- Opposite extrema that a number among the arguments dominates are dropped. -/
def dropDominated (greatest : Bool) (ts : List Term) : List Term :=
  match ts.filterMap asNumber? with
  | [] => ts
  | q :: qs =>
    let c := qs.foldl (fun a b => if greatest then Rational.larger a b else Rational.smaller a b) q
    ts.filter fun t => match t with
      | app h (num d :: _) =>
        !(h == extremumHead (!greatest) && (if greatest then d < c else c < d))
      | _ => true

def extremum (greatest : Bool) (ts : List Term) : Outcome Term := do
  Outcome.require (ts.all comparable) .unacceptable
  let flat := ts.flatMap fun t => match t with
    | app h as => if h = extremumHead greatest then as else [t]
    | _ => [t]
  let top := special (if greatest then .infinity else .negInfinity)
  let bottom := special (if greatest then .negInfinity else .infinity)
  if flat.contains top then return top
  let distinct := ordered (flat.filter (· ≠ bottom)).eraseDups
  let kept := joinShared greatest (absorbAll greatest distinct.length
    (dropDominated greatest distinct)).eraseDups
  let best := kept.foldl (addContender greatest) []
  return match best with
    | [] => bottom
    | [t] => t
    | ts => app (extremumHead greatest) (ordered ts)

def maximum (ts : List Term) : Outcome Term := extremum true ts

def minimum (ts : List Term) : Outcome Term := extremum false ts

end Term
end Majorant
