import Majorant.Term.Product

/-!
# The algebra of orders of magnitude

Orders of magnitude are added by taking the larger one, multiplied by adding exponents, and raised to
rational powers.  The functions here work on terms that are orders already; arguments keep the order
in which they are given.
-/

namespace Majorant
namespace Magnitude
open Term

def unit : Term := app .theta [one]

/-- An extremum of orders: repetitions are dropped, a single order is itself. -/
def extremum (h : Head) (ts : List Term) : Term :=
  match ts.eraseDups with
  | [t] => t
  | ts => app h ts

/-- Nested applications of a head are spread out, one level deep. -/
def spread (h : Head) (ts : List Term) : List Term :=
  ts.flatMap fun t => match t with
    | app g as => if g = h then as else [t]
    | _ => [t]

def join (ts : List Term) : Term := extremum .orderMax (spread .orderMax ts)

def meet (ts : List Term) : Term := extremum .orderMin (spread .orderMin ts)

/-- A product as it stands; no factors make the unit, a single one is itself. -/
def rawTimes : List Term → Term
  | [] => unit
  | [t] => t
  | ts => app .orderMul ts

def baseExponent : Term → Term × Term
  | app .orderPow [b, e] => (b, e)
  | t => (t, one)

/-- Factors gathered by base, in order of first appearance. -/
def gather (powers : List (Term × Term)) (t : Term) : List (Term × Term) :=
  if t = unit then powers
  else
    let (b, e) := baseExponent t
    if powers.any (·.1 == b) then
      powers.map fun p => if p.1 == b then (b, sum [p.2, e]) else p
    else powers ++ [(b, e)]

/-- A power as it stands: exponent zero gives the unit, exponent one the base. -/
def rawPower (b e : Term) : Term :=
  if e = zero then unit
  else if e = one then b
  else if b = unit then unit
  else app .orderPow [b, e]

def times (ts : List Term) : Term :=
  let powers := (spread .orderMul ts).foldl gather []
  rawTimes ((powers.filter (·.2 ≠ zero)).map fun p => rawPower p.1 p.2)

/-- The outermost head of an order, evaluated; `raise` evaluates a power. -/
def refreshWith (raise : Term → Term → Term) : Term → Term
  | app .orderMax as => join as
  | app .orderMin as => meet as
  | app .orderMul as => times as
  | app .orderPow (b :: e :: _) => raise b e
  | t => t

/-- A power of a factor, which is evaluated before and after. -/
def raiseFactorWith (raise : Term → Term → Term) (t e : Term) : Term :=
  refreshWith raise (rawPower (refreshWith raise t) e)

/-- A power of an order, in a limited number of steps: the exponents of powers are multiplied, and what
is left is evaluated twice; products spread the exponent over their factors. -/
def raiseAux : Nat → Term → Term → Term
  | 0, b, e => app .orderPow [b, e]
  | n + 1, b, e =>
    match b with
    | app .orderPow (c :: f :: _) =>
      refreshWith (raiseAux n) (refreshWith (raiseAux n) (rawPower c (product [e, f])))
    | app .orderMul as => times (as.map fun a => raiseFactorWith (raiseAux n) a e)
    | _ => app .orderPow [b, e]

/-- **A power of an order.**  A step enters a product or a power in the base, so their number is bounded
by its size. -/
def raise (b e : Term) : Term :=
  if e = zero then unit
  else if e = one then b
  else if b = unit then unit
  else raiseAux (2 * b.size) b e

mutual

/-- **The order of magnitude of a positive quantity.**  Constants are of order one; sums, maxima,
products of positive parts and rational powers are taken apart. -/
def ofPositive (t : Term) : Term :=
  if t.isOrder then t
  else if t.isNumber then unit
  else match t with
    | app .add as => if as.all (·.is .positive) then join (ofPositiveList as) else app .theta [t]
    | app .max as => if as.all (·.is .positive) then join (ofPositiveList as) else app .theta [t]
    | app .mul as => if as.all (·.is .positive) then times (ofPositiveList as) else app .theta [t]
    | app .pow [b, e] =>
      if b.is .positive && e.isNumber && e.is .rational then raise (ofPositive b) e
      else app .theta [t]
    | _ => app .theta [t]

def ofPositiveList : List Term → List Term
  | [] => []
  | t :: ts => ofPositive t :: ofPositiveList ts

end

end Magnitude
end Majorant
