import Majorant.Linear.Inequality
import Majorant.Operation

/-!
# Orders of magnitude in logarithmic form

Taking logarithms turns a product of powers into a linear combination, and a comparison of orders into
a linear inequality.
-/

namespace Majorant
namespace Magnitude
open Term

def addExponent (ms : List (Term × Rat)) (m : Term × Rat) : List (Term × Rat) :=
  if ms.any (·.1 == m.1) then ms.map fun p => if p.1 == m.1 then (p.1, p.2 + m.2) else p
  else ms ++ [m]

mutual

/-- **An order as a product of powers**: bases, none of them a product, with their exponents. -/
def monomials (t : Term) : List (Term × Rat) :=
  if t = unit then []
  else match t with
    | app .orderMul as => monomialsList as
    | app .orderPow [b, num q] => (monomials b).map fun m => (m.1, m.2 * q)
    | t => [(t, 1)]

def monomialsList (ts : List Term) : List (Term × Rat) :=
  match ts with
  | [] => []
  | t :: ts => (monomialsList ts).foldl addExponent (monomials t)

end

def senseOf? : Rel → Option Linear.Sense
  | .le => some .leq
  | .lt => some .lt
  | .ge => some .geq
  | .gt => some .gt
  | .eq => some .eq
  | .ne => none

/-- **A comparison of orders as a linear inequality** between logarithms.  There is none for terms that
are only known to differ. -/
def toInequality (hyp : Term) : Outcome (Option (Linear.Inequality Term)) :=
  match hyp.asRel? with
  | some (r, a, b) => do
    let quotient ← Operation.div a b
    return (senseOf? r).map fun s => ⟨monomials quotient, s, 0⟩
  | none => .fail .outOfRange

/-- Does a walk through the extrema of a kind enter the arguments of a head? -/
def entersExtrema : Head → Bool
  | .orderMax | .orderMin | .orderMul | .rel _ => true
  | _ => false

mutual

/-- **The extrema of orders**, of one kind, that occur in a comparison. -/
def extrema (h : Head) (t : Term) : List Term :=
  match t with
  | app .orderPow (b :: _) => extrema h b
  | app g as =>
    (if g = h then [t] else []) ++ if entersExtrema g then extremaList h as else []
  | _ => []

def extremaList (h : Head) (ts : List Term) : List Term :=
  match ts with
  | [] => []
  | t :: ts => extrema h t ++ extremaList h ts

end

def maxima (t : Term) : List Term := (extrema .orderMax t).eraseDups

def minima (t : Term) : List Term := (extrema .orderMin t).eraseDups

end Magnitude
end Majorant
