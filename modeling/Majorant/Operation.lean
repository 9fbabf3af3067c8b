import Majorant.Evaluation

/-!
# Operations on arbitrary terms

The arithmetic operations and comparisons as they are written in expressions.  Written numbers stay
written numbers among themselves.  An operation with an order of magnitude on its left, or with an order
on its right and a written number or a plain variable on its left, is the operation of the algebra of
magnitudes; every other operation is ordinary arithmetic.
-/

namespace Majorant
namespace Operation
open Term

def written? : Term → Option Rat
  | lit (.int n) => some n
  | lit (.ratio q) => some q
  | lit (.bool b) => some (if b then 1 else 0)
  | lit (.float q) => some q
  | _ => none

def isWritten : Term → Bool
  | lit _ => true
  | _ => false

def writtenResult (a b : Term) (q : Rat) : Term :=
  match a, b with
  | lit (.float _), _ | _, lit (.float _) => lit (.float (Binary64.nearest q))
  | lit (.ratio _), _ | _, lit (.ratio _) => lit (.ratio q)
  | _, _ => lit (.int q.num)

def orderOnRight (a b : Term) : Bool :=
  b.isOrder && !a.isOrder &&
    (isWritten a || (Statement.isNumberVar a && Statement.isOrderVar b) || !a.isQuantity)

def add (a b : Term) : Outcome Term :=
  match written? a, written? b with
  | some p, some q => pure (writtenResult a b (p + q))
  | _, _ =>
    if a.isOrder || orderOnRight a b then do
      let t ← Magnitude.largest [a, b]
      Evaluation.settle t
    else if !((a.isQuantity || (written? a).isSome) && (b.isQuantity || (written? b).isSome)) then
      .fail .mistyped
    else Evaluation.addAll [a, b]

def neg (t : Term) : Outcome Term :=
  match written? t with
  | some q => pure (writtenResult t t (-q))
  | none =>
    if t.isOrder then pure (app .difference [lit (.int 0), t])
    else if t.isQuantity then
      if t.evades then .fail .unanswerable else pure (Term.neg t)
    else .fail .mistyped

def sub (a b : Term) : Outcome Term :=
  match written? a, written? b with
  | some p, some q => pure (writtenResult a b (p - q))
  | _, _ =>
    if a.isOrder || orderOnRight a b then pure (app .difference [a, b])
    else if !((a.isQuantity || (written? a).isSome) && (b.isQuantity || (written? b).isSome)) then
      .fail .mistyped
    else do
      let b ← neg b
      Evaluation.addAll [a, b]

def mul (a b : Term) : Outcome Term :=
  match written? a, written? b with
  | some p, some q => pure (writtenResult a b (p * q))
  | _, _ =>
    if a.isOrder || orderOnRight a b then do
      let t ← Magnitude.multiply [a, b]
      Evaluation.settle t
    else if !((a.isQuantity || (written? a).isSome) && (b.isQuantity || (written? b).isSome)) then
      .fail .mistyped
    else Evaluation.apply .mul [a, b]

def pow (a b : Term) : Outcome Term :=
  if a.isOrder then do
    let t ← Magnitude.toPower [a, b]
    Evaluation.settle t
  else if orderOnRight a b then pure undefined
  else if !((a.isQuantity || (written? a).isSome) && (b.isQuantity || (written? b).isSome)) then
    .fail .mistyped
  else Evaluation.apply .pow [a, b]

/-- A written number is measured, if it is not too large. -/
def measure (q : Rat) : Outcome Rat :=
  if Binary64.overflows q then .fail .overflow else pure (Binary64.nearest q)

/-- The reciprocal of a divisor of an order.  A whole number has a measured one. -/
def reciprocal (t : Term) : Outcome Term :=
  match t with
  | lit (.int n) => do
    let q ← measure n
    if q = 0 then .fail .divisionByZero else pure (lit (.float (Binary64.nearest (1 / q))))
  | lit (.ratio q) => if q = 0 then .fail .divisionByZero else pure (lit (.ratio (1 / q)))
  | _ => pow t (num (-1))

def div (a b : Term) : Outcome Term :=
  if a.isOrder then do
    let b ← reciprocal b
    let t ← Magnitude.multiply [a, b]
    Evaluation.settle t
  else if orderOnRight a b then do
    let b ← pow b (num (-1))
    let t ← Magnitude.multiply [a, b]
    Evaluation.settle t
  else if !((a.isQuantity || (written? a).isSome) && (b.isQuantity || (written? b).isSome)) then
    .fail .mistyped
  else do
    let b ← Evaluation.apply .pow [b, num (-1)]
    if a = one then return b
    Evaluation.apply .mul [a, b]

/-- **Absolute value.**  Orders of magnitude are their own. -/
def abs (t : Term) : Outcome Term :=
  match written? t with
  | some q => pure (writtenResult t t (if q < 0 then -q else q))
  | none =>
    if t.isOrder then pure t
    else if t.isQuantity then Evaluation.apply .abs [t]
    else .fail .mistyped

def compareWritten (r : Rel) (p q : Rat) : Bool :=
  match r with
  | .le => p ≤ q
  | .lt => p < q
  | .ge => q ≤ p
  | .gt => q < p
  | .eq => p = q
  | .ne => p ≠ q

/-- **Written comparisons.**  An order is compared with the order of magnitude of the other side; a
written number on the left changes sides. -/
def compare (r : Rel) (a b : Term) : Outcome Term :=
  match written? a, written? b with
  | some p, some q => pure (lit (.bool (compareWritten r p q)))
  | _, _ =>
    if a.isOrder then do
      let b ← Magnitude.theta b
      Statement.relate r a b
    else if orderOnRight a b then do
      match a with
      | truth _ => .fail .mistyped
      | _ =>
        let a ← Magnitude.theta a
        Statement.relate r.flip b a
    else if isWritten a then
      if isWritten b then .fail .mistyped else Statement.relate r.flip b a
    else if b = lit .absent then .fail .mistyped
    else Statement.relate r a b

end Operation
end Majorant
