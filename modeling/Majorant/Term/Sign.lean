import Majorant.Term.Product

/-!
# Comparing quantities

Two quantities are compared through the sign of their difference, as far as the facts about it tell.
-/

namespace Majorant
namespace Term

/-- **Is `a` at least `b`?**  Open when the facts about the difference do not tell. -/
def atLeast? (a b : Term) : Option Bool :=
  match a, b with
  | num p, num q => some (q ≤ p)
  | _, _ =>
    if a.is .extReal && b.is .extReal then
      if (a.is .infinite && a.is .extPositive) || (b.is .infinite && b.is .extNegative) then
        some true
      else match sub a b with
        | special .indeterminate => none
        | d => d.ask .extNonnegative
    else none

/-- Are two quantities that are not magnitudes equal?  Infinite ones are told apart by sign. -/
def equalQuantities? (a b : Term) : Option Bool :=
  if a.is .infinite || b.is .infinite then
    match a.ask .infinite, b.ask .infinite with
    | some true, some true =>
      if a.is .extReal && b.is .extReal then
        match a.ask .extPositive, b.ask .extPositive with
        | some p, some q => some (p == q)
        | _, _ => none
      else none
    | some _, some _ => some false
    | _, _ => none
  else
    let d := sub a b
    match d.ask .zero with
    | some true => some true
    | some false => if d.is .commutative then some false else none
    | none => none

/-- **Are two terms equal?**  Equal terms are; different truth values are not; a statement never
equals a quantity that is no variable; two quantities are compared through their difference. -/
def equal? (a b : Term) : Option Bool :=
  if a = b then some true
  else match a, b with
    | truth _, truth _ => some false
    | _, _ =>
      let isVar := fun t : Term => match t with | var _ => true | _ => false
      if !(isVar a || isVar b) && a.isStatement != b.isStatement then some false
      else if a.isQuantity && b.isQuantity && !a.isOrder && !b.isOrder then equalQuantities? a b
      else none

def wholePowers (t : Term) : List (Term × Int) :=
  t.factors.filterMap fun f =>
    match f with
    | num _ => none
    | app .pow [b, num q] => if q.den = 1 then some (b, q.num) else some (f, 1)
    | _ => some (f, 1)

/-- **Take out what the summands share**: the powers that divide every summand stand in front. -/
def takeOut (t : Term) : Term :=
  match t with
  | app .add (a :: as) =>
    let common := (wholePowers a).filterMap fun (b, n) =>
      let exps := as.map fun s => ((wholePowers s).find? (·.1 == b)).map (·.2)
      if exps.all (·.isSome) then
        let least := exps.foldl (fun m e => match e with | some k => min m k | none => m) n
        if least > 0 then some (b, least) else none
      else none
    match common with
    | [] => t
    | _ =>
      let outer := common.map fun (b, n) => power b (num n)
      let inverse := common.map fun (b, n) => power b (num (-n))
      product (outer ++ [sum ((a :: as).map fun s => product (s :: inverse))])
  | _ => t

end Term
end Majorant
