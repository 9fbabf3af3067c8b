import Majorant.Statement.Minimal
import Majorant.Term.Expand

/-!
# Reduced forms

A comparison of linear terms is reduced by dividing out the common size of its coefficients and
collecting numbers on the right; a comparison whose sides differ by nothing is decided.
-/

namespace Majorant
namespace Statement
open Term

def addLinear (cs : List (Term × Rat)) (v : Term) (c : Rat) : List (Term × Rat) :=
  if cs.any (·.1 == v) then cs.map fun p => if p.1 == v then (v, p.2 + c) else p else cs ++ [(v, c)]

def linearForm? (t : Term) : Option (List (Term × Rat) × Rat) :=
  (t.summands.flatMap fun s => match s.splitCoeff with
    | (c, app .add as) => as.map (scaleSummand c)
    | _ => [s]).foldl (fun acc s => acc.bind fun (cs, k) =>
      match s.splitCoeff with
      | (c, var v) => some (addLinear cs (var v) c, k)
      | (c, r) => if r = one then some (cs, k + c) else none) (some ([], 0))

/-- The greatest rational number of which all given ones are whole multiples. -/
def rationalGcd (qs : List Rat) : Rat :=
  let den := qs.foldl (fun d q => Nat.lcm d q.den) 1
  let num := qs.foldl (fun g q => Nat.gcd g (q * (den : Rat)).num.natAbs) 0
  (num : Rat) / den

def realVariables (t : Term) : List Term :=
  ordered ((t.freeVariables.map var).eraseDups.filter fun v => !v.isNot .real)

def solveSingle (r : Rel) (x : Term) (d : Term) : Outcome (Option Term) :=
  match linearForm? d with
  | some (cs, k) =>
    let m := ((cs.find? (·.1 == x)).map (·.2)).getD 0
    if m = 0 then some <$> relate r (num k) zero
    else if m < 0 then some <$> relate r (num (-k / m)) x
    else some <$> relate r x (num (-k / m))
  | none =>
    let e := expand d
    let (k, rest) := match e with
      | num q => (q, zero)
      | app .add (num q :: ts) => (q, ofSummands ts)
      | t => ((0 : Rat), t)
    let monomial := fun (s : Term) => match s.splitCoeff with
      | (c, app .pow [b, num q]) => if b = x && q.den = 1 && q > 0 then some c else none
      | (c, v) => if v = x then some c else none
    if rest = zero then .fail .mistyped
    else if rest.summands.all fun s => (monomial s).isSome then
      let g := rationalGcd (rest.summands.filterMap monomial)
      some <$> relate r (sum (rest.summands.map (scaleSummand (1 / g)))) (num (-k / g))
    else pure none

/-- Bring a comparison in several variables to coefficients without common divisor. -/
def solveSeveral (r : Rel) (xs : List Term) (d : Term) : Outcome (Option Term) :=
  match linearForm? d with
  | some (cs, k) =>
    let coeffs := xs.map fun x => (x, ((cs.find? (·.1 == x)).map (·.2)).getD 0)
    let g := rationalGcd (coeffs.map (·.2))
    let parts := (coeffs.filter (·.2 ≠ 0)).map fun (x, c) => scaleSummand (c / g) x
    if g = 0 then some <$> relate r (num k) zero
    else if k ≠ 0 then some <$> relate r (sum parts) (num (-k / g))
    else match parts with
      | [] => pure none
      | p :: ps => some <$> relate r p (Term.neg (sum ps))
  | none => pure none

/-- **The reduced form of a comparison**, unless it is much longer. -/
def reduceComparison (t : Term) : Outcome Term :=
  match t with
  | app (.rel r) [a, b] => do
    if !(a.isQuantity && b.isQuantity) then return t
    let ordinary := !a.isOrder && !b.isOrder && !a.evades && !b.evades
    let d := if ordinary then sub a b else zero
    if ordinary && expand d = zero then
      relate r zero zero
    else
      let c := canonical t
      let solved ← match c.asRel? with
        | some (r', a', b') =>
          if !ordinary then pure none
          else match realVariables c with
            | [] => pure none
            | [x] => solveSingle r' x (sub a' b')
            | xs => solveSeveral r' xs (sub a' b')
        | none => pure none
      let result := canonical (solved.getD c)
      return if 10 * result.operations < 17 * t.operations then result else t
  | _ => return t

mutual

def reduceAtoms : Term → Outcome Term
  | app .and as => do conj (← reduceAtomsList as)
  | app .or as => do disj (← reduceAtomsList as)
  | app .not (a :: _) => do not (← reduceAtoms a)
  | t => reduceComparison t

def reduceAtomsList : List Term → Outcome (List Term)
  | [] => pure []
  | t :: ts => do
    let t ← reduceAtoms t
    let ts ← reduceAtomsList ts
    return t :: ts

end

def minimalReduced (t : Term) : Outcome Term := do
  minimal (← reduceAtoms t)

/-- **The reduced form of a statement.**  Other terms stay as they are. -/
def reduced (t : Term) : Outcome Term :=
  match t with
  | app (.rel _) _ => reduceComparison t
  | app .and _ | app .or _ | app .not _ => minimalReduced t
  | _ => pure t

end Statement
end Majorant
