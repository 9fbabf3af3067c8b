import Majorant.Operation

/-!
# Taking statements apart

A conjunction splits into its members, and so do comparisons with a maximum or a minimum: to lie below
a minimum is to lie below every one of its arguments.
-/

namespace Majorant
namespace Statement
open Term

def asMaximum? : Term → Option (List Term)
  | app .max as | app .orderMax as => some as
  | _ => none

def asMinimum? : Term → Option (List Term)
  | app .min as | app .orderMin as => some as
  | _ => none

def eachRight (r : Rel) (a : Term) (bs : List Term) : Outcome (Option (List Term)) := do
  return some (← bs.mapM (relate r a ·))

def eachLeft (r : Rel) (as : List Term) (b : Term) : Outcome (Option (List Term)) := do
  return some (← as.mapM (relate r · b))

/-- An extremum is attained: comparisons with all arguments and equality with one of them. -/
def attained (r : Rel) (a : Term) (bs : List Term) : Outcome (Option (List Term)) := do
  let pairs ← bs.mapM fun b => do
    let c ← Operation.compare r a b
    let e ← relate .eq a b
    return (c, e)
  let d ← disj (pairs.map (·.2))
  return some (pairs.map (·.1) ++ [d])

/-- **The conjuncts of a statement**, or `none` if it does not split. -/
def conjuncts (t : Term) : Outcome (Option (List Term)) :=
  match t with
  | app .and as => pure (some as)
  | app (.rel .eq) [a, b] =>
    match asMaximum? b, asMinimum? b with
    | some bs, _ => attained .ge a bs
    | none, some bs => attained .le a bs
    | none, none => pure none
  | app (.rel .ne) _ => pure none
  | app (.rel r) [a, b] =>
    let upward := r == .le || r == .lt
    let right := if upward then asMinimum? b else asMaximum? b
    let left := if upward then asMaximum? a else asMinimum? a
    match right, left with
    | some bs, _ => eachRight r a bs
    | none, some as => eachLeft r as b
    | none, none => pure none
  | _ => pure none

/-- **The disjuncts of a statement**, or `none` if it does not split. -/
def disjuncts (t : Term) : Outcome (Option (List Term)) :=
  match t with
  | app .or as => pure (some as)
  | app (.rel .eq) _ | app (.rel .ne) _ => pure none
  | app (.rel r) [a, b] =>
    let upward := r == .le || r == .lt
    let right := if upward then asMaximum? b else asMinimum? b
    let left := if upward then asMinimum? a else asMaximum? a
    match right, left with
    | some bs, _ => eachRight r a bs
    | none, some as => eachLeft r as b
    | none, none => pure none
  | app .littlewoodPaley as => do return some (← Magnitude.interactionCases as)
  | _ => pure none

end Statement
end Majorant
