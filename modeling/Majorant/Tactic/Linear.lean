import Majorant.Linear.Feasibility
import Majorant.Magnitude.Monomial
import Majorant.Tactic.Basic

/-!
# Linear arithmetic

The negation of the goal is added to the comparisons among the hypotheses, and the linear inequalities
that result are refuted.
-/

namespace Majorant

/-- **A term as a linear combination** of terms without coefficient, each of which stands once. -/
def Term.coefficients (t : Term) : List (Term × Rat) :=
  if t = zero then [(zero, 1)] else t.summands.foldl gatherSummand []

namespace Tactic
open Term Proof

def sortLines (ss : List String) : List String := sortBy (fun a b => a ≤ b) ss

def insertTerm (ts : List Term) (t : Term) : List Term := if ts.contains t then ts else ts ++ [t]

/-- Hypotheses that linear arithmetic looks at: comparisons other than `≠`, and declarations. -/
def isLinearHypothesis : Term → Bool
  | app (.rel r) _ => r != .ne
  | t => isDeclaration t

/-- **What has to be refuted**: the hypotheses with the negation of the goal, which for an equation is
one of two strict inequalities. -/
def linearScenarios (s : State) : Outcome (List (List Term)) := do
  let hyps := (s.context.hypotheses.filter isLinearHypothesis).eraseDups
  match s.goal with
  | app (.rel .eq) [a, b] =>
    let below ← Statement.relate .lt a b
    let above ← Statement.relate .lt b a
    return [insertTerm hyps below, insertTerm hyps above]
  | app (.rel _) _ => return [insertTerm hyps (← Statement.not s.goal)]
  | _ => return [hyps]

/-- What a declaration says about its variable: a positive integer is at least one. -/
def declaredInequality? (v : Term) : Option (Linear.Inequality Term) :=
  if v.is .positive then
    if v.is .integer then some ⟨[(v, 1)], .geq, 1⟩ else some ⟨[(v, 1)], .gt, 0⟩
  else if v.is .nonnegative then some ⟨[(v, 1)], .geq, 0⟩
  else none

/-- The linear inequality of a comparison whose sides differ by `d`, if everything in it is real. -/
def differenceInequality? (s : Linear.Sense) (d : Term) : Option (Linear.Inequality Term) :=
  let cs := d.coefficients
  if cs.all fun p => p.1.is .real then
    some ⟨cs.filter (·.1 ≠ one), s, -((cs.find? (·.1 == one)).map (·.2)).getD 0⟩
  else none

def linearInequality? (h : Term) : Outcome (Option (Linear.Inequality Term)) := do
  match h with
  | app .declared [v] => return declaredInequality? v
  | app (.rel r) [a, b] =>
    let d ← Operation.sub a b
    Outcome.require (!d.evades) .unanswerable
    return (Magnitude.senseOf? r).bind fun s => differenceInequality? s d
  | _ => return none

def linearInequalities (hs : List Term) : Outcome (List (Linear.Inequality Term)) := do
  let is ← hs.mapM linearInequality?
  return is.filterMap id

/-- A system of inequalities with the certificate found for it. -/
structure Decided where
  system : List (Linear.Inequality Term)
  certificate : Linear.Certificate Term
deriving Repr

/-- Decide scenarios until one is found to be possible.  Scenarios with a statement that fails are
passed over. -/
def decideScenarios : List (List Term) → Outcome (List Decided)
  | [] => pure []
  | hs :: rest => do
    if hs.contains bot then decideScenarios rest
    else
      let is ← linearInequalities hs
      let c ← Linear.feasibility Term.text is
      if c.isPoint then return [⟨is, c⟩]
      return ⟨is, c⟩ :: (← decideScenarios rest)

def reportLinear (d : Decided) : Outcome Unit := do
  Outcome.say "Checking feasibility of the following inequalities:"
  Outcome.sayAll (sortLines (d.system.map (·.text Term.text)))
  match d.certificate with
  | .point values =>
    Outcome.say "Feasible with the following values:"
    values.forM fun p => Outcome.remark (p.1.text ++ " = " ++ ratText p.2)
  | .multipliers ms =>
    Outcome.say "Infeasible by summing the following:"
    (d.system.zip ms).forM fun (i, m) =>
      if m = 0 then pure ()
      else Outcome.remark (i.text Term.text ++ " multiplied by " ++ ratText m)

def linearOf (verbose : Bool) (s : State) : Outcome (List State) := do
  let scenarios ← linearScenarios s
  let decided ← decideScenarios scenarios
  match decided.find? (·.certificate.isPoint) with
  | some d =>
    if verbose then reportLinear d
    Outcome.say "Linear arithmetic was unable to prove goal."
    return [s]
  | none =>
    if verbose then
      decided.forM reportLinear
      if decided.isEmpty then
        Outcome.say "Conclusion followed tautologically from hypotheses."
    else Outcome.say "Goal solved by linear arithmetic!"
    return []

end Tactic
end Majorant
