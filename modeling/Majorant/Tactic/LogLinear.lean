import Majorant.Magnitude.Bounded
import Majorant.Tactic.Linear
import Majorant.Text.Quoted

/-!
# Linear arithmetic with orders of magnitude

Comparisons of orders of magnitude, or of positive quantities, become linear inequalities between
logarithms.
-/

namespace Majorant
namespace Tactic
open Term Proof

/-- The sign of the comparison of orders that a comparison of quantities gives. -/
def thetaSign : Rel → Outcome String
  | .ne => .fail .unequality
  | .eq => pure "="
  | .le | .lt => pure "<="
  | .ge | .gt => pure ">="

def applyThetaOf (hyp : String) (newName : Option String) (s : State) : Outcome (List State) := do
  match s.context.get? hyp with
  | none => .fail (.noSuchHypothesis hyp)
  | some h =>
    match h.asRel? with
    | none => .fail (.notRelational hyp)
    | some (r, a, b) =>
      let sign ← thetaSign r
      let name := s.fresh (newName.getD (hyp ++ "_theta"))
      let a ← Magnitude.theta a
      let b ← Magnitude.theta b
      let t ← Statement.relateBy sign a b
      Outcome.say ("Adding asymptotic version of " ++ describe hyp h ++ " as " ++ describe name t ++
        ".")
      return [s.put name t]

abbrev LogInequality := Linear.Inequality Term

def logInequality (t : Term) : Outcome LogInequality := do
  match ← Magnitude.toInequality t with
  | some i => return i
  | none => .fail .unanswerable

def warnMixed (order quantity : Term) : Outcome (Option Term) := do
  Outcome.say ("Warning: somehow an order of magnitude " ++ order.text ++
    " is being compared with a non-order of magnitude " ++ quantity.text ++ ".")
  return none

/-- The comparison of the orders of two positive quantities that compare in a given way.  A lower bound
is read with its sides exchanged. -/
def positiveAsymptotic? (r : Rel) (a b : Term) : Outcome (Option Term) := do
  match r with
  | .le | .lt =>
    let a ← Magnitude.theta a
    let b ← Magnitude.theta b
    return some (← Statement.relate .le a b)
  | .ge | .gt =>
    let b ← Magnitude.theta b
    let a ← Magnitude.theta a
    return some (← Statement.relate .ge b a)
  | .eq => .fail .unacceptable
  | .ne => return none

/-- **The comparison of orders that a hypothesis gives**, if any.  That two orders differ cannot be
used. -/
def asymptotic? (h : Term) : Outcome (Option Term) := do
  match h with
  | app .declared [v] =>
    if v.is .positive && v.is .integer then
      let t ← Magnitude.theta v
      return some (← Statement.relate .ge t Magnitude.unit)
    return none
  | app (.rel r) [a, b] =>
    if a.isOrder && b.isOrder then
      if r == .ne then .fail .unanswerable else return some h
    else if a.isOrder then warnMixed a b
    else if b.isOrder then warnMixed b a
    else if a.evades || b.evades then .fail .unanswerable
    else if a.is .positive && b.is .positive then positiveAsymptotic? r a b
    else return none
  | _ => return none

/-- The hypotheses that are looked at, and the negation of the goal. -/
def logHypotheses (s : State) : Outcome (List Term) := do
  let hyps := (s.context.hypotheses.filter fun h => h.isRel || isDeclaration h).eraseDups
  if s.goal.isRel then return insertTerm hyps (← Statement.not s.goal) else return hyps

def extremumDisjunctions (r : Rel) (m : Term) : Outcome (List (List LogInequality)) := do
  let bounds ← m.args.mapM fun a => do logInequality (← Statement.relate r a m)
  let attained ← m.args.mapM fun a => do logInequality (← Statement.relate .eq a m)
  return bounds.map (fun i => [i]) ++ [attained]

/-- A fixed order is that of a constant, and a bounded one is at most that. -/
def sizeDisjunction? (hyps : List Term) (v : Term) : Outcome (Option (List LogInequality)) := do
  if Magnitude.isFixed hyps v then
    return some [← logInequality (← Statement.relate .eq v one)]
  else if Magnitude.isBounded hyps v then
    return some [← logInequality (← Statement.relate .le v one)]
  else return none

/-- **What has to be refuted**: one inequality of each of these lists holds. -/
def disjunctions (splitExtrema : Bool) (s : State) : Outcome (List (List LogInequality)) := do
  let hyps ← logHypotheses s
  let comparisons := (← hyps.mapM asymptotic?).filterMap id
  let direct ← comparisons.mapM fun t => do return [← logInequality t]
  let maxima := if splitExtrema then (comparisons.flatMap Magnitude.maxima).eraseDups else []
  let minima := if splitExtrema then (comparisons.flatMap Magnitude.minima).eraseDups else []
  let above ← maxima.mapM (extremumDisjunctions .le)
  let below ← minima.mapM (extremumDisjunctions .ge)
  let all := direct ++ above.flatten ++ below.flatten
  let vars := Linear.Inequality.allUnknowns all.flatten
  let sizes := (← vars.mapM (sizeDisjunction? s.context.hypotheses)).filterMap id
  return all ++ sizes

def choices {α : Type} : List (List α) → List (List α)
  | [] => [[]]
  | xs :: rest => xs.flatMap fun x => (choices rest).map (x :: ·)

def decideChoices : List (List LogInequality) → Outcome (List Decided)
  | [] => pure []
  | is :: rest => do
    let c ← Linear.feasibility Term.text is
    if c.isPoint then return [⟨is, c⟩]
    return ⟨is, c⟩ :: (← decideChoices rest)

def orderLines (is : List LogInequality) : List String :=
  sortLines (is.map (·.orderText Term.text))

def reportPossible (is : List LogInequality) (values : List (Term × Rat)) : Outcome Unit := do
  Outcome.say "Checking feasibility of the following inequalities:"
  (orderLines is).forM Outcome.remark
  Outcome.say "Feasible with the following values, for an unbounded order of magnitude X:"
  values.forM fun p => Outcome.remark (p.1.text ++ " = X**" ++ ratText p.2)

def reportRefuted (is : List LogInequality) (ms : List Rat) : Outcome Unit := do
  Outcome.say "Checking feasibility of the following inequalities:"
  Outcome.sayAll (orderLines is)
  Outcome.say "Infeasible by multiplying the following:"
  (is.zip ms).forM fun (i, m) =>
    if m = 0 then pure ()
    else Outcome.remark (i.orderText Term.text ++ " raised to power " ++ ratText m)

def reportChoice (d : Decided) : Outcome Unit :=
  match d.certificate with
  | .point values => reportPossible d.system values
  | .multipliers ms => reportRefuted d.system ms

def linesLe : List String → List String → Bool
  | [], _ => true
  | _ :: _, [] => false
  | a :: as, b :: bs => if a = b then linesLe as bs else decide (a < b)

def sortDecided (ds : List Decided) : List Decided :=
  sortBy (fun a b => linesLe (orderLines a.system) (orderLines b.system)) ds

def announce (lists : List (List LogInequality)) : Outcome Unit := do
  Outcome.say ("Identified the following disjunctions of asymptotic inequalities " ++
    "that we need to obtain a contradiction from:")
  Outcome.sayAll (sortLines (lists.map fun is => Text.list (is.map (·.orderText Term.text))))

/-- The state stays if a choice is possible; otherwise nothing is left to prove. -/
def conclude (verbose : Bool) (s : State) (decided : List Decided) : Outcome (List State) := do
  match decided.find? (·.certificate.isPoint) with
  | some d =>
    if verbose then reportChoice d
    else Outcome.say "Log-linear arithmetic was unable to prove goal."
    return [s]
  | none =>
    if verbose then
      (sortDecided decided).forM reportChoice
      if decided.isEmpty then
        Outcome.say "Conclusion followed tautologically from hypotheses."
    else Outcome.say "Goal solved by log-linear arithmetic!"
    return []

def logLinearOf (verbose splitExtrema : Bool) (s : State) : Outcome (List State) := do
  if s.context.statements.contains bot || s.goal = top then
    Outcome.say "Goal trivially follows from hypotheses."
    return []
  let lists ← disjunctions splitExtrema s
  if verbose then announce lists
  conclude verbose s (← decideChoices (choices lists))

end Tactic
end Majorant
