import Majorant.Statement.Reduction
import Majorant.Statement.Split
import Majorant.Tactic.Basic

/-!
# Propositional tactics
-/

namespace Majorant
namespace Tactic
open Term Proof

def listed (ts : List Term) : String := commas (ts.map Term.text)

def splitGoalOf (s : State) : Outcome (List State) := do
  match ← Statement.conjuncts s.goal with
  | some ts =>
    Outcome.say ("Split goal into " ++ listed ts)
    return ts.map s.withGoal
  | none =>
    Outcome.say (s.goal.text ++ " cannot be split.")
    return [s]

/-- Close a goal that follows at once from a hypothesis. -/
def trivialOf (s : State) : Outcome (List State) := do
  if ← s.test s.goal true then
    Outcome.say ("Goal " ++ s.goal.text ++ " follows trivially from the hypotheses.")
    return []
  else
    Outcome.say ("Goal " ++ s.goal.text ++ " does not follow trivially from the hypotheses.")
    return [s]

/-- Exchange the negations of the goal and of a hypothesis.  Without the hypothesis the goal is negated
and the name stands for an assumption that fails. -/
def contraposeOf (hyp : String) (s : State) : Outcome (List State) := do
  match s.context.get? hyp with
  | some h =>
    Outcome.require h.isStatement (.notProposition (describe hyp h))
    Outcome.say ("Contraposing " ++ describe hyp h ++ " with " ++ s.goal.text ++ ".")
    let goal ← Statement.minimalReduced (← Statement.not h)
    let assumed ← Statement.minimalReduced (← Statement.not s.goal)
    return [(s.withGoal goal).put hyp assumed]
  | none =>
    Outcome.say ("Proving " ++ s.goal.text ++ " by contradiction.")
    let goal ← Statement.not s.goal
    return [(s.withGoal goal).put hyp bot]

/-- Add several statements under given names, and under a fallback name when these are used up. -/
def addAll (fallback : String) : List String → List Term → State → State
  | _, [], s => s
  | [], t :: ts, s => addAll fallback [] ts (s.add fallback t).2
  | n :: ns, t :: ts, s => addAll fallback ns ts (s.add n t).2

def splitHypothesisOf (hyp : String) (names : List String) (s : State) : Outcome (List State) := do
  match s.context.get? hyp with
  | some h =>
    match ← Statement.conjuncts h with
    | some ts =>
      Outcome.say ("Splitting " ++ describe hyp h ++ " into " ++ listed ts ++ ".")
      let rest ← s.remove hyp
      return [addAll hyp names ts rest]
    | none =>
      Outcome.say ("Cannot split " ++ describe hyp h ++ ".")
      return [s]
  | none =>
    Outcome.say ("Cannot find hypothesis " ++ hyp ++ ".")
    return [s]

def splitCasesOf (hyp : String) (s : State) : Outcome (List State) := do
  match s.context.get? hyp with
  | some h =>
    match ← Statement.disjuncts h with
    | some ts =>
      Outcome.say ("Splitting " ++ describe hyp h ++ " into cases " ++ listed ts ++ ".")
      return ts.map (s.put hyp)
    | none =>
      Outcome.say ("Unable to split " ++ h.text ++ " into cases.")
      return [s]
  | none =>
    Outcome.say ("Cannot find hypothesis " ++ hyp ++ ".")
    return [s]

/-- One goal under a statement and one under its negation. -/
def byCasesOf (t : Term) (name : String) (s : State) : Outcome (List State) := do
  Outcome.require t.isStatement (.notProposition t.text)
  let name := s.fresh name
  let opposite ← Statement.not t
  Outcome.say ("Splitting into cases " ++ describe name t ++ " and " ++ describe name opposite ++ ".")
  return [s.put name t, s.put name opposite]

def optionOf (n : Nat) (s : State) : Outcome (List State) := do
  match ← Statement.disjuncts s.goal with
  | none => .fail (.noDisjunction s.goal)
  | some ts =>
    match ts[n - 1]? with
    | none => .fail (.tooFewDisjuncts s.goal ts.length)
    | some t =>
      Outcome.say ("Replacing goal " ++ s.goal.text ++ " with option " ++ toString n ++ ": " ++
        t.text ++ ".")
      return [s.withGoal t]

/-- Prove a statement first and use it then.  What follows at once is not asked for. -/
def claimOf (t : Term) (name : String) (s : State) : Outcome (List State) := do
  Outcome.require (← s.defines t) (.notDefined t)
  Outcome.require t.isStatement (.notProposition t.text)
  let first := s.withGoal t
  let second := s.put (s.fresh name) t
  let holds ← first.test first.goal false
  let enough ← second.test second.goal false
  match holds, enough with
  | true, true =>
    Outcome.say ("Goal follows trivially after observing " ++ t.text ++ ".")
    return []
  | true, false =>
    Outcome.say ("Observe that " ++ t.text ++ " holds.")
    return [second]
  | false, true =>
    Outcome.say ("Clearly, it suffices to show " ++ t.text ++ ".")
    return [first]
  | false, false =>
    Outcome.say ("We claim that " ++ t.text ++ ".")
    return [first, second]

end Tactic
end Majorant
