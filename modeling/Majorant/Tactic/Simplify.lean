import Majorant.Simplifier
import Majorant.Tactic.Basic

/-!
# Simplification tactics
-/

namespace Majorant

namespace SignFact
open Term Proof

def adjective : SignFact → String
  | .positive => "positive"
  | .nonnegative => "nonnegative"
  | .nonzero => "nonzero"

def property : SignFact → Property
  | .positive => .positive
  | .nonnegative => .nonnegative
  | .nonzero => .nonzero

/-- Does the fact follow from the hypotheses?  That a variable and zero differ as terms is taken as
enough for it not to vanish. -/
def followsFor (fact : SignFact) (v : Term) (s : State) : Outcome Bool := do
  match fact with
  | .positive => s.test (← Operation.compare .gt v (lit (.int 0))) true
  | .nonnegative => s.test (← Operation.compare .ge v (lit (.int 0))) true
  | .nonzero => pure true

/-- The kind of an integer, of a rational and of a real variable with a given sign. -/
def kinds : SignFact → Kind × Kind × Kind
  | .positive => (.posInt, .posRat, .posReal)
  | .nonnegative => (.nonnegInt, .nonnegRat, .nonnegReal)
  | .nonzero => (.nonzeroInt, .nonzeroRat, .nonzeroReal)

def sharpen (fact : SignFact) (name : String) (v : Term) : Outcome Kind :=
  if v.is .integer then pure fact.kinds.1
  else if v.is .rational then pure fact.kinds.2.1
  else if v.is .real then pure fact.kinds.2.2
  else match fact with
    | .nonnegative => .fail (.provenNonnegative name)
    | _ => .fail (.provenPositive name)

end SignFact

namespace Tactic
open Term Proof

/-- Simplify one hypothesis after the other.  `none` says that one of them failed. -/
def simplifyHypotheses (thorough : Bool) : Context → Context → Outcome (Option Context)
  | [], current => pure (some current)
  | (name, h) :: rest, current => do
    let others := ((current.filter fun p => !(p.1 == name)).map (·.2)).eraseDups
    let h ← Simplifier.simplify thorough others h
    if h = top then simplifyHypotheses thorough rest (current.erase name)
    else if h = bot then
      Outcome.say "Goal solved by _ex falso quodlibet_."
      return none
    else simplifyHypotheses thorough rest (current.put name h)

/-- Simplify the hypotheses of `start` and the goal of `current`, and do so again if asked until the
state is `start`, at most `fuel` times. -/
def simplifyPasses (thorough again : Bool) : Nat → State → State → Outcome (List State)
  | 0, _, current => pure [current]
  | n + 1, start, current => do
    match ← simplifyHypotheses thorough start.context current.context with
    | none => return []
    | some context =>
      let goal ← Simplifier.simplify thorough context.hypotheses.eraseDups current.goal
      if goal = top then
        Outcome.say "Goal solved!"
        return []
      let next : State := ⟨goal, context⟩
      if !again || next.same start then return [next]
      simplifyPasses thorough again n start next

def simplifyAllOf (thorough again : Bool) (s : State) : Outcome (List State) :=
  simplifyPasses thorough again 16 s s

def findTarget (s : State) : Target → Outcome (String × Term)
  | .named name => do return (name, ← s.lookup name)
  | .term t => do return (← s.nameOf t, t)

/-- **Note the sign of a variable in its kind**, if it follows from the hypotheses. -/
def noteSignOf (fact : SignFact) (target : Target) (s : State) : Outcome (List State) := do
  let (name, v) ← findTarget s target
  if v.is fact.property then
    Outcome.say (name ++ " is already a " ++ fact.adjective ++ " type.")
    return [s]
  if !(← fact.followsFor v s) then
    Outcome.say ("Cannot prove " ++ name ++ " is " ++ fact.adjective ++ ".")
    return [s]
  let new : Variable := ⟨name, ← fact.sharpen name v⟩
  Outcome.say (name ++ " is now of type " ++ (var new).typeName ++ ".")
  let context ← s.context.mapM fun p => do
    if p.1 == name then return (name, declare new)
    return (p.1, ← Substitution.replace v (var new) p.2)
  let goal ← Substitution.replace v (var new) s.goal
  if goal = top then
    Outcome.say "Goal solved!"
    return []
  return [⟨goal, context⟩]

def allOrders : List Ordering := [.lt, .eq, .gt]

def ordersOf : Rel → List Ordering
  | .lt => [.lt]
  | .le => [.eq, .lt]
  | .gt => [.gt]
  | .ge => [.eq, .gt]
  | .eq => [.eq]
  | .ne => [.lt, .gt]

/-- How `a` and `c` may compare when it is known how `a` and `b`, and `b` and `c`, compare. -/
def composeOrders : Ordering → Ordering → List Ordering
  | .eq, o => [o]
  | o, .eq => [o]
  | .lt, .lt => [.lt]
  | .gt, .gt => [.gt]
  | _, _ => allOrders

def extendOrders (os : List Ordering) (r : Rel) : List Ordering :=
  (os.flatMap fun o => (ordersOf r).flatMap (composeOrders o)).eraseDups

def chainOrders (rs : List Rel) : List Ordering := rs.foldl extendOrders [.eq]

def chainLinks : Term → Term → List Rel → List Term → Outcome (List Term)
  | _, _, [], _ => pure []
  | a, b, r :: rs, ts => do
    let (next, rest) := match ts with
      | [] => (b, [])
      | t :: ts => (t, ts)
    let link ← Statement.relate r a next
    return link :: (← chainLinks next b rs rest)

/-- **Prove a comparison by a chain of others**, whose relations have to imply it. -/
def chainOf (c : Chain) (s : State) : Outcome (List State) := do
  match s.goal.asRel? with
  | none => .fail (.goalNotRelational s.goal)
  | some (r, a, b) =>
    Outcome.require ((chainOrders c.relations).all (ordersOf r).contains)
      (.calcNotImplied c.text s.goal)
    let links ← chainLinks a b c.relations c.terms
    match links with
    | [link] =>
      if link = s.goal then Outcome.say "No change to goal."
      else Outcome.say ("Goal strengthened to " ++ link.text ++ ".")
    | _ => Outcome.say ("Split into goals " ++ commas (links.map Term.text) ++ ".")
    return links.map s.withGoal

end Tactic
end Majorant
