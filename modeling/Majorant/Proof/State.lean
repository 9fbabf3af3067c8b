import Majorant.Statement.Entailment
import Majorant.Statement.Scope

/-!
# Proof states

A proof state is a goal together with named hypotheses.  A hypothesis is a statement or the declaration
of a variable.  Names are kept in the order in which they were introduced, and each name stands once.
-/

namespace Majorant
namespace Proof
open Term

def declare (v : Variable) : Term := app .declared [var v]

def isDeclaration : Term → Bool
  | app .declared _ => true
  | _ => false

def declared? : Term → Option Term
  | app .declared [t] => some t
  | _ => none

def describe (name : String) (h : Term) : String := name ++ ": " ++ h.text

/-- Named hypotheses in the order of their introduction. -/
abbrev Context := List (String × Term)

namespace Context

def names (c : Context) : List String := c.map (·.1)

def get? (c : Context) (name : String) : Option Term := (c.find? (·.1 == name)).map (·.2)

def contains (c : Context) (name : String) : Bool := c.any (·.1 == name)

/-- Put a hypothesis under a name: a name in use keeps its place. -/
def put (c : Context) (name : String) (h : Term) : Context :=
  if c.contains name then c.map (fun p => if p.1 == name then (name, h) else p) else c ++ [(name, h)]

def erase (c : Context) (name : String) : Context := c.filter (fun p => !(p.1 == name))

/-- Prime a name until it is not in use, at most `fuel` times. -/
def prime : Nat → Context → String → String
  | 0, _, name => name
  | n + 1, c, name => if c.contains name then prime n c (name ++ "'") else name

/-- **The first variant of a name that is not in use.** -/
def fresh (c : Context) (name : String) : String := prime (c.length + 1) c name

def declaredVariables (c : Context) : List Term := c.filterMap fun p => declared? p.2

def hypotheses (c : Context) : List Term := c.map (·.2)

def statements (c : Context) : List Term := c.hypotheses.filter fun h => !isDeclaration h

def lines (c : Context) : List String := c.map fun p => describe p.1 p.2

def same (c d : Context) : Bool :=
  c.length == d.length && c.all fun p => d.get? p.1 == some p.2

end Context

/-- Named hypotheses and a goal. -/
structure State where
  goal : Term
  context : Context
deriving DecidableEq, Repr

namespace State

def withGoal (s : State) (goal : Term) : State := { s with goal := goal }

def put (s : State) (name : String) (h : Term) : State := { s with context := s.context.put name h }

def fresh (s : State) (name : String) : String := s.context.fresh name

def declaredVariables (s : State) : List Term := s.context.declaredVariables

def same (s t : State) : Bool := s.goal = t.goal && s.context.same t.context

def remove (s : State) (name : String) : Outcome State :=
  match s.context.get? name with
  | none => .fail (.hypothesisMissing name)
  | some h =>
    if isDeclaration h then .fail (.declarationRemoved name)
    else pure { s with context := s.context.erase name }

def hypothesis (s : State) (name : String) : Outcome Term :=
  match s.context.get? name with
  | none => .fail (.hypothesisMissing name)
  | some h => if isDeclaration h then .fail (.isDeclaration name) else pure h

def lookup (s : State) (name : String) : Outcome Term :=
  match s.context.get? name with
  | none => .fail (.variableMissing name)
  | some h => match declared? h with
    | some v => pure v
    | none => .fail (.isHypothesis name)

def nameOf (s : State) (v : Term) : Outcome String :=
  match s.context.find? (fun p => declared? p.2 == some v) with
  | some p => pure p.1
  | none => .fail (.variableUnknown v)

/-- Give a hypothesis another name; it moves to the end. -/
def rename (s : State) (old new : String) : Outcome (String × State) :=
  match s.context.get? old with
  | none => .fail (.renameMissing old)
  | some h =>
    if s.context.contains new then .fail (.nameTaken new)
    else if isDeclaration h then .fail (.declarationRenamed old)
    else
      let rest := s.context.erase old
      let name := rest.fresh new
      pure (name, { s with context := rest.put name h })

def add (s : State) (name : String) (h : Term) : String × State :=
  let name := s.fresh name
  (name, s.put name h)

def test (s : State) (goal : Term) (verbose : Bool) : Outcome Bool :=
  Statement.test s.context.hypotheses goal verbose

/-- **The state as it is written**: the hypotheses, then the goal. -/
def text (s : State) : String := "\n".intercalate (s.context.lines ++ ["|- " ++ s.goal.text])

end State
end Proof
end Majorant
