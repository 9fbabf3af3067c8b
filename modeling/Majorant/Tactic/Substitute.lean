import Majorant.Expression
import Majorant.Simplifier
import Majorant.Tactic.Basic

/-!
# Substitution tactics
-/

namespace Majorant
namespace Tactic
open Term Proof

def kindOf (t : Term) : Outcome String :=
  if Operation.isWritten t || t.evades then .fail .unanswerable else pure t.typeName

def newVariable (name : String) (t : Term) (s : State) : Outcome Variable := do
  Outcome.require (← s.defines t) (.notDefined t)
  Variable.named (← kindOf t) (s.fresh name)

def define (name : String) (v : Variable) (t : Term) (old new : State) : Outcome State := do
  let equation ← Statement.relate .eq (var v) t
  return new.put (old.fresh (name ++ "_def")) equation

def introduceOf (name : String) (t : Term) (s : State) : Outcome (List State) := do
  let v ← newVariable name t s
  Outcome.say ("Letting " ++ v.name ++ " := " ++ t.text ++ ".")
  return [← define name v t s (s.put v.name (declare v))]

def replaceInContext (old new : Term) (c : Context) : Outcome Context :=
  c.mapM fun p => do
    if isDeclaration p.2 then return p
    return (p.1, ← Substitution.replace old new p.2)

def abbreviateOf (name : String) (t : Term) (s : State) : Outcome (List State) := do
  let v ← newVariable name t s
  Outcome.say ("Setting " ++ v.name ++ " := " ++ t.text ++ ".")
  let context ← replaceInContext t (var v) s.context
  let goal ← Substitution.replace t (var v) s.goal
  return [← define name v t s (State.put ⟨goal, context⟩ v.name (declare v))]

def equationSides (hyp : String) (reversed : Bool) (s : State) : Outcome (Term × Term) :=
  match s.context.get? hyp with
  | none => .fail (.noSuchHypothesis hyp)
  | some h =>
    match h with
    | app (.rel .eq) [a, b] => pure (if reversed then (b, a) else (a, b))
    | _ => .fail (.notEquality hyp)

def reportSubstitution (hyp : String) (reversed : Bool) (before after : Term) : Outcome Unit :=
  if after = before then pure ()
  else Outcome.say ("Substituted " ++ hyp ++ (if reversed then " in reverse" else "") ++
    " to replace " ++ before.text ++ " with " ++ after.text ++ ".")

def substitutionTarget (target : Option String) (s : State) : Outcome Term :=
  match target with
  | none => pure s.goal
  | some name =>
    match s.context.get? name with
    | none => .fail (.noSuchHypothesis name)
    | some h => if isDeclaration h then .fail .declarationTarget else pure h

def substituteOf (hyp : String) (target : Option String) (reversed : Bool) (s : State) :
    Outcome (List State) := do
  let (a, b) ← equationSides hyp reversed s
  if target = some hyp then
    Outcome.say "Warning: substituting a hypothesis into itself will lose information."
  let before ← substitutionTarget target s
  let after ← Simplifier.simplify false [] (← Substitution.replace a b before)
  reportSubstitution hyp reversed before after
  if after = before then Outcome.say "Substitution had no effect."
  match target with
  | none =>
    if after = top then
      Outcome.say "Goal proved!"
      return []
    else return [s.withGoal after]
  | some name => return [s.put name after]

def substituteInContext (hyp : String) (reversed : Bool) (a b : Term) (c : Context) :
    Outcome Context :=
  c.mapM fun p => do
    if isDeclaration p.2 || p.1 == hyp then return p
    let after ← Substitution.replace a b p.2
    reportSubstitution hyp reversed p.2 after
    return (p.1, after)

def substituteAllOf (hyp : String) (reversed : Bool) (s : State) : Outcome (List State) := do
  let (a, b) ← equationSides hyp reversed s
  let context ← substituteInContext hyp reversed a b s.context
  let goal ← Substitution.replace a b s.goal
  reportSubstitution hyp reversed s.goal goal
  if goal = top then
    Outcome.say "Goal proved!"
    return []
  else return [⟨goal, context⟩]

end Tactic
end Majorant
