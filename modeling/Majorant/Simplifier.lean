import Majorant.Magnitude.Bounded
import Majorant.Statement.Entailment
import Majorant.Statement.Reduction
import Majorant.Substitution

/-!
# The simplifier

A statement is simplified under hypotheses: what follows from them, or contradicts them, is replaced by
its truth value, comparisons are sharpened, dominated arguments of maxima and minima are dropped, and
fixed quantities are of order one.
-/

namespace Majorant
namespace Simplifier
open Term

/-- The signs that the right side minus the left side may have when a comparison holds. -/
def signs : Rel → List Int
  | .le => [0, 1]
  | .lt => [1]
  | .eq => [0]
  | .ge => [-1, 0]
  | .gt => [-1]
  | .ne => [-1, 1]

def ofSigns? (s : List Int) : Option Rel :=
  [Rel.le, .lt, .eq, .ge, .gt, .ne].find? fun r =>
    (signs r).all s.contains && s.all (signs r).contains

/-- What a comparison tells about another one between the same sides: `some (.inl b)` settles it,
`some (.inr r)` sharpens it to `r`. -/
def sharpen (goal hyp : Rel) (sameSides : Bool) : Option (Bool ⊕ Rel) :=
  let wanted := signs goal
  let given := if sameSides then signs hyp else (signs hyp).map (-·)
  if given.all wanted.contains then some (.inl true)
  else if !given.any wanted.contains then some (.inl false)
  else (ofSigns? (wanted.filter given.contains)).map .inr

def useComparison (goal hyp : Term) : Option (Outcome Term) :=
  match goal.asRel?, hyp.asRel? with
  | some (r, a, b), some (s, c, d) =>
    let same := a = c && b = d
    let crossed := a = d && b = c
    if same || crossed then
      (sharpen r s same).map fun
        | .inl v => pure (truth v)
        | .inr r' => Statement.relate r' a b
    else none
  | _, _ => none

def sides? (hyp : Term) : Option (Term × Term) :=
  match hyp.asRel? with
  | some (.le, a, b) | some (.lt, a, b) => some (a, b)
  | some (.ge, a, b) | some (.gt, a, b) => some (b, a)
  | _ => none

def useDomination (goal hyp : Term) : Option (Outcome Term) :=
  match sides? hyp with
  | some (small, large) =>
    if small ≠ large && goal.args.contains small && goal.args.contains large then
      match goal with
      | app .max as => some (Evaluation.apply .max (as.erase small))
      | app .orderMax as => some (Evaluation.apply .orderMax (as.erase small))
      | app .min as => some (Evaluation.apply .min (as.erase large))
      | app .orderMin as => some (Evaluation.apply .orderMin (as.erase large))
      | _ => none
    else none
  | none => none

/-- What the hypotheses say directly about a goal, the first one that says something. -/
def useHypotheses (hyps : List Term) (goal : Term) : Option (Outcome Term) :=
  hyps.findSome? fun h => (useComparison goal h) <|> (useDomination goal h)

/-- The order of magnitude of a fixed quantity, or of a bounded integer, is that of a constant. -/
def isUnit (hyps : List Term) : Term → Bool
  | app .theta [t] => Magnitude.isFixed hyps t || (Magnitude.isBounded hyps t && t.is .integer)
  | _ => false

def reduceHead (hyps args : List Term) (goal : Term) : Outcome Term := do
  if hyps.contains goal then return top
  let opposite ← Statement.not goal
  if hyps.contains opposite then return bot
  match useHypotheses hyps goal with
  | some result => result
  | none =>
    if isUnit hyps goal then return Magnitude.unit
    match goal with
    | app h (_ :: _) => do
      let t ← Evaluation.apply h args
      Evaluation.settle t
    | _ => return goal

mutual

/-- **Reduce a goal** under hypotheses, from the inside. -/
def reduce (hyps : List Term) (goal : Term) : Outcome Term :=
  match goal with
  | app h as => do
    let args ← reduceList hyps as
    reduceHead hyps args (app h as)
  | lit _ => .fail .unanswerable
  | t => reduceHead hyps [] t

def reduceList (hyps : List Term) (ts : List Term) : Outcome (List Term) :=
  match ts with
  | [] => pure []
  | t :: ts => do
    let t ← reduce hyps t
    let ts ← reduceList hyps ts
    return t :: ts

end

/-- Reduction, where `thorough` brings goal and hypotheses to reduced form first.  The arguments are
those of the goal as it was given. -/
def reduceWith (thorough : Bool) (hyps : List Term) (goal : Term) : Outcome Term := do
  if !thorough then reduce hyps goal
  else
    let args ← reduceList hyps goal.args
    let goal ← Statement.reduced goal
    let hyps ← hyps.mapM Statement.reduced
    reduceHead hyps.eraseDups args goal

def absorbOnce (hyps : List Term) (goal : Term) : Outcome Term :=
  hyps.foldlM (fun g h => do
    if !h.isStatement then return g
    let g ← Substitution.replace h top g
    match h with
    | app .not [s] => Substitution.replace s bot g
    | _ => return g) goal

def absorb : Nat → List Term → Term → Outcome Term
  | 0, _, goal => pure goal
  | n + 1, hyps, goal => do
    let g ← absorbOnce hyps goal
    if g = goal then return goal else absorb n hyps g

/-- **Simplify a goal** under a set of hypotheses, reporting what was done. -/
def simplify (thorough : Bool) (hyps : List Term) (goal : Term) : Outcome Term := do
  let report := fun (result : String) (hs : List Term) =>
    Outcome.say ("Simplified " ++ goal.text ++ " to " ++ result ++ " using " ++
      Statement.setText hs ++ ".")
  match goal with
  | app .declared _ | truth _ => return goal
  | _ =>
    let start ← if thorough then Statement.reduced goal else pure goal
    let hyps ← if thorough then hyps.mapM Statement.reduced else pure hyps
    let hyps := hyps.eraseDups
    if ← Statement.test hyps start true then
      report "True" hyps
      return top
    let opposite ← Statement.not start
    if ← Statement.test hyps opposite true then
      report "False" hyps
      return bot
    let absorbed ← absorb (2 * start.size + 8) hyps start
    let result ← reduceWith thorough hyps absorbed
    let same ← Statement.relate .eq result goal
    if same ≠ top then report result.text hyps
    return result

end Simplifier
end Majorant
