import Majorant.Term.Extremum

/-!
# Comparisons

A comparison is decided on the spot when the facts about its sides allow it, and kept as a statement
otherwise.  Orders of magnitude are only ever known to be equal when they are the same term.
-/

namespace Majorant

/-- A written value as a term that takes part in others. -/
def Term.ofLiteral : Term → Outcome Term
  | .lit (.int n) => pure (.num n)
  | .lit (.ratio q) => pure (.num q)
  | .lit (.float q) => pure (.num q)
  | .lit (.bool b) => pure (.truth b)
  | .lit .absent => .fail .unacceptable
  | t => pure t

namespace Statement
open Term

def settle (r : Rel) (a b : Term) : Option Bool → Term
  | some v => truth v
  | none => app (.rel r) [a, b]

def decided? (r : Rel) (a b : Term) : Option Bool :=
  match r with
  | .ge => atLeast? a b
  | .le => atLeast? b a
  | .lt => (atLeast? a b).map (!·)
  | .gt => (atLeast? b a).map (!·)
  | .eq => equal? a b
  | .ne => (equal? a b).map (!·)

def isNumberVar : Term → Bool
  | var v => v.kind != .prop && v.kind != .order
  | _ => false

def isOrderVar : Term → Bool
  | var v => v.kind == .order
  | _ => false

/-- The difference of the two sides can be asked whether it vanishes. -/
def differenceAnswers (a b : Term) : Bool :=
  if !(a.isQuantity && b.isQuantity) then true
  else if a.isOrder then true
  else if b.isOrder then isNumberVar a && isOrderVar b
  else !(a.evades || b.evades)

/-- **The comparison of two terms.**  An inequality needs two quantities on the extended real line, as
far as that is known. -/
def relate (r : Rel) (a b : Term) : Outcome Term := do
  let a ← ofLiteral a
  let b ← ofLiteral b
  match r with
  | .eq | .ne =>
    if a = b then return truth (r == .eq)
    Outcome.require (differenceAnswers a b) .unanswerable
    return settle r a b (decided? r a b)
  | _ =>
    Outcome.require (!(a.evades || b.evades)) .unanswerable
    Outcome.require (a.isQuantity && b.isQuantity) .mistyped
    Outcome.require (!(a.isNot .extReal || b.isNot .extReal)) .mistyped
    Outcome.require (a ≠ special .indeterminate && b ≠ special .indeterminate) .mistyped
    return settle r a b (decided? r a b)

def relationNamed? : String → Option Rel
  | "==" | "eq" => some .eq
  | "!=" | "<>" | "ne" => some .ne
  | ">=" | "ge" => some .ge
  | "<=" | "le" => some .le
  | ">" | "gt" => some .gt
  | "<" | "lt" => some .lt
  | _ => none

def relateBy (sign : String) (a b : Term) : Outcome Term :=
  match relationNamed? sign with
  | some r => relate r a b
  | none => .fail .unacceptable

end Statement
end Majorant
