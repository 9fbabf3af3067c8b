import Majorant.Operation
import Majorant.Proof.State

/-!
# Lemmas

A lemma yields a statement that holds in every proof state in which its terms are defined.
-/

namespace Majorant
open Term

inductive Lemma where
  | blank
  | means (ts : List Term)
  | reflexivity (t : Term)
deriving Repr

def Proof.State.defines (s : Proof.State) (t : Term) : Outcome Bool :=
  if t = lit .absent then .fail .unanswerable else pure (t.isDefined s.declaredVariables)

namespace Lemma

/-- **The inequality between the means** of quantities that are known to be nonnegative. -/
def ofMeans (ts : List Term) : Outcome Lemma := do
  Outcome.require (!ts.isEmpty) .noQuantities
  ts.forM fun t =>
    if Operation.isWritten t || t.evades then .fail .unanswerable
    else Outcome.require (t.is .nonnegative) (.possiblyNegative t)
  return means ts

def meansStatement (ts : List Term) : Outcome Term := do
  let product ← ts.foldlM Operation.mul (lit (.int 1))
  let sum ← ts.foldlM Operation.add (lit (.int 0))
  let geometric ← Operation.pow product (lit (.ratio (1 / (ts.length : Rat))))
  let arithmetic ← Operation.div sum (lit (.int ts.length))
  Operation.compare .le geometric arithmetic

/-- **What a lemma says in a proof state**, which has to define its terms. -/
def statement (s : Proof.State) : Lemma → Outcome Term
  | blank => .fail .abstractLemma
  | means ts => do
    ts.forM fun t => do Outcome.require (← s.defines t) (.lemmaUndefined t)
    meansStatement ts
  | reflexivity t => do
    Outcome.require (← s.defines t) (.lemmaUndefined t)
    let t ← ofLiteral t
    return app (.rel .eq) [t, t]

def text : Lemma → String
  | blank => "Unimplemented"
  | means ts => "am_gm(" ++ commas (ts.map Term.text) ++ ")"
  | reflexivity t => "rfl(" ++ t.text ++ ")"

end Lemma
end Majorant
