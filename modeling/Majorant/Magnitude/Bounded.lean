import Majorant.Term.Facts

/-!
# Fixed and bounded quantities

A quantity is *fixed* if it does not depend on parameters, and *bounded* if it stays in a set that
does not.
-/

namespace Majorant
namespace Magnitude
open Term

def keepsFixed : Head → Bool
  | .add | .mul | .pow | .max | .min | .abs | .rel _ => true
  | .orderMax | .orderMin | .orderMul | .orderPow | .theta => true
  | _ => false

/-- The heads that take bounded quantities to bounded ones, powers apart. -/
def keepsBounded : Head → Bool
  | .add | .mul | .abs | .max | .min => true
  | .theta | .orderMul | .orderMax | .orderMin => true
  | _ => false

def markedFixed (hyps : List Term) (t : Term) : Bool := hyps.contains (app .fixed [t])

def markedBounded (hyps : List Term) (t : Term) : Bool :=
  hyps.contains (app .fixed [t]) || hyps.contains (app .bounded [t])

/-- Propositions and connectives, which take two values only. -/
def isTwoValued : Term → Bool
  | truth _ => true
  | var v => v.kind == .prop
  | app .and _ | app .or _ | app .not _ | app .littlewoodPaley _ => true
  | _ => false

mutual

def isFixed (hyps : List Term) (t : Term) : Bool :=
  match t with
  | truth _ => true
  | app h as =>
    t.isNumber || markedFixed hyps t || (keepsFixed h && areFixed hyps as)
  | t => t.isNumber || markedFixed hyps t

def areFixed (hyps : List Term) (ts : List Term) : Bool :=
  match ts with
  | [] => true
  | t :: ts => isFixed hyps t && areFixed hyps ts

end

mutual

def isBounded (hyps : List Term) (t : Term) : Bool :=
  match t with
  | app h as =>
    t.isNumber || markedBounded hyps t || isTwoValued t ||
      (keepsBounded h && areBounded hyps as) ||
      ((h == .pow || h == .orderPow) && areBounded hyps as &&
        match as with
        | [_, e] => e.is .nonnegative
        | _ => false)
  | t => t.isNumber || markedBounded hyps t || isTwoValued t

def areBounded (hyps : List Term) (ts : List Term) : Bool :=
  match ts with
  | [] => true
  | t :: ts => isBounded hyps t && areBounded hyps ts

end

end Magnitude
end Majorant
