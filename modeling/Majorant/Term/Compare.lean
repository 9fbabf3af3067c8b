import Majorant.Sort
import Majorant.Term.Basic

/-!
# The order of summands and factors

Summands and factors are kept in the order of `Term.compare`: first by head, then by number of
parts, then part by part.  The order of heads is given by `Head.label` and `classRank`: numbers,
variables, powers, products, sums, absolute values, and then all other heads by label.
-/

namespace Majorant

def Rel.label : Rel → String
  | le => "LessThan"
  | lt => "StrictLessThan"
  | ge => "GreaterThan"
  | gt => "StrictGreaterThan"
  | eq => "Equality"
  | ne => "Unequality"

def Head.label : Head → String
  | add => "Add"
  | mul => "Mul"
  | pow => "Pow"
  | abs => "Abs"
  | max => "Max"
  | min => "Min"
  | rel r => r.label
  | and => "And"
  | or => "Or"
  | not => "Not"
  | theta => "Theta"
  | orderMax => "OrderMax"
  | orderMin => "OrderMin"
  | orderMul => "OrderMul"
  | orderPow => "OrderPow"
  | undefined => "Undefined"
  | difference => "FormalSub"
  | littlewoodPaley => "LittlewoodPaley"
  | fixed => "Fixed"
  | bounded => "Bounded"
  | declared => "Type"

namespace Term

def kindLabel : Kind → String
  | .prop => "Proposition"
  | .order => "OrderSymbol"
  | _ => "Symbol"

def label : Term → String
  | lit (.int _) => "int"
  | lit (.ratio _) => "Fraction"
  | lit (.bool _) => "bool"
  | lit (.float _) => "float"
  | lit .absent => "NoneType"
  | num q => if q.den = 1 then "Integer" else "Rational"
  | special .complexInfinity => "ComplexInfinity"
  | special .infinity => "Infinity"
  | special .negInfinity => "NegativeInfinity"
  | special .indeterminate => "NaN"
  | truth true => "BooleanTrue"
  | truth false => "BooleanFalse"
  | var v => kindLabel v.kind
  | app h _ => h.label

/-- The place of a term's head among those that come in a fixed order; the rest share the last place.
Zero, one, one half and minus one have places of their own. -/
def classRank : Term → Nat
  | num q =>
    if q = 0 then 0
    else if q = 1 then 1
    else if q = 1 / 2 then 2
    else if q = -1 then 5
    else if q.den = 1 then 7
    else 8
  | special .infinity => 3
  | special .indeterminate => 4
  | special .negInfinity => 6
  | lit (.float _) => 9
  | var v => match v.kind with
    | .prop | .order => 100
    | _ => 13
  | app .pow _ => 15
  | app .mul _ => 16
  | app .add _ => 17
  | app .abs _ => 20
  | app (.rel .eq) _ => 60
  | app (.rel .ne) _ => 61
  | app (.rel .gt) _ => 62
  | app (.rel .lt) _ => 63
  | app (.rel .ge) _ => 64
  | app (.rel .le) _ => 65
  | _ => 100

def compareHeads (a b : Term) : Ordering :=
  match Ord.compare a.classRank b.classRank with
  | .eq => if a.classRank = 100 then Ord.compare a.label b.label else .eq
  | o => o

mutual

def compare : Term → Term → Ordering
  | app h as, app g bs =>
    (compareHeads (app h as) (app g bs)).then
      ((Ord.compare as.length bs.length).then (compareList as bs))
  | num p, num q =>
    (compareHeads (num p) (num q)).then ((Ord.compare p.num q.num).then (Ord.compare p.den q.den))
  | var v, var w =>
    (compareHeads (var v) (var w)).then
      ((Ord.compare v.kind.weight w.kind.weight).then
        ((Ord.compare v.name w.name).then (Ord.compare v.kind.name w.kind.name)))
  | a, b => compareHeads a b

def compareList : List Term → List Term → Ordering
  | a :: as, b :: bs => (compare a b).then (compareList as bs)
  | _, _ => .eq

end

def sortArgs (ts : List Term) : List Term :=
  sortBy (fun a b => (compare a b).isLE) ts

end Term
end Majorant
