import Majorant.Term.Print

/-!
# Sums

Sums are kept flat, with like terms gathered, the number in front and the other summands in the
order of `Term.compare`.
-/

namespace Majorant
namespace Term

def withCoeff (c : Rat) (factors : List Term) : Term :=
  if c = 1 then
    match factors with
    | [] => one
    | [t] => t
    | ts => app .mul ts
  else match factors with
    | [] => num c
    | ts => app .mul (num c :: ts)

def scaleSummand (c : Rat) : Term → Term
  | num q => num (c * q)
  | app .mul (num r :: rest) => withCoeff (c * r) rest
  | app .mul ts => withCoeff c ts
  | t => withCoeff c [t]

def gatherSummand (terms : List (Term × Rat)) (t : Term) : List (Term × Rat) :=
  let (c, s) := t.splitCoeff
  if terms.any (·.1 == s) then terms.map fun p => if p.1 == s then (s, p.2 + c) else p
  else terms ++ [(s, c)]

def summands : Term → List Term
  | app .add as => as
  | t => [t]

def ofSummands : List Term → Term
  | [] => zero
  | [t] => t
  | ts => app .add ts

/-- Sums with a value outside the number line: two infinite summands of different kinds cancel to an
indeterminate value, finite real ones disappear. -/
def sumSpecial (ts : List Term) : Term :=
  let specials : List Special := ts.filterMap fun | special s => some s | _ => none
  let rest := ts.filter fun
    | special _ => false
    | t => !(t.is .finite && (t.ask .extReal).isSome)
  match specials.eraseDups with
  | [.complexInfinity] =>
    if specials.length = 1 then ofSummands (special .complexInfinity :: sortArgs rest)
    else special .indeterminate
  | [s] => ofSummands (special s :: sortArgs rest)
  | _ => special .indeterminate

def isSpecial : Term → Bool
  | special _ => true
  | _ => false

def constantOf : Term → Rat
  | num q => q
  | _ => 0

def isSymbolic : Term → Bool
  | num _ => false
  | _ => true

def constantTerm (ts : List Term) : Rat := ts.foldl (fun c t => c + t.constantOf) 0

def gathered (ts : List Term) : List (Term × Rat) :=
  ((ts.filter isSymbolic).foldl gatherSummand []).filter (fun p => p.2 ≠ 0)

/-- The sum of flat summands on the number line: the numbers are added, like terms are gathered, and
those that cancel disappear. -/
def sumFinite (ts : List Term) : Term :=
  let terms := sortArgs ((gathered ts).map fun p => scaleSummand p.2 p.1)
  ofSummands (if constantTerm ts = 0 then terms else num (constantTerm ts) :: terms)

def sum (ts : List Term) : Term :=
  let flat := ts.flatMap summands
  if flat.any isSpecial then sumSpecial flat else sumFinite flat

def scale (c : Rat) (t : Term) : Term :=
  if c = 1 then t
  else match t with
    | special .indeterminate => t
    | special .complexInfinity => if c = 0 then special .indeterminate else t
    | special .infinity =>
      if c = 0 then special .indeterminate else if c < 0 then special .negInfinity else t
    | special .negInfinity =>
      if c = 0 then special .indeterminate else if c < 0 then special .infinity else t
    | app .add as =>
      if c = 0 then zero
      else if t.is .commutative then sum (as.map (scaleSummand c))
      else withCoeff c [t]
    | t => if c = 0 then zero else scaleSummand c t

def neg (t : Term) : Term := scale (-1) t

def sub (a b : Term) : Term := sum [a, neg b]

mutual

/-- **Leading minus sign.**  A number or product with a negative coefficient has one; a sum has one if
most of its summands do, the sort key deciding between equal numbers. -/
def leadingMinus : Term → Bool
  | num q => q < 0
  | app .mul (num c :: _) => c < 0
  | app .add as =>
    let minus := (leadingMinusList as).filter id |>.length
    let plus := as.length - minus
    if plus > minus then false
    else if plus < minus then true
    else (key (app .add as)).compare (key (neg (app .add as))) == .lt
  | _ => false

def leadingMinusList : List Term → List Bool
  | [] => []
  | a :: as => a.leadingMinus :: leadingMinusList as

end

end Term
end Majorant
