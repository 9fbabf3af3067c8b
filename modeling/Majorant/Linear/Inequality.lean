import Majorant.Number.Rational
import Majorant.Term.Basic

/-!
# Linear inequalities

A linear inequality compares a combination of variables with a number.
-/

namespace Majorant
namespace Linear

/-- How the left side of an inequality compares with the right side. -/
inductive Sense where
  | leq | lt | geq | gt | eq
deriving DecidableEq, Repr

namespace Sense

def name : Sense → String
  | leq => "leq"
  | lt => "lt"
  | geq => "geq"
  | gt => "gt"
  | eq => "eq"

def ofName? : String → Option Sense
  | "leq" => some leq
  | "lt" => some lt
  | "geq" => some geq
  | "gt" => some gt
  | "eq" => some eq
  | _ => none

theorem ofName?_name (s : Sense) : ofName? s.name = some s := by cases s <;> rfl

def symbol : Sense → String
  | leq => "<="
  | lt => "<"
  | geq => ">="
  | gt => ">"
  | eq => "="

def holds (s : Sense) (p q : Rat) : Bool :=
  match s with
  | leq => p ≤ q
  | lt => p < q
  | geq => q ≤ p
  | gt => q < p
  | eq => p = q

end Sense

/-- `Σ c * v` compared with a number. -/
structure Inequality (V : Type) where
  coeffs : List (V × Rat)
  sense : Sense
  rhs : Rat
deriving DecidableEq, Repr

namespace Inequality

variable {V : Type} [DecidableEq V]

/-- Coefficients with one entry for each variable: a repeated variable keeps its first place and takes
the last value. -/
def collect (pairs : List (V × Rat)) : List (V × Rat) :=
  pairs.foldl (fun acc p =>
    if acc.any (·.1 == p.1) then acc.map (fun q => if q.1 == p.1 then p else q) else acc ++ [p]) []

def coeff (i : Inequality V) (v : V) : Rat :=
  match i.coeffs.find? (·.1 == v) with
  | some p => p.2
  | none => 0

def unknowns (i : Inequality V) : List V := i.coeffs.map (·.1)

def value (i : Inequality V) (x : V → Rat) : Rat :=
  Rational.total (i.coeffs.map fun p => p.2 * x p.1)

def holdsAt (i : Inequality V) (x : V → Rat) : Bool := i.sense.holds (i.value x) i.rhs

def allUnknowns (is : List (Inequality V)) : List V := (is.flatMap unknowns).eraseDups

def text (name : V → String) (i : Inequality V) : String :=
  " + ".intercalate (i.coeffs.map fun p => ratText p.2 ++ "*" ++ name p.1) ++ " " ++
    i.sense.symbol ++ " " ++ ratText i.rhs

/-- **Multiplicative notation**; the right side is taken to be of order one. -/
def orderText (name : V → String) (i : Inequality V) : String :=
  " * ".intercalate (i.coeffs.map fun p => name p.1 ++ "**" ++ ratText p.2) ++ " " ++
    i.sense.symbol ++ " Theta(1)"

end Inequality
end Linear
end Majorant
