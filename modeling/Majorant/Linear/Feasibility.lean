import Majorant.Linear.Elimination
import Majorant.Linear.Inequality
import Majorant.Outcome

/-!
# Feasibility with certificates

A list of linear inequalities either has a point that satisfies all of them or multipliers under which
they add up to a contradiction.

## Design notes

Points are sought over the *names* of the variables, so that variables with one name take one value;
multipliers have to cancel every variable by itself.  If two variables share a name both searches can
fail, and the decision is refused.
-/

namespace Majorant
namespace Linear

/-- The multiplicative notation of an inequality between logarithms, which has no constant term. -/
def Inequality.orderForm {V : Type} [DecidableEq V] (name : V → String) (i : Inequality V) :
    Outcome String :=
  if i.rhs = 0 then pure (i.orderText name) else .fail .nonzeroConstant

/-- A point, or one multiplier for each inequality. -/
inductive Certificate (V : Type) where
  | point (values : List (V × Rat))
  | multipliers (ms : List Rat)
deriving DecidableEq, Repr

variable {V : Type} [DecidableEq V]

def valueOf (values : List (V × Rat)) (v : V) : Rat :=
  match values.find? (·.1 == v) with
  | some p => p.2
  | none => 0

/-- A multiplier has the sign its inequality asks for: nonpositive for upper bounds, nonnegative for
lower bounds, any for equations. -/
def signOk (s : Sense) (m : Rat) : Bool :=
  match s with
  | .leq | .lt => m ≤ 0
  | .geq | .gt => 0 ≤ m
  | .eq => true

def weighted (is : List (Inequality V)) (ms : List Rat) : List (Inequality V × Rat) := is.zip ms

def weightedRhs (ws : List (Inequality V × Rat)) : Rat :=
  Rational.total (ws.map fun w => w.2 * w.1.rhs)

/-- The sum of the multipliers of strict inequalities, counted positively. -/
def strictWeight (ws : List (Inequality V × Rat)) : Rat :=
  Rational.total (ws.map fun w => match w.1.sense with
    | .gt => w.2
    | .lt => -w.2
    | _ => 0)

/-- **The certificate proves what it claims.**  A point satisfies every inequality.  Multipliers have
the right signs, cancel every variable, leave a nonnegative number, and are normalized so that this
number and the strict multipliers add up to one. -/
def Certificate.check (is : List (Inequality V)) : Certificate V → Bool
  | point values => is.all (·.holdsAt (valueOf values))
  | multipliers ms =>
    let ws := weighted is ms
    ms.length == is.length &&
      ws.all (fun w => signOk w.1.sense w.2) &&
      (Inequality.allUnknowns is).all (fun v => Rational.total (ws.map fun w => w.2 * w.1.coeff v) == 0) &&
      0 ≤ weightedRhs ws && weightedRhs ws + strictWeight ws == 1

def Certificate.isPoint : Certificate V → Bool
  | point _ => true
  | multipliers _ => false

/-- An inequality as a row over listed variables; lower bounds are turned around. -/
def toRow (vars : List V) (coeff : Inequality V → V → Rat) (count : Nat) (k : Nat)
    (i : Inequality V) : Row :=
  let coeffs := vars.map (coeff i)
  let weights := (List.replicate count (0 : Rat)).set k 1
  match i.sense with
  | .leq => ⟨coeffs, i.rhs, .weak, weights⟩
  | .lt => ⟨coeffs, i.rhs, .strict, weights⟩
  | .geq => ⟨scaleCoeffs (-1) coeffs, -i.rhs, .weak, weights⟩
  | .gt => ⟨scaleCoeffs (-1) coeffs, -i.rhs, .strict, weights⟩
  | .eq => ⟨coeffs, i.rhs, .equal, weights⟩

def toRows (vars : List V) (coeff : Inequality V → V → Rat) (is : List (Inequality V)) : List Row :=
  is.mapIdx (toRow vars coeff is.length)

def toMultipliers (is : List (Inequality V)) (ws : List Rat) : List Rat :=
  (is.zip ws).map fun (i, w) => match i.sense with
    | .leq | .lt | .eq => -w
    | .geq | .gt => w

def normalizeMultipliers (is : List (Inequality V)) (ms : List Rat) : List Rat :=
  let total := weightedRhs (weighted is ms) + strictWeight (weighted is ms)
  ms.map (· / total)

def namedCoeff (name : V → String) (i : Inequality V) (v : V) : Rat :=
  Rational.total ((i.coeffs.filter fun p => name p.1 == name v).map (·.2))

def representatives (name : V → String) (vars : List V) : List V :=
  vars.foldl (fun acc v => if acc.any (fun w => name w == name v) then acc else acc ++ [v]) []

/-- A name that the solver can represent: every character is among the first 256. -/
def encodable (s : String) : Bool := s.toList.all (fun c => c.toNat < 256)

/-- **Decide a list of inequalities**, with a certificate.  `name` gives the names of the variables. -/
def feasibility (name : V → String) (is : List (Inequality V)) : Outcome (Certificate V) := do
  let vars := Inequality.allUnknowns is
  Outcome.require (vars.all fun v => encodable (name v)) .unencodable
  let reps := representatives name vars
  match decideRows reps.length (toRows reps (namedCoeff name) is) with
  | .point x =>
    return .point (vars.map fun v =>
      (v, x.getD (reps.findIdx fun w => name w == name v) 0))
  | .weights ws =>
    if reps.length = vars.length then
      return .multipliers (normalizeMultipliers is (toMultipliers is ws))
    else match decideRows vars.length (toRows vars Inequality.coeff is) with
      | .weights ws => return .multipliers (normalizeMultipliers is (toMultipliers is ws))
      | .point _ => .fail .neitherFeasible

end Linear
end Majorant
