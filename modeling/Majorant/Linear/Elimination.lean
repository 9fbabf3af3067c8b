import Majorant.Number.Rational

/-!
# Elimination of variables

A system of linear rows over numbered variables is decided by eliminating one variable after another.
An equation is solved for the variable; otherwise every lower bound is combined with every upper bound.
The answer is a point or a list of weights under which the rows add up to a contradiction.

## Design notes

Rows keep their full length; the column of an eliminated variable is zero.  Of rows with one direction
only the tightest is kept.
-/

namespace Majorant
namespace Linear

/-- `a · x`, position by position; missing entries count as zero. -/
def dot : List Rat → List Rat → Rat
  | a :: as, x :: xs => a * x + dot as xs
  | _, _ => 0

def addCoeffs : List Rat → List Rat → List Rat
  | a :: as, b :: bs => (a + b) :: addCoeffs as bs
  | [], bs => bs
  | as, [] => as

def scaleCoeffs (k : Rat) (as : List Rat) : List Rat := as.map (k * ·)

inductive Strength where
  | equal | weak | strict
deriving DecidableEq, Repr

/-- `coeffs · x` equals, is at most or is below `bound`.  The row is the sum of the rows it was derived
from, each times its weight. -/
structure Row where
  coeffs : List Rat
  bound : Rat
  strength : Strength
  weights : List Rat
deriving DecidableEq, Repr

namespace Row

def entry (r : Row) (i : Nat) : Rat := r.coeffs.getD i 0

def scale (k : Rat) (r : Row) : Row :=
  ⟨scaleCoeffs k r.coeffs, k * r.bound, r.strength, scaleCoeffs k r.weights⟩

/-- The sum of two rows; it is strict if one of them is. -/
def add (r s : Row) : Row :=
  ⟨addCoeffs r.coeffs s.coeffs, r.bound + s.bound,
    match r.strength, s.strength with
    | .equal, t => t
    | t, .equal => t
    | .weak, .weak => .weak
    | _, _ => .strict,
    addCoeffs r.weights s.weights⟩

def isConstant (r : Row) : Bool := r.coeffs.all (· == 0)

def constantHolds (r : Row) : Bool :=
  match r.strength with
  | .equal => r.bound == 0
  | .weak => 0 ≤ r.bound
  | .strict => 0 < r.bound

/-- The row divided by the size of its first coefficient that is not zero. -/
def normalize (r : Row) : Row :=
  match r.coeffs.find? (· ≠ 0) with
  | some c => scale (1 / (if c < 0 then -c else c)) r
  | none => r

/-- Both rows are inequalities of one direction and the first is at least as tight. -/
def tighter (r s : Row) : Bool :=
  r.strength ≠ .equal && s.strength ≠ .equal && r.coeffs == s.coeffs &&
    (r.bound < s.bound || (r.bound == s.bound && (r.strength == .strict || s.strength == .weak)))

end Row

/-- Keep a row unless a kept one is at least as tight; drop the kept ones it is tighter than. -/
def keepTight (kept : List Row) (r : Row) : List Row :=
  if kept.any (·.tighter r) then kept else kept.filter (fun s => !r.tighter s) ++ [r]

/-- Normalized rows without those that are implied by others at sight. -/
def prune (rows : List Row) : List Row :=
  ((rows.filter fun r => !(r.isConstant && r.constantHolds)).map Row.normalize).foldl keepTight []

inductive Verdict where
  | point (x : List Rat)
  | weights (ws : List Rat)
deriving DecidableEq, Repr

def cost (rows : List Row) (i : Nat) : Nat :=
  if rows.any (fun r => r.strength == .equal && r.entry i ≠ 0) then 0
  else
    let lower := (rows.filter fun r => r.entry i < 0).length
    let upper := (rows.filter fun r => 0 < r.entry i).length
    1 + lower * upper

def cheapest (rows : List Row) : List Nat → Option Nat
  | [] => none
  | i :: is =>
    some (is.foldl (fun best j => if cost rows j < cost rows best then j else best) i)

def substituteRow (pivot : Row) (i : Nat) (r : Row) : Row :=
  if r.entry i = 0 then r
  else
    let sum := (pivot.scale (-(r.entry i) / pivot.entry i)).add r
    { sum with strength := r.strength }

def cross (i : Nat) (lower upper : Row) : Row :=
  (lower.scale (1 / -(lower.entry i))).add (upper.scale (1 / upper.entry i))

def boundAt (x : List Rat) (i : Nat) (r : Row) : Rat :=
  (r.bound - dot r.coeffs (x.set i 0)) / r.entry i

def greatest? : List Rat → Option Rat
  | [] => none
  | q :: qs => some (qs.foldl Rational.larger q)

def least? : List Rat → Option Rat
  | [] => none
  | q :: qs => some (qs.foldl Rational.smaller q)

def between (lowers uppers : List Rat) : Rat :=
  match greatest? lowers, least? uppers with
  | none, none => 0
  | some l, none => l + 1
  | none, some u => u - 1
  | some l, some u => (l + u) / 2

/-- Decide rows by eliminating the listed variables, at most `steps` of them. -/
def eliminate : Nat → Nat → List Nat → List Row → Verdict
  | steps, n, vars, rows =>
    let rows := prune rows
    match rows.find? fun r => r.isConstant && !r.constantHolds with
    | some r => .weights r.weights
    | none =>
      match steps, cheapest rows vars with
      | steps + 1, some i =>
        match rows.find? fun r => r.strength == .equal && r.entry i ≠ 0 with
        | some pivot =>
          match eliminate steps n (vars.erase i) ((rows.erase pivot).map (substituteRow pivot i)) with
          | .weights ws => .weights ws
          | .point x => .point (x.set i (boundAt x i pivot))
        | none =>
          let lowers := rows.filter fun r => r.entry i < 0
          let uppers := rows.filter fun r => 0 < r.entry i
          let rest := rows.filter fun r => r.entry i = 0
          let crossed := lowers.flatMap fun l => uppers.map (cross i l)
          match eliminate steps n (vars.erase i) (rest ++ crossed) with
          | .weights ws => .weights ws
          | .point x =>
            .point (x.set i (between (lowers.map (boundAt x i)) (uppers.map (boundAt x i))))
      | _, _ => .point (List.replicate n 0)

def decideRows (n : Nat) (rows : List Row) : Verdict := eliminate n n (List.range n) rows

end Linear
end Majorant
