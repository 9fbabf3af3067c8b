import Majorant.Proof.Session

/-!
# Exercises

Small theorems to be proved in a session.
-/

namespace Majorant

inductive Exercise where
  | linear | linearImpossible
  | caseSplit | split | pigeonhole
  | antisymmetry | integerGap | extrema
  | positive | nonnegative | trivial
  | logLinear | logLinearHard | logLinearImpossible
  | means | bracketProduct
  | littlewoodPaley | complexLittlewoodPaley
  | substitution | substitutionAll | substitutionAllReversed
  | expansion | chain
deriving DecidableEq, Repr

namespace Exercise
open Expression

def assume (e : Expression) (name : String) : Request Unit := do
  Session.assume (← Session.evaluate e) name

def prove (e : Expression) : Request Unit := do
  Session.begin (← Session.evaluate e)

def declare (kind : String) (names : List String) : Request Unit := do
  let _ ← Session.declareAll kind names

def poseLinear (bound : Expression) : Request Unit := do
  let (x, y, z) := (name "x", name "y", name "z")
  declare "pos_real" ["x", "y", "z"]
  assume (x.lt (2 * y)) "h1"
  assume (y.lt (3 * z + 1)) "h2"
  prove (x.lt bound)

def poseLogLinearHard (exponent : Nat) : Request Unit := do
  let (x, y, N) := (name "x", name "y", name "N")
  declare "pos_int" ["N"]
  declare "pos_real" ["x", "y"]
  assume (x.le (2 * N ^ 2 + 1)) "h1"
  assume (y.lt (3 * N + 4)) "h2"
  prove ((x * y).lesssim (N ^ exponent))

def poseSubstitutionAll (equation : Expression) : Request Unit := do
  let (x, y, z, N) := (name "x", name "y", name "z", name "N")
  declare "pos_int" ["N"]
  declare "real" ["x", "y", "z"]
  assume (x.le N) "hx"
  assume (y.le N) "hy"
  assume (z.le N) "hz"
  assume equation "hN"
  prove ((x + y + z).le (N ^ 2))

def pose : Exercise → Request Unit
  | linear => poseLinear (7 * name "z" + 2)
  | linearImpossible => poseLinear (7 * name "z")
  | caseSplit => do
    let (P, Q, R, S) := (name "P", name "Q", name "R", name "S")
    declare "bool" ["P", "Q", "R", "S"]
    assume (P.or Q) "h1"
    assume (R.or S) "h2"
    prove ((((P.and R).or (P.and S)).or (Q.and R)).or (Q.and S))
  | split => do
    let (x, y) := (name "x", name "y")
    declare "real" ["x", "y"]
    assume ((x.gt (-1)).and (x.lt 1)) "h1"
    assume ((y.gt (-2)).and (y.lt 2)) "h2"
    prove (((x + y).gt (-3)).and ((x + y).lt 3))
  | pigeonhole => do
    let (x, y) := (name "x", name "y")
    declare "real" ["x", "y"]
    assume ((x + y).gt 5) "h"
    prove ((x.gt 2).or (y.gt 3))
  | antisymmetry => do
    let (x, y) := (name "x", name "y")
    declare "real" ["x", "y"]
    assume (x.le y) "h1"
    assume (x.ge y) "h2"
    prove (x.eq y)
  | integerGap => do
    let (x, y, z) := (name "x", name "y", name "z")
    declare "real" ["x"]
    declare "pos_int" ["y", "z"]
    assume ((x + y + z).le 3) "h"
    assume ((x.ge y).and (y.ge z)) "h2"
    prove (z.eq 1)
  | extrema => do
    let (x, y) := (name "x", name "y")
    declare "real" ["x", "y"]
    prove ((form .min [x, y]).le (form .max [x, y]))
  | positive => do
    declare "real" ["x"]
    assume ((name "x").gt 0) "h"
    prove ((name "x" ^ 2).gt 0)
  | nonnegative => do
    declare "real" ["x"]
    assume ((name "x").ge 0) "h"
    prove ((name "x" ^ 3).ge 0)
  | trivial => do
    declare "real" ["x"]
    assume ((name "x").gt 0) "h"
    prove (Expression.lt 0 (name "x"))
  | logLinear => do
    let (k, N, x, y) := (name "k", name "N", name "x", name "y")
    declare "pos_int" ["k", "N"]
    declare "pos_real" ["x", "y"]
    assume (form .bounded [k]) "hk"
    assume (x.le (2 * N ^ 2)) "h1"
    assume (y.lt (3 * k * N)) "h2"
    prove ((x * y).lesssim (N ^ 4))
  | logLinearHard => poseLogLinearHard 3
  | logLinearImpossible => poseLogLinearHard 2
  | means => do
    let (x, y) := (name "x", name "y")
    declare "nonneg_real" ["x", "y"]
    prove ((2 * x * y).le (x ^ 2 + y ^ 2))
  | bracketProduct => do
    let (x, y) := (name "x", name "y")
    declare "real" ["x", "y"]
    prove ((form .bracket [x * y]).lesssim (form .bracket [x] * form .bracket [y]))
  | littlewoodPaley => do
    let (a, b, c) := (name "N_1", name "N_2", name "N_3")
    declare "order" ["N_1", "N_2", "N_3"]
    assume (form .interaction [a, b, c]) "h"
    prove ((form .orderMin [a, b, c] * form .orderMax [a, b, c] ^ 2).le (a * b * c))
  | complexLittlewoodPaley => do
    let (a, b, c) := (name "N_1", name "N_2", name "N_3")
    let (k, l, m) := (name "L_1", name "L_2", name "L_3")
    let N := name "N"
    let root := fun e => form .sqrt [e]
    let bracket := fun e => form .bracket [e]
    declare "order" ["N_1", "N_2", "N_3"]
    declare "order" ["L_1", "L_2", "L_3"]
    declare "order" ["N"]
    assume (form .interaction [a, b, c]) "hN"
    assume (form .interaction [k, l, m]) "hL"
    assume (N.gtrsim 1) "hN1"
    assume (form .asymp [form .orderMax [a, b, c], N]) "hmax"
    assume ((form .orderMax [k, l, m]).ge (a * b * c)) "hlower"
    prove ((root (bracket b) / ((bracket a).toPower (1 / 4) * root k * root l)
      * root (form .orderMin [k, l, m]) * N.toPower (-1) * root (a * b * c)).lesssim 1)
  | substitution => do
    let (x, y, z, w) := (name "x", name "y", name "z", name "w")
    declare "real" ["x", "y", "z", "w"]
    assume (x.eq (z ^ 2)) "hx"
    assume (y.eq (w ^ 2)) "hy"
    prove ((x - y).eq (z ^ 2 - w ^ 2))
  | substitutionAll => poseSubstitutionAll ((name "N").eq 10)
  | substitutionAllReversed => poseSubstitutionAll (Expression.eq 10 (name "N"))
  | expansion => do
    let (x, y) := (name "x", name "y")
    declare "real" ["x", "y"]
    prove (((x - y) * (x + y)).eq (x ^ 2 - y ^ 2))
  | chain => do
    let (x, y) := (name "x", name "y")
    declare "real" ["x", "y"]
    assume (x.lt 4) "hx"
    assume (y.ge 4) "hy"
    prove (x.lt y)

end Exercise
end Majorant
