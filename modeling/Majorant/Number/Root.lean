/-!
# Roots of whole numbers

Rational powers of positive rational numbers, with everything rational taken out of the root.
-/

namespace Majorant

/-- Divide out a factor as often as possible, at most `fuel` times. -/
def divideOut : Nat → Nat → Nat → Nat × Nat
  | 0, _, n => (0, n)
  | fuel + 1, p, n =>
    if p > 1 && n % p = 0 then
      let (k, m) := divideOut fuel p (n / p)
      (k + 1, m)
    else (0, n)

/-- Trial division from `p` on; what is left when the divisors are exhausted counts as one factor. -/
def trialDivision : Nat → Nat → Nat → List (Nat × Nat)
  | 0, _, n => if n > 1 then [(n, 1)] else []
  | fuel + 1, p, n =>
    if n ≤ 1 then []
    else if p * p > n then [(n, 1)]
    else
      let (k, m) := divideOut n.log2.succ p n
      if k = 0 then trialDivision fuel (p + 1) n else (p, k) :: trialDivision fuel (p + 1) m

/-- Prime factors with multiplicity; only divisors below `2 ^ 15` are tried. -/
def natFactors (n : Nat) : List (Nat × Nat) := trialDivision (Nat.pow 2 15) 2 n

/-- `n ^ (p / q)` for a positive whole number and `0 < p < q`-style exponents: a whole factor and the
roots that remain, as bases with exponents. -/
def natPower (n : Nat) (e : Rat) : Nat × List (Nat × Rat) :=
  let parts := (natFactors n).map fun (p, k) =>
    let total := k * e.num.toNat
    let whole := total / e.den
    let rest := total % e.den
    (p, whole, rest)
  let whole := parts.foldl (fun acc (p, w, _) => acc * Nat.pow p w) 1
  let rests := parts.filter (fun (_, _, r) => r ≠ 0)
  let shared := rests.filter (fun (_, _, r) => Nat.gcd r e.den ≠ 1)
  let lone := rests.filter (fun (_, _, r) => Nat.gcd r e.den = 1)
  let g : Nat := lone.foldl (fun acc (_, _, r) => Nat.gcd acc r) 0
  let base : Nat := lone.foldl (fun acc (p, _, r) => acc * Nat.pow p (r / g)) 1
  let loneRoots := if lone.isEmpty then [] else [(base, (g : Rat) / e.den)]
  (whole, shared.map (fun (p, _, r) => (p, (r : Rat) / e.den)) ++ loneRoots)

/-- A rational power of a positive rational number: a rational factor and the roots that remain. -/
def rationalPower (b : Rat) (e : Rat) : Rat × List (Nat × Rat) :=
  let (b, e) := if e < 0 then (1 / b, -e) else (b, e)
  let whole := e.floor.toNat
  let frac := e - whole
  let head := b ^ whole
  if frac = 0 then (head, [])
  else
    let (top, topRoots) := natPower b.num.toNat frac
    if b.den = 1 then (head * top, topRoots)
    else
      let (bottom, bottomRoots) := natPower b.den (1 - frac)
      (head * top * bottom / b.den, topRoots ++ bottomRoots)

end Majorant
