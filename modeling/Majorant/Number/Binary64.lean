/-!
# Rounding to 53 binary digits

Measured quantities are kept with 53 significant binary digits, as rational numbers that happen to
have such a form.  `Binary64.nearest` rounds any rational number to that grid.
-/

namespace Majorant

/-- The nearest integer; a half goes to the even neighbour. -/
def roundHalfEven (q : Rat) : Int :=
  let f := q.floor
  let r := q - f
  if r < 1 / 2 then f
  else if r > 1 / 2 then f + 1
  else if f % 2 = 0 then f else f + 1

namespace Binary64

def pow2 (e : Int) : Rat := if e ≥ 0 then (Nat.pow 2 e.toNat : Rat) else 1 / (Nat.pow 2 (-e).toNat : Rat)

/-- The place of the last kept binary digit of a positive number: the number lies between `2 ^ 52` and
`2 ^ 53` units of that place, unless it is too small for that. -/
def exponent (q : Rat) : Int :=
  let guess : Int := (q.num.natAbs.log2 : Int) - (q.den.log2 : Int)
  let top := if q < pow2 guess then guess - 1 else guess
  max (top - 52) (-1074)

/-- **The nearest number on the grid**, halves to the even one. -/
def nearest (q : Rat) : Rat :=
  if q = 0 then 0
  else
    let e := exponent (if q < 0 then -q else q)
    (roundHalfEven (q / pow2 e) : Rat) * pow2 e

/-- The least number that is too large: halfway from the largest number of the grid to the next power of
two. -/
def limit : Rat := pow2 1024 - pow2 970

def overflows (q : Rat) : Bool := limit ≤ q || limit ≤ -q

def natSqrt (n : Nat) : Nat :=
  let bits := n.log2 / 2 + 1
  (List.range (bits + 1)).foldr
    (fun i acc => let c := acc + Nat.pow 2 i; if c * c ≤ n then c else acc) 0

/-- The square root of a nonnegative number, rounded to the grid. -/
def sqrt (q : Rat) : Rat :=
  let square := q.num.natAbs * q.den * Nat.pow 2 240
  let s := natSqrt square
  let unit : Rat := 1 / ((q.den * Nat.pow 2 120 : Nat) : Rat)
  if s * s = square then nearest (s * unit) else nearest ((s + 1 / 2) * unit)

end Binary64
end Majorant
