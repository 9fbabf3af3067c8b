import Majorant.Number.Binary64

/-!
# The shortest decimal that reads back

A number on the grid of 53 binary digits is written with the fewest decimal digits that round back to
it; of two such decimals the nearer one.
-/

namespace Majorant
namespace Shortest

def pow10 (e : Int) : Rat := if e ≥ 0 then (Nat.pow 10 e.toNat : Rat) else 1 / (Nat.pow 10 (-e).toNat : Rat)

/-- The largest `e` with `10 ^ e ≤ q`, for positive `q`. -/
def decimalExponent (q : Rat) : Int :=
  let guess : Int := (((q.num.natAbs.log2 : Int) - (q.den.log2 : Int)) * 30103).fdiv 100000
  let low := guess - 2
  (List.range 5).foldl (fun acc (i : Nat) => if pow10 (low + i) ≤ q then low + i else acc) low

/-- The decimal with `n` digits nearest to `q`, if it rounds back to `q`: its digits as a number and
the place of the last one. -/
def withDigits? (q : Rat) (n : Nat) : Option (Nat × Int) :=
  let e := decimalExponent q - (n : Int) + 1
  let m := roundHalfEven (q / pow10 e)
  if Binary64.nearest (m * pow10 e) = q then some (m.toNat, e) else none

def digits (q : Rat) : Nat × Int :=
  match (List.range 17).findSome? (fun i => withDigits? q (i + 1)) with
  | some d => d
  | none => (roundHalfEven q |>.toNat, 0)

def stripZeros (s : List Char) : List Char := (s.reverse.dropWhile (· == '0')).reverse

/-- The digits with a point after the first `n` of them, padded with zeros where needed. -/
def positional (ds : List Char) (n : Int) : String :=
  if n ≤ 0 then "0." ++ String.ofList (List.replicate (-n).toNat '0' ++ ds)
  else
    let k := n.toNat
    let whole := ds.take k ++ List.replicate (k - ds.length) '0'
    let frac := ds.drop k
    String.ofList whole ++ "." ++ (if frac.isEmpty then "0" else String.ofList frac)

/-- **Shortest text.**  Numbers from `0.0001` up to `10 ^ 16` are written positionally, with at least
one digit after the point. -/
def text (q : Rat) : String :=
  if q = 0 then "0.0"
  else
    let sign := if q < 0 then "-" else ""
    let a := if q < 0 then -q else q
    let (m, e) := digits a
    let all := (toString m).toList
    let n : Int := (all.length : Int) + e
    let ds := stripZeros all
    if -4 < n && n ≤ 16 then sign ++ positional ds n
    else
      let x := n - 1
      let mant := match ds with
        | [] => "0"
        | d :: [] => String.ofList [d]
        | d :: rest => String.ofList (d :: '.' :: rest)
      let mag := toString x.natAbs
      sign ++ mant ++ "e" ++ (if x < 0 then "-" else "+") ++
        (if mag.length < 2 then "0" ++ mag else mag)

end Shortest
end Majorant
