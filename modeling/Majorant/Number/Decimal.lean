import Majorant.Number.Shortest

/-!
# Reading decimals

A decimal is read as the nearest number with 53 significant binary digits.
-/

namespace Majorant
namespace Decimal

def natural (ds : List Char) : Nat := ds.foldl (fun n c => 10 * n + (c.toNat - '0'.toNat)) 0

/-- The largest exponent that is looked at; every number with a larger one is out of all bounds. -/
def exponentBound : Int := 5000

/-- The number with the digits `whole` before the point, `frac` after it, times ten to `e`. -/
def value (negative : Bool) (whole frac : List Char) (e : Int) : Rat :=
  let place := max (-exponentBound) (min exponentBound (e - frac.length))
  let q := Binary64.nearest ((natural (whole ++ frac) : Rat) * Shortest.pow10 place)
  if negative then -q else q

def sign : List Char → Bool × List Char
  | '-' :: rest => (true, rest)
  | '+' :: rest => (false, rest)
  | cs => (false, cs)

/-- An exponent: a mark, a sign and at least one digit, and what follows them. -/
def exponent? : List Char → Option (Int × List Char)
  | c :: rest =>
    if c = 'e' || c = 'E' then
      let (negative, ds) := sign rest
      let run := ds.takeWhile Char.isDigit
      if run.isEmpty then none
      else
        let n : Int := natural run
        some (if negative then -n else n, ds.dropWhile Char.isDigit)
    else none
  | [] => none

/-- Take away the underscores that group digits; each has to stand between two of them. -/
def ungrouped? (cs : List Char) : Option (List Char) :=
  let neighbours := ('_' :: cs).zip (cs.zip (cs.drop 1 ++ ['_']))
  if neighbours.all fun (b, c, a) => c != '_' || (b.isDigit && a.isDigit) then
    some (cs.filter (· != '_'))
  else none

def isBlank (c : Char) : Bool := c = ' ' || (9 ≤ c.toNat && c.toNat ≤ 13)

def trimmed (cs : List Char) : List Char :=
  ((cs.dropWhile isBlank).reverse.dropWhile isBlank).reverse

/-- **A whole text as a number**: digits with at most one point among them, a sign before and an
exponent after them at will. -/
def read? (s : String) : Option Rat := do
  let cs ← ungrouped? (trimmed s.toList)
  let (negative, cs) := sign cs
  let whole := cs.takeWhile Char.isDigit
  let rest := cs.dropWhile Char.isDigit
  let (frac, rest) := match rest with
    | '.' :: more => (more.takeWhile Char.isDigit, more.dropWhile Char.isDigit)
    | _ => ([], rest)
  if whole.isEmpty && frac.isEmpty then none
  else
    match rest with
    | [] => some (value negative whole frac 0)
    | _ =>
      match exponent? rest with
      | some (e, []) => some (value negative whole frac e)
      | _ => none

end Decimal
end Majorant
