import Majorant.Number.Shortest

/-!
# A fixed number of significant digits

Measured quantities that meet exact ones are written with fifteen significant digits, final zeros
included.
-/

namespace Majorant
namespace Significant

def places : Nat := 15

def digits (q : Rat) : List Char × Int :=
  let e := Shortest.decimalExponent q
  let m := roundHalfEven (q / Shortest.pow10 (e - places + 1))
  let ds := (toString m).toList
  if ds.length > places then (ds.take places, e + 1) else (ds, e)

/-- **Fifteen significant digits**, positional for moderate sizes. -/
def text (q : Rat) : String :=
  if q = 0 then "0"
  else
    let sign := if q < 0 then "-" else ""
    let (ds, e) := digits (if q < 0 then -q else q)
    if -5 < e && e < 15 then sign ++ Shortest.positional ds (e + 1)
    else
      let mant := match ds with
        | [] => "0"
        | d :: rest => String.ofList (d :: '.' :: rest)
      sign ++ mant ++ "e" ++ (if e < 0 then "-" else "+") ++ toString e.natAbs

end Significant
end Majorant
