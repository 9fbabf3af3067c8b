import Majorant.Number.Binary64

/-!
# A fixed number of places

Measured quantities are reported with a fixed number of decimal places.
-/

namespace Majorant
namespace Fixed

def units (places : Nat) (q : Rat) : Int := roundHalfEven (q * (Nat.pow 10 places : Rat))

def zeroFilled (n : Nat) (s : String) : String :=
  String.ofList (List.replicate (n - s.length) '0') ++ s

/-- **Decimal text with `places` places.**  A negative number keeps its sign even if all its written
digits are zero. -/
def text (places : Nat) (q : Rat) : String :=
  let m := (units places q).natAbs
  let scale := Nat.pow 10 places
  let whole := toString (m / scale)
  let sign := if q < 0 then "-" else ""
  if places = 0 then sign ++ whole else sign ++ whole ++ "." ++ zeroFilled places (toString (m % scale))

/-- The number cut to `places` places, on the grid of 53 binary digits. -/
def round (places : Nat) (q : Rat) : Rat :=
  Binary64.nearest ((units places q : Rat) / (Nat.pow 10 places : Rat))

end Fixed
end Majorant
