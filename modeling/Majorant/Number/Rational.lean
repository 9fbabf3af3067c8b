/-!
# Lists of rational numbers
-/

namespace Majorant
namespace Rational

def larger (a b : Rat) : Rat := if a ≤ b then b else a

def smaller (a b : Rat) : Rat := if a ≤ b then a else b

def total : List Rat → Rat
  | [] => 0
  | q :: qs => q + total qs

end Rational
end Majorant
