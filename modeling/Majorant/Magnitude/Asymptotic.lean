import Majorant.Operation

/-!
# Asymptotic comparisons

Statements that one quantity is much smaller than another one, or at most comparable to it, are
comparisons of their orders of magnitude.
-/

namespace Majorant
namespace Magnitude
open Term

def below (r : Rel) (a b : Term) : Outcome Term := do
  let a ← Operation.abs a
  let a ← theta a
  let b ← theta b
  Operation.compare r a b

def above (r : Rel) (a b : Term) : Outcome Term := do
  let a ← theta a
  let b ← Operation.abs b
  let b ← theta b
  Operation.compare r a b

def measuredRoot (q : Rat) : Outcome Term := do
  let q ← Operation.measure q
  return lit (.float (Binary64.sqrt q))

/-- The square root of a term.  That of a written number is measured. -/
def sqrt (t : Term) : Outcome Term :=
  match t with
  | lit (.int n) => measuredRoot n
  | lit (.ratio q) => measuredRoot q
  | _ => Operation.pow t (lit (.ratio (1 / 2)))

def square (t : Term) : Outcome Term :=
  match t with
  | lit (.int n) => pure (lit (.int (n * n)))
  | lit (.ratio q) => pure (lit (.ratio (q * q)))
  | _ => Operation.pow t (lit (.int 2))

/-- The bracket `sqrt (1 + |x| ^ 2)` of a term. -/
def bracket (t : Term) : Outcome Term := do
  let t ← Operation.abs t
  let t ← square t
  let t ← Operation.add (lit (.int 1)) t
  sqrt t

end Magnitude
end Majorant
