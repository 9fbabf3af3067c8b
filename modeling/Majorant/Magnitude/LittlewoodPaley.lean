import Majorant.Magnitude.Theta

/-!
# Frequency interactions

Frequencies that add up to zero have magnitudes the largest of which is comparable to the sum of the
others.  The statement of this relation between several magnitudes is kept whole until it is split
into cases; between two magnitudes it is their equality.
-/

namespace Majorant
namespace Magnitude
open Term

def asymp (a b : Term) : Outcome Term := do
  let a ← theta a
  let b ← theta b
  Statement.relate .eq a b

def interaction (ts : List Term) : Outcome Term :=
  match ts with
  | [] | [_] => .fail .tooFewMagnitudes
  | [a, b] => asymp a b
  | ts => do return app .littlewoodPaley (← ts.mapM theta)

/-- **The cases of an interaction**: each magnitude equals the largest of all the others. -/
def interactionCases (ts : List Term) : Outcome (List Term) :=
  (List.range ts.length).mapM fun i => do
    let others ← largest (ts.eraseIdx i)
    Statement.relate .eq (ts.getD i undefined) others

end Magnitude
end Majorant
