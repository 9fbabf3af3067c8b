import Majorant.Statement.Connective

/-!
# Immediate entailment
-/

namespace Majorant
namespace Statement
open Term

/-- **Does the goal follow at once from a hypothesis?**  With `verbose`, the hypothesis is named.
Absent hypotheses are skipped. -/
def test (hyps : List Term) (goal : Term) (verbose : Bool) : Outcome Bool :=
  if goal = top || goal = lit (.bool true) then pure true
  else search hyps
where
  search : List Term → Outcome Bool
    | [] => pure false
    | h :: hs => do
      if h = lit .absent then search hs
      else if ← follows h goal then
        if verbose then
          Outcome.say ("Goal " ++ goal.text ++ " follows from hypothesis " ++ h.text ++ "!")
        return true
      else search hs

def setText (ts : List Term) : String :=
  match sortBy (fun a b => a ≤ b) (ts.eraseDups.map quoted) with
  | [] => "set()"
  | ss => "\x7b" ++ commas ss ++ "\x7d"

end Statement
end Majorant
