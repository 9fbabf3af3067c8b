import Majorant.Tactic.LogLinear
import Majorant.Tactic.Logic
import Majorant.Tactic.Simplify
import Majorant.Tactic.Substitute

/-!
# Running tactics
-/

namespace Majorant
namespace Tactic
open Proof

def useLemmaOf (name : String) (l : Lemma) (s : State) : Outcome (List State) := do
  let name := s.fresh name
  let t ← l.statement s
  Outcome.say ("Applying lemma " ++ l.text ++ " to conclude " ++ describe name t ++ ".")
  return [s.put name t]

def outlineOf (goals : List (Option Term)) (s : State) : List State :=
  goals.map fun g => s.withGoal (g.getD s.goal)

def run (s : State) : Tactic → Outcome (List State)
  | linear verbose => linearOf verbose s
  | logLinear verbose splitExtrema => logLinearOf verbose splitExtrema s
  | applyTheta hyp newName => applyThetaOf hyp newName s
  | simplifyAll thorough again => simplifyAllOf thorough again s
  | noteSign fact target => noteSignOf fact target s
  | chain c => chainOf c s
  | introduce name t => introduceOf name t s
  | abbreviate name t => abbreviateOf name t s
  | substitute hyp target reversed => substituteOf hyp target reversed s
  | substituteAll hyp reversed => substituteAllOf hyp reversed s
  | splitGoal => splitGoalOf s
  | trivial => trivialOf s
  | contrapose hyp => contraposeOf hyp s
  | splitHypothesis hyp names => splitHypothesisOf hyp names s
  | splitCases hyp => splitCasesOf hyp s
  | byCases t name => byCasesOf t name s
  | option n => optionOf n s
  | claim t name => claimOf t name s
  | useLemma name l => useLemmaOf name l s
  | outline _ goals => pure (outlineOf goals s)

end Tactic
end Majorant
