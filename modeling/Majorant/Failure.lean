import Majorant.Term.Print

/-!
# Failures

Why an operation was refused.
-/

namespace Majorant

/-- Session operations that are only available in the other mode. -/
inductive Refusal where
  | addHypothesis | introduceVariable | clearHypotheses | readState | startProof
  | abandonProof | alreadyAssuming | alreadyProving | noProof | applyTactic
  | setNode | nextGoal | previousGoal | firstGoal | lastGoal | moveBack | moveForward | undo
deriving DecidableEq, Repr

def Refusal.message : Refusal → String
  | addHypothesis => "Cannot add hypotheses in tactic mode.  Please switch to assumption mode."
  | introduceVariable =>
    "Cannot introduce variables in tactic mode.  Please switch to assumption mode."
  | clearHypotheses => "Cannot clear hypotheses in tactic mode.  Please switch to assumption mode."
  | readState => "Cannot get proof state in assumption mode.  Please switch to tactic mode."
  | startProof => "Cannot start a proof in tactic mode.  Please switch to assumption mode."
  | abandonProof => "Cannot abandon a proof in assumption mode.  Please start a proof first."
  | alreadyAssuming => "You are already in assumption mode!"
  | alreadyProving => "You are already in tactic mode!"
  | noProof => "No proof tree available."
  | applyTactic => "Cannot apply tactics in assumption mode.  Please switch to tactic mode."
  | setNode => "Cannot set current node in assumption mode."
  | nextGoal => "Cannot move to next goal in assumption mode."
  | previousGoal => "Cannot move to previous goal in assumption mode."
  | firstGoal => "Cannot move to first goal in assumption mode."
  | lastGoal => "Cannot move to last goal in assumption mode."
  | moveBack => "Cannot move back in assumption mode."
  | moveForward => "Cannot move forward in assumption mode."
  | undo => "Cannot undo in assumption mode."

inductive Failure where
  /-- A term of the wrong sort, such as a statement under an inequality sign. -/
  | mistyped
  | unanswerable
  | unacceptable
  | outOfRange
  | divisionByZero
  | overflow
  /-- A name that cannot be handed to the solver. -/
  | unencodable
  | unknownKind (name : String)
  | declarationArity
  | abstractLemma
  | noQuantities
  | possiblyNegative (t : Term)
  | lemmaUndefined (t : Term)
  | invalidSense (sense : String)
  | neitherFeasible
  | nonzeroConstant
  | tooFewMagnitudes
  | noSuchHypothesis (name : String)
  | notRelational (name : String)
  | notEquality (name : String)
  | unequality
  | declarationTarget
  | notDefined (t : Term)
  | notProposition (text : String)
  | assumptionNotProposition (t : Term)
  | assumptionNotDefined (t : Term)
  | goalNotProposition (t : Term)
  | goalNotDefined (t : Term)
  | noDisjunction (goal : Term)
  | tooFewDisjuncts (goal : Term) (count : Nat)
  | optionNotPositive (n : Int)
  | calcEven
  | calcNotText (text : String)
  | calcNotRelation (text : String)
  | calcNotQuantity (t : Term)
  | goalNotRelational (goal : Term)
  | calcNotImplied (block : String) (goal : Term)
  | provenPositive (name : String)
  | provenNonnegative (name : String)
  | hypothesisMissing (name : String)
  | variableMissing (name : String)
  | hypothesisUnassumed (name : String)
  | variableUnassumed (name : String)
  | isDeclaration (name : String)
  | isHypothesis (name : String)
  | declarationRemoved (name : String)
  | declarationRenamed (name : String)
  | nameTaken (name : String)
  | renameMissing (name : String)
  | variableUnknown (t : Term)
  | noCurrentNode
  | noTree
  | notTactic (text : String)
  | refused (why : Refusal)
deriving DecidableEq, Repr

inductive Grade where
  /-- The input is of the right shape and still not acceptable. -/
  | invalid
  /-- A condition that callers promise does not hold. -/
  | violated
  /-- Nothing is implemented for the case. -/
  | unimplemented
  | mistyped
  | unanswerable
  | outOfRange
  | divisionByZero
  | overflow
  | unencodable
deriving DecidableEq, Repr

namespace Failure

def kindList : String :=
  "'int', 'pos_int', 'nonneg_int', `nonzero_int`, 'real', 'pos_real', 'nonneg_real', " ++
  "'nonzero_real', 'rat', 'pos_rat`, 'nonneg_rat', 'nonzero_rat', 'complex', " ++
  "'nonzero_complex', 'bool', 'order'"

def message : Failure → Option String
  | mistyped | unanswerable | unacceptable | outOfRange | divisionByZero | overflow | unencodable => none
  | unknownKind k => some s!"Unknown type {k}.  Currently accepted types: {kindList}."
  | declarationArity => some "Type requires exactly one argument."
  | abstractLemma => some "This method should be implemented in a subclass."
  | noQuantities => some "At least one variable is required."
  | possiblyNegative t => some (t.text ++ " must be a nonnegative expression.")
  | lemmaUndefined t => some (t.text ++ " is not defined in the current proof state.")
  | invalidSense s => some ("Invalid sense: " ++ s)
  | neitherFeasible =>
    some "Farkas lemma violation!  Problem is neither feasible nor infeasible."
  | nonzeroConstant => some "The right-hand side must be zero for this representation."
  | tooFewMagnitudes => some "LittlewoodPaley() requires at least two arguments."
  | noSuchHypothesis n => some (n ++ " is not a hypothesis in the current proof state.")
  | notRelational n => some (n ++ " is not a relational hypothesis.")
  | notEquality n => some (n ++ " is not an equality hypothesis.")
  | unequality => some "Unequalities do not have useful asymptotic forms."
  | declarationTarget => some "Cannot target a variable declaration for substitution."
  | notDefined t => some (t.text ++ " is not defined in the current proof state.")
  | notProposition s => some (s ++ " is not a proposition.")
  | assumptionNotProposition t => some ("Assumption " ++ t.text ++ " is not a proposition.")
  | assumptionNotDefined t =>
    some ("Assumption " ++ t.text ++ " is not defined in terms of the current variables.")
  | goalNotProposition t => some ("Goal " ++ t.text ++ " is not a proposition.")
  | goalNotDefined t =>
    some ("Goal " ++ t.text ++ " is not defined in terms of the current variables.")
  | noDisjunction t => some ("Goal " ++ t.text ++ " did not split into a disjunction.")
  | tooFewDisjuncts t n => some ("Goal " ++ t.text ++ s!" only had {n} disjuncts.")
  | optionNotPositive n => some s!"Argument {n} of Option() must be positive."
  | calcEven => some "Calc block must have an odd number of arguments."
  | calcNotText s => some ("Argument " ++ s ++ " must be a string.")
  | calcNotRelation s => some ("Argument " ++ s ++ " must be one of <, <=, >, >=, ==, !=.")
  | calcNotQuantity t => some ("Argument " ++ t.text ++ " must be a sympy expression.")
  | goalNotRelational t => some ("Goal " ++ t.text ++ " is not a relational expression.")
  | calcNotImplied b t =>
    some ("Calc block " ++ b ++ " will not imply the goal " ++ t.text ++ ".")
  | provenPositive n =>
    some ("INCONSISTENCY: " ++ n ++
      ":<function typeof> was somehow proven positive, which is impossible.")
  | provenNonnegative n =>
    some ("INCONSISTENCY: " ++ n ++
      ":<function typeof> was somehow proven nonnegative, which is impossible.")
  | hypothesisMissing n => some ("Hypothesis " ++ n ++ " not found in proof state.")
  | variableMissing n => some ("Variable " ++ n ++ " not found in proof state.")
  | hypothesisUnassumed n => some ("Hypothesis " ++ n ++ " not found in lisat of assumptions.")
  | variableUnassumed n => some ("Variable " ++ n ++ " not found in list of assumptions.")
  | isDeclaration n =>
    some ("Hypothesis " ++ n ++
      " is a variable declaration.  Use get_var() to get the variable.")
  | isHypothesis n =>
    some ("Hypothesis " ++ n ++
      " is a hypothesis, not a variable.  Use get_hypothesis() to get the hypothesis.")
  | declarationRemoved n =>
    some ("Hypothesis " ++ n ++
      " is a variable declaration.  Removing variables is currently unimplemented.")
  | declarationRenamed n =>
    some ("Hypothesis " ++ n ++
      " is a variable declaration.  Renaming variables is currently unimplemented.")
  | nameTaken n =>
    some ("Hypothesis " ++ n ++ " already exists.  Please choose a different name.")
  | renameMissing n => some ("Hypothesis " ++ n ++ " not found in proof state.")
  | variableUnknown t => some ("Variable " ++ t.text ++ " not found in proof state.")
  | noCurrentNode => some "Current node is not initialized."
  | noTree => some "Proof tree is not initialized."
  | notTactic s => some ("Tactic " ++ s ++ " is not a valid tactic.")
  | refused why => some why.message

def grade : Failure → Grade
  | mistyped => .mistyped
  | unanswerable => .unanswerable
  | outOfRange => .outOfRange
  | divisionByZero => .divisionByZero
  | overflow => .overflow
  | unencodable => .unencodable
  | abstractLemma => .unimplemented
  | declarationArity | noQuantities | possiblyNegative _ | lemmaUndefined _ | invalidSense _
  | nonzeroConstant | optionNotPositive _ | calcNotText _ | calcNotRelation _
  | calcNotQuantity _ | goalNotRelational _ | calcNotImplied _ _ | hypothesisMissing _
  | variableMissing _ | hypothesisUnassumed _ | variableUnassumed _ | noCurrentNode
  | noTree => .violated
  | _ => .invalid

end Failure
end Majorant
