import Majorant.Exercise.Basic

/-!
# Solutions of the exercises
-/

namespace Majorant
namespace Exercise
open Expression

def useAll (ts : List Tactic) : Request Unit := ts.forM Session.use

def linarith : Tactic := .linear false

def logLinarith : Tactic := .logLinear false true

def simplify : Tactic := .simplifyAll false false

def claim (e : Expression) (label : String) : Request Unit := do
  Session.use (.claim (← Session.evaluate e) label)

def byCases (e : Expression) (label : String) : Request Unit := do
  Session.use (.byCases (← Session.evaluate e) label)

def abbreviate (label : String) (e : Expression) : Request Unit := do
  Session.use (.abbreviate label (← Session.evaluate e))

/-- In the case that `y` vanishes, substitute; in the other case, note that it does not. -/
def splitOnY : Request Unit := do
  byCases ((name "y").eq 0) "hy"
  useAll [.substitute "hy" none false, logLinarith, .noteSign .nonzero (.named "y"), logLinarith]

def finish : Exercise → Request Unit
  | linear | linearImpossible => Session.use (.linear true)
  | caseSplit => do
    Session.use (.splitCases "h1")
    Session.useEverywhere simplify
  | split => do
    useAll [.splitHypothesis "h1" [], .splitHypothesis "h2" [], .splitGoal]
    Session.useEverywhere linarith
  | pigeonhole => useAll [.contrapose "h", .splitHypothesis "h" [], linarith]
  | antisymmetry => Session.use simplify
  | integerGap => useAll [.splitHypothesis "h2" [], linarith]
  | extrema => do
    let (x, y) := (name "x", name "y")
    let least ← Session.evaluate (form .min [x, y])
    let greatest ← Session.evaluate (form .max [x, y])
    useAll [.abbreviate "a" least, .abbreviate "b" greatest, .splitHypothesis "a_def" [],
      .splitHypothesis "b_def" [], linarith]
  | positive => Session.use (.noteSign .positive (.named "x"))
  | nonnegative => Session.use (.noteSign .nonnegative (.named "x"))
  | trivial => Session.use .trivial
  | logLinear => Session.use logLinarith
  | logLinearHard => do
    useAll [.applyTheta "h1" none, .applyTheta "h2" none]
    claim (Expression.lesssim 1 (name "N")) "h3"
    Session.use logLinarith
    claim (Expression.lesssim 1 (name "N" ^ 2)) "h4"
    useAll [logLinarith, simplify, logLinarith]
  | logLinearImpossible => Session.use (.logLinear true true)
  | means => do
    let x ← Session.evaluate (name "x" ^ 2)
    let y ← Session.evaluate (name "y" ^ 2)
    Session.use (.useLemma "this" (← Lemma.ofMeans [x, y]))
    Session.use linarith
  | bracketProduct => do
    byCases ((name "x").eq 0) "hx"
    Session.use (.substitute "hx" none false)
    splitOnY
    Session.use (.noteSign .nonzero (.named "x"))
    splitOnY
  | littlewoodPaley => useAll [.splitCases "h", logLinarith, logLinarith, logLinarith]
  | complexLittlewoodPaley => do
    let inner := (List.replicate 3 [.substituteAll "hL" false, simplify, logLinarith]).flatten
    let outer := [.substituteAll "hN" false, simplify, .splitCases "hL"] ++ inner
    useAll (.splitCases "hN" :: (List.replicate 3 outer).flatten)
  | substitution => useAll [.substitute "hx" none false, .substitute "hy" none true]
  | substitutionAll => useAll [.substituteAll "hN" false, linarith]
  | substitutionAllReversed => useAll [.substituteAll "hN" true, linarith]
  | expansion => Session.use (.simplifyAll true false)
  | chain => useAll [.chain ⟨[.lt, .le], [.num 4]⟩, simplify, simplify]

def solve (e : Exercise) : Request Unit := do
  e.pose
  e.finish

def solveByLogarithms : Request Unit := do
  pose .logLinearHard
  Session.use logLinarith

/-- **A first look at connectives**: a disjunction, a conjunction and a substitution. -/
def propositions : Outcome Unit := do
  let p : Term := .var ⟨"p", .prop⟩
  let q : Term := .var ⟨"q", .prop⟩
  let either ← Statement.disj [p, q]
  let only ← Statement.conj [p, ← Statement.not q]
  Outcome.say either.text
  Outcome.say only.text
  let half ← Substitution.replace p Term.top either
  Outcome.say (← Substitution.replace q Term.bot half).text

end Exercise
end Majorant
