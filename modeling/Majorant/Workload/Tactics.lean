import Majorant.Exercise.Basic
import Majorant.Workload.Value

/-!
# Workloads on tactics
-/

namespace Majorant
namespace Workload
open Term Value

def tacticTexts (ts : List Tactic) : List Value := ts.map fun t => Value.text t.text

def lemmaOr (l : Lemma) (otherwise : String) : Value :=
  match (l.statement ⟨top, []⟩).result with
  | .ok t => term t
  | .error _ => Value.text otherwise

def meansProof : Outcome Value :=
  silently do
    Exercise.means.pose
    let x ← Session.evaluate (Expression.name "x" ^ 2)
    let y ← Session.evaluate (Expression.name "y" ^ 2)
    Session.use (.useLemma "this" (← Lemma.ofMeans [x, y]))
    Session.use (.linear false)
    mode

def lemmas (n : Nat) : Outcome (List Value) :=
  rounds n do
    let (x, y, t) := (positive "x", positive "y", positive "t")
    let (a, b, c) := (order "A", order "B", order "C")
    let l ← Lemma.ofMeans [x, y]
    let proved ← meansProof
    let interaction ← Magnitude.interaction [a, b, c]
    let pair ← Magnitude.interaction [a, b]
    let bracket ← Magnitude.bracket t
    let root ← Magnitude.sqrt t
    return [Value.text (Lemma.reflexivity x).text, Value.text l.text] ++
      tacticTexts [.useLemma "h" (.reflexivity x)] ++
      [Value.text Lemma.blank.text, lemmaOr .blank "ni"] ++
      tacticTexts [.applyTheta "ha" none, .applyTheta "ha" (some "nn"), .logLinear false true,
        .logLinear false false] ++
      [proved, term interaction, Value.text interaction.quoted, Value.text interaction.inner, term pair,
       term bracket, term root]

def noted (kind name : String) (hyp : Term → Outcome Term) (fact : SignFact) : Request Unit := do
  let v ← Session.declare kind name
  Session.assume (← hyp v) ("h" ++ name)
  Session.begin (← Operation.compare .ge v (lit (.int (-1))))
  Session.use (.noteSign fact (.named name))

def notedSigns (kind : String) : Outcome (List Value) := do
  let zero := lit (.int 0)
  let positive ← silently do
    noted kind "v" (fun v => Operation.compare .gt v zero) .positive
    mode
  let nonnegative ← silently do
    noted kind "v" (fun v => Operation.compare .ge v zero) .nonnegative
    mode
  let nonzero ← silently do
    noted kind "v" (fun v => Statement.relate .ne v zero) .nonzero
    written
  return [positive, nonnegative, nonzero]

def known (kind name : String) (fact : SignFact) (goal : Term → Outcome Term) : Outcome Value :=
  silently do
    let v ← Session.declare kind name
    Session.begin (← goal v)
    Session.use (.noteSign fact (.named name))
    written

def uniformChain (r : Rel) : Tactic := .chain ⟨[r, r, r], [num 1, num 2]⟩

def simplifications (n : Nat) : Outcome (List Value) :=
  rounds n do
    let (x, y) := (real "x", real "y")
    let le ← Statement.relate .le x y
    let lt ← Statement.relate .lt x y
    let ge ← Statement.relate .ge x y
    let gt ← Statement.relate .gt x y
    let greatest ← Evaluation.apply .max [x, y]
    let least ← Evaluation.apply .min [x, y]
    let ints ← notedSigns "int"
    let rats ← notedSigns "rat"
    let w ← known "pos_real" "w" .positive fun w => Operation.compare .gt w (lit (.int 0))
    let u ← known "nonzero_real" "u" .nonzero fun u => Operation.compare .ge u (lit (.int (-1)))
    let simplified ← ([([le], greatest), ([le], least), ([lt], lt), ([lt], gt), ([lt], le),
      ([gt], ge), ([gt], lt), ([lt], Proof.declare ⟨"x", .real⟩)].mapM fun p =>
        Simplifier.simplify false p.1 p.2).quiet
    let kept ← (Tactic.run ⟨lt, [("h", le)]⟩ (.simplifyAll false false)).quiet
    let closed ← (Tactic.run ⟨lt, [("h", lt)]⟩ (.simplifyAll false true)).quiet
    return tacticTexts [.noteSign .nonzero (.term x), .noteSign .positive (.term x),
        .noteSign .nonnegative (.term x)] ++
      ints ++ rats ++ [w, u] ++ simplified.map term ++
      tacticTexts [.simplifyAll false false, uniformChain .lt, uniformChain .le, uniformChain .gt,
        uniformChain .ge, uniformChain .eq, uniformChain .ne] ++
      [count kept.length, count closed.length]

def substitutionProof (ts : List Tactic) : Outcome Value :=
  silently do
    let x ← Session.declare "real" "x"
    let y ← Session.declare "real" "y"
    Session.assume (← Statement.relate .eq x y) "hx"
    Session.assume (← Operation.compare .gt x (lit (.int 0))) "hpos"
    Session.begin (← Operation.compare .gt y (lit (.int 0)))
    ts.forM Session.use
    Session.use (.linear false)
    mode

def substitutions (n : Nat) : Outcome (List Value) :=
  rounds n do
    let x := real "x"
    let ts : List Tactic := [.introduce "t" (sum [x, real "y"]), .substitute "hx" none false,
      .substitute "hx" (some "hpos") false, .substitute "hx" none true, .substituteAll "hx" false,
      .substituteAll "hx" true, .abbreviate "a" x]
    let proved ← substitutionProof ts
    return tacticTexts ts ++ [proved]

def propositions (n : Nat) : Outcome (List Value) :=
  rounds n do
    let p : Term := var ⟨"P", .prop⟩
    let ts : List Tactic := [.splitGoal, .contrapose "h", .splitHypothesis "h" [], .splitCases "h",
      .byCases p "this", .option 1, .claim p "this", .trivial]
    let proved ← silently do
      Exercise.caseSplit.pose
      Session.use (.splitCases "h1")
      Session.useEverywhere (.simplifyAll false false)
      mode
    return tacticTexts ts ++ [proved]

end Workload
end Majorant
