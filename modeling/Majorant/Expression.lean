import Majorant.Magnitude.Asymptotic
import Majorant.Magnitude.Bounded

/-!
# Expressions

Expressions are what a user writes: names, numbers and formers applied to expressions.
-/

namespace Majorant

inductive Former where
  | exact
  | add | sub | mul | div | pow | abs | max | min
  | compare (r : Rel)
  | relate (r : Rel)
  | equation
  | relateBy (sign : String)
  /-- The order of magnitude of the first argument compared with the second one. -/
  | thetaCompare (r : Rel)
  | and | or | not
  | truth (b : Bool)
  | theta | orderMax | orderMin | orderMul | orderPow
  | settle
  | undefined | difference
  | below (r : Rel) | above (r : Rel) | asymp
  | interaction | bracket | sqrt
  | fixed | bounded | declared
deriving DecidableEq, Repr

inductive Expression where
  | value (l : Literal)
  | name (s : String)
  | typed (kind name : String)
  | form (f : Former) (args : List Expression)
deriving Repr, Inhabited

def Variable.named (kind name : String) : Outcome Variable :=
  match Kind.ofName? kind with
  | some k => pure ⟨name, k⟩
  | none => .fail (.unknownKind kind)

namespace Former
open Term

def leftFold (f : Term → Term → Outcome Term) : List Term → Outcome Term
  | [] => .fail .mistyped
  | t :: ts => ts.foldlM f t

def exactValue (t : Term) : Outcome Term :=
  match t with
  | lit .absent => pure t
  | _ => ofLiteral t

def make (f : Former) (args : List Term) : Outcome Term :=
  match f, args with
  | exact, [t] => exactValue t
  | add, ts => leftFold Operation.add ts
  | sub, [t] => Operation.neg t
  | sub, ts => leftFold Operation.sub ts
  | mul, ts => leftFold Operation.mul ts
  | div, ts => leftFold Operation.div ts
  | pow, [a, b] => Operation.pow a b
  | abs, [t] => Operation.abs t
  | max, ts => Evaluation.apply .max ts
  | min, ts => Evaluation.apply .min ts
  | compare r, [a, b] => Operation.compare r a b
  | relate r, [a, b] => Statement.relate r a b
  | equation, [a, b] => do
    let a ← ofLiteral a
    let b ← ofLiteral b
    return app (.rel .eq) [a, b]
  | relateBy sign, [a, b] => Statement.relateBy sign a b
  | thetaCompare r, [a, b] => do
    if !b.isOrder then .fail .unanswerable
    else
      let a ← Magnitude.theta a
      Statement.relate r a b
  | and, ts => Statement.conj ts
  | or, ts => Statement.disj ts
  | not, [t] => Statement.not t
  | truth b, [] => pure (Term.truth b)
  | theta, [t] => Magnitude.theta t
  | orderMax, ts => Magnitude.largest ts
  | orderMin, ts => Magnitude.smallest ts
  | orderMul, ts => Magnitude.multiply ts
  | orderPow, ts => Magnitude.toPower ts
  | settle, [t] => Evaluation.settle t
  | undefined, [] => pure Term.undefined
  | difference, [a, b] => pure (app .difference [a, b])
  | below r, [a, b] => Magnitude.below r a b
  | above r, [a, b] => Magnitude.above r a b
  | asymp, [a, b] => Magnitude.asymp a b
  | interaction, ts => Magnitude.interaction ts
  | bracket, [t] => Magnitude.bracket t
  | sqrt, [t] => Magnitude.sqrt t
  | fixed, [t] => pure (app .fixed [t])
  | bounded, [t] => pure (app .bounded [t])
  | declared, [t] => pure (app .declared [t])
  | declared, _ => .fail .declarationArity
  | _, _ => .fail .mistyped

end Former

namespace Expression

mutual

/-- **The term an expression stands for.**  `meaning` says what the names stand for. -/
def evaluate (meaning : String → Outcome Term) : Expression → Outcome Term
  | value l => pure (.lit l)
  | name s => meaning s
  | typed kind s => do
    let v ← Variable.named kind s
    return .var v
  | form f args => do
    let ts ← evaluateList meaning args
    f.make ts

def evaluateList (meaning : String → Outcome Term) : List Expression → Outcome (List Term)
  | [] => pure []
  | e :: es => do
    let t ← evaluate meaning e
    let ts ← evaluateList meaning es
    return t :: ts

end

/-- The meaning of names as variables of a list; the last declaration of a name counts. -/
def declaredIn (vars : List Variable) (s : String) : Outcome Term :=
  match vars.reverse.find? (·.name == s) with
  | some v => pure (.var v)
  | none => .fail .outOfRange

instance (n : Nat) : OfNat Expression n := ⟨value (.int n)⟩

instance : Add Expression := ⟨fun a b => form .add [a, b]⟩

instance : Sub Expression := ⟨fun a b => form .sub [a, b]⟩

instance : Neg Expression := ⟨fun a => form .sub [a]⟩

instance : Mul Expression := ⟨fun a b => form .mul [a, b]⟩

instance : Div Expression := ⟨fun a b => form .div [a, b]⟩

instance : HPow Expression Nat Expression := ⟨fun a n => form .pow [a, value (.int n)]⟩

def toPower (a : Expression) (q : Rat) : Expression :=
  form .pow [a, value (if q.den = 1 then .int q.num else .ratio q)]

def lt (a b : Expression) : Expression := form (.compare .lt) [a, b]

def le (a b : Expression) : Expression := form (.compare .le) [a, b]

def gt (a b : Expression) : Expression := form (.compare .gt) [a, b]

def ge (a b : Expression) : Expression := form (.compare .ge) [a, b]

def eq (a b : Expression) : Expression := form (.relate .eq) [a, b]

def and (a b : Expression) : Expression := form .and [a, b]

def or (a b : Expression) : Expression := form .or [a, b]

def not (a : Expression) : Expression := form .not [a]

def lesssim (a b : Expression) : Expression := form (.below .le) [a, b]

def gtrsim (a b : Expression) : Expression := form (.above .ge) [a, b]

end Expression
end Majorant
