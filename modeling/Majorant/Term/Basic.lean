import Majorant.Term.Variable

/-!
# Terms

One type of terms serves for numbers, orders of magnitude, statements and declarations: a term is an
exact number, a truth value, a variable, a literal as it was written, or a head applied to arguments.

## Design notes

Constructing `Term.app` directly performs no evaluation.  The evaluated forms are built by
`Term.sum`, `Term.product`, `Term.power` and their companions in the modules that follow.
-/

namespace Majorant

inductive Rel where
  | le | lt | ge | gt | eq | ne
deriving DecidableEq, Repr, Inhabited

namespace Rel

def flip : Rel → Rel
  | le => ge
  | lt => gt
  | ge => le
  | gt => lt
  | eq => eq
  | ne => ne

/-- The relation that holds exactly when this one does not. -/
def negate : Rel → Rel
  | le => gt
  | lt => ge
  | ge => lt
  | gt => le
  | eq => ne
  | ne => eq

def symbol : Rel → String
  | le => "<="
  | lt => "<"
  | ge => ">="
  | gt => ">"
  | eq => "=="
  | ne => "!="

def ofSymbol? : String → Option Rel
  | "<=" => some le
  | "<" => some lt
  | ">=" => some ge
  | ">" => some gt
  | "==" => some eq
  | "!=" => some ne
  | _ => none

theorem flip_flip (r : Rel) : r.flip.flip = r := by cases r <;> rfl

theorem negate_negate (r : Rel) : r.negate.negate = r := by cases r <;> rfl

end Rel

/-- Numbers and values as they are written, before they take part in a term. -/
inductive Literal where
  | int (n : Int)
  | ratio (q : Rat)
  | bool (b : Bool)
  | float (q : Rat)
  | absent
deriving DecidableEq, Repr, Inhabited

def ratText (q : Rat) : String :=
  if q.den = 1 then toString q.num else toString q.num ++ "/" ++ toString q.den

/-- Values outside the number line that division by zero leads to. -/
inductive Special where
  | complexInfinity
  | infinity
  | negInfinity
  | indeterminate
deriving DecidableEq, Repr, Inhabited

/-- The operations, connectives and markers of terms. -/
inductive Head where
  | add | mul | pow | abs | max | min
  | rel (r : Rel)
  | and | or | not
  | theta | orderMax | orderMin | orderMul | orderPow
  | undefined | difference
  | littlewoodPaley | fixed | bounded
  | declared
deriving DecidableEq, Repr, Inhabited

/-- The heads whose applications are quantities rather than statements. -/
def Head.isQuantity : Head → Bool
  | rel _ | and | or | not | littlewoodPaley | fixed | bounded | declared => false
  | _ => true

/-- Terms.  `declared` applied to a variable is the statement that declares it. -/
inductive Term where
  | lit (l : Literal)
  | num (q : Rat)
  | special (s : Special)
  | truth (b : Bool)
  | var (v : Variable)
  | app (h : Head) (args : List Term)
deriving Repr, Inhabited

namespace Term

mutual

def decEq : (a b : Term) → Decidable (a = b)
  | lit a, lit b => if h : a = b then isTrue (by rw [h]) else isFalse (by simp [h])
  | num a, num b => if h : a = b then isTrue (by rw [h]) else isFalse (by simp [h])
  | special a, special b => if h : a = b then isTrue (by rw [h]) else isFalse (by simp [h])
  | truth a, truth b => if h : a = b then isTrue (by rw [h]) else isFalse (by simp [h])
  | var a, var b => if h : a = b then isTrue (by rw [h]) else isFalse (by simp [h])
  | app f as, app g bs =>
    if h : f = g then
      match decEqList as bs with
      | isTrue h' => isTrue (by rw [h, h'])
      | isFalse h' => isFalse (by simp [h'])
    else isFalse (by simp [h])
  | lit _, num _ => isFalse (by simp)
  | lit _, special _ => isFalse (by simp)
  | lit _, truth _ => isFalse (by simp)
  | lit _, var _ => isFalse (by simp)
  | lit _, app _ _ => isFalse (by simp)
  | num _, lit _ => isFalse (by simp)
  | num _, special _ => isFalse (by simp)
  | num _, truth _ => isFalse (by simp)
  | num _, var _ => isFalse (by simp)
  | num _, app _ _ => isFalse (by simp)
  | special _, lit _ => isFalse (by simp)
  | special _, num _ => isFalse (by simp)
  | special _, truth _ => isFalse (by simp)
  | special _, var _ => isFalse (by simp)
  | special _, app _ _ => isFalse (by simp)
  | truth _, lit _ => isFalse (by simp)
  | truth _, num _ => isFalse (by simp)
  | truth _, special _ => isFalse (by simp)
  | truth _, var _ => isFalse (by simp)
  | truth _, app _ _ => isFalse (by simp)
  | var _, lit _ => isFalse (by simp)
  | var _, num _ => isFalse (by simp)
  | var _, special _ => isFalse (by simp)
  | var _, truth _ => isFalse (by simp)
  | var _, app _ _ => isFalse (by simp)
  | app _ _, lit _ => isFalse (by simp)
  | app _ _, num _ => isFalse (by simp)
  | app _ _, special _ => isFalse (by simp)
  | app _ _, truth _ => isFalse (by simp)
  | app _ _, var _ => isFalse (by simp)

def decEqList : (as bs : List Term) → Decidable (as = bs)
  | [], [] => isTrue rfl
  | a :: as, b :: bs =>
    match decEq a b with
    | isTrue h =>
      match decEqList as bs with
      | isTrue h' => isTrue (by rw [h, h'])
      | isFalse h' => isFalse (by simp [h'])
    | isFalse h => isFalse (by simp [h])
  | [], _ :: _ => isFalse (by simp)
  | _ :: _, [] => isFalse (by simp)

end

instance : DecidableEq Term := decEq

def args : Term → List Term
  | app _ as => as
  | _ => []

mutual

def size : Term → Nat
  | app _ as => 1 + sizeList as
  | _ => 1

def sizeList : List Term → Nat
  | [] => 0
  | a :: as => a.size + sizeList as

end

mutual

def freeVariables : Term → List Variable
  | var v => [v]
  | app _ as => freeVariablesList as
  | _ => []

def freeVariablesList : List Term → List Variable
  | [] => []
  | a :: as => a.freeVariables ++ freeVariablesList as

end

mutual

/-- No variable occurs and the term denotes a quantity.  A magnitude of a number, and the undefined
magnitude, count as numbers too. -/
def isNumber : Term → Bool
  | lit (.int _) | lit (.ratio _) | lit (.float _) => true
  | num _ | special _ => true
  | app h as => h.isQuantity && isNumberList as
  | _ => false

def isNumberList : List Term → Bool
  | [] => true
  | a :: as => a.isNumber && isNumberList as

end

mutual

/-- A formal difference that a written number takes part in before anything that is no number: nothing
can be asked about such a term. -/
def evades : Term → Bool
  | app .difference (lit _ :: _) => true
  | app .difference [a, lit _] => a.isNumber || a.evades
  | app _ as => evadesList as
  | _ => false

def evadesList : List Term → Bool
  | [] => false
  | a :: as => a.evades || evadesList as

end

def zero : Term := num 0

def one : Term := num 1

def top : Term := truth true

def bot : Term := truth false

def undefined : Term := app .undefined []

/-- A term that is a comparison, with its relation and its sides. -/
def asRel? : Term → Option (Rel × Term × Term)
  | app (.rel r) [a, b] => some (r, a, b)
  | _ => none

def isRel (t : Term) : Bool := t.asRel?.isSome

/-- **Orders of magnitude**: order variables and the applications of the magnitude heads. -/
def isOrder : Term → Bool
  | var v => v.kind == .order
  | app .theta _ | app .orderMax _ | app .orderMin _ | app .orderMul _ | app .orderPow _ => true
  | _ => false

/-- A statement that can stand as a hypothesis or a goal.  Every variable counts as one. -/
def isStatement : Term → Bool
  | truth _ | var _ => true
  | app h _ => match h with
    | .rel _ | .and | .or | .not | .littlewoodPaley | .fixed | .bounded => true
    | _ => false
  | _ => false

def isQuantity : Term → Bool
  | num _ | special _ | var _ => true
  | app h _ => h.isQuantity
  | _ => false

end Term
end Majorant
