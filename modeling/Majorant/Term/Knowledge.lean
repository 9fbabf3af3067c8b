import Majorant.Term.Basic

/-!
# Knowledge about values

What is known of the value of a term is kept as the list of *classes* of values it may still have.
A property is known to hold when every remaining class has it, known to fail when none has it, and
open otherwise.  Learning a property strikes out the classes that contradict it, so that everything
a set of learned properties entails is known as well.
-/

namespace Majorant

/-- Classes of values.  Orders of magnitude and other objects that are no numbers need not commute,
and may count as finite or infinite. -/
inductive ValueClass where
  | zero
  | posEven | posOdd | negEven | negOdd
  | posRatio | negRatio
  | posIrrational | negIrrational
  | imaginary | otherComplex
  | posInfinite | negInfinite | otherInfinite
  | otherFinite
  | noncommutingFinite | noncommutingInfinite
deriving DecidableEq, Repr

namespace ValueClass

def all : List ValueClass :=
  [zero, posEven, posOdd, negEven, negOdd, posRatio, negRatio, posIrrational, negIrrational,
    imaginary, otherComplex, posInfinite, negInfinite, otherInfinite, otherFinite,
    noncommutingFinite, noncommutingInfinite]

theorem mem_all (c : ValueClass) : c ∈ all := by cases c <;> decide

def ofRat (q : Rat) : ValueClass :=
  if q = 0 then zero
  else if q.den = 1 then
    if q.num % 2 = 0 then (if q.num > 0 then posEven else negEven)
    else (if q.num > 0 then posOdd else negOdd)
  else if q.num > 0 then posRatio else negRatio

def isInteger : ValueClass → Bool
  | zero | posEven | posOdd | negEven | negOdd => true
  | _ => false

def isRational : ValueClass → Bool
  | posRatio | negRatio => true
  | c => c.isInteger

def isReal : ValueClass → Bool
  | posIrrational | negIrrational => true
  | c => c.isRational

def isComplex : ValueClass → Bool
  | imaginary | otherComplex => true
  | c => c.isReal

def isPositive : ValueClass → Bool
  | posEven | posOdd | posRatio | posIrrational | posInfinite => true
  | _ => false

def isNegative : ValueClass → Bool
  | negEven | negOdd | negRatio | negIrrational | negInfinite => true
  | _ => false

def isInfinite : ValueClass → Bool
  | posInfinite | negInfinite | otherInfinite | noncommutingInfinite => true
  | _ => false

/-- Real numbers and the two infinities at the ends of the real line. -/
def isExtended : ValueClass → Bool
  | posInfinite | negInfinite => true
  | c => c.isReal

def commutes : ValueClass → Bool
  | noncommutingFinite | noncommutingInfinite => false
  | _ => true

end ValueClass

/-- Properties of values.  Those named `ext…` are about the extended real line; those without are
about finite numbers only. -/
inductive Property where
  | commutative
  | finite | infinite
  | complex | real | extReal | imaginary
  | rational | irrational | integer | even | odd
  | zero
  | positive | negative | nonnegative | nonpositive | nonzero
  | extPositive | extNegative | extNonnegative | extNonpositive | extNonzero
deriving DecidableEq, Repr

namespace Property

def holds : Property → ValueClass → Bool
  | commutative, c => c.commutes
  | finite, c => !c.isInfinite
  | infinite, c => c.isInfinite
  | complex, c => c.isComplex
  | real, c => c.isReal
  | extReal, c => c.isExtended
  | imaginary, c => c == .imaginary
  | rational, c => c.isRational
  | irrational, c => c.isReal && !c.isRational
  | integer, c => c.isInteger
  | even, c => c == .zero || c == .posEven || c == .negEven
  | odd, c => c == .posOdd || c == .negOdd
  | zero, c => c == .zero
  | positive, c => c.isPositive && !c.isInfinite
  | negative, c => c.isNegative && !c.isInfinite
  | nonnegative, c => c.isReal && !c.isNegative
  | nonpositive, c => c.isReal && !c.isPositive
  | nonzero, c => c.isReal && c != .zero
  | extPositive, c => c.isPositive
  | extNegative, c => c.isNegative
  | extNonnegative, c => c.isExtended && !c.isNegative
  | extNonpositive, c => c.isExtended && !c.isPositive
  | extNonzero, c => c.isExtended && c != .zero

end Property

/-- The classes a value may still have. -/
structure Knowledge where
  possible : List ValueClass
deriving Repr, DecidableEq

namespace Knowledge

def unknown : Knowledge := ⟨ValueClass.all⟩

def exact (q : Rat) : Knowledge := ⟨[ValueClass.ofRat q]⟩

/-- Is the property known to hold, known to fail, or open? -/
def ask (k : Knowledge) (p : Property) : Option Bool :=
  if k.possible.all p.holds then some true
  else if k.possible.all (fun c => !p.holds c) then some false
  else none

def is (k : Knowledge) (p : Property) : Bool := k.ask p == some true

def isNot (k : Knowledge) (p : Property) : Bool := k.ask p == some false

/-- Strike out the classes that contradict an answer; an open answer changes nothing, and neither
does one that no remaining class agrees with. -/
def learn (k : Knowledge) (p : Property) : Option Bool → Knowledge
  | none => k
  | some b =>
    let rest := k.possible.filter (fun c => p.holds c == b)
    if rest.isEmpty then k else ⟨rest⟩

def learnAll (k : Knowledge) (answers : List (Property × Option Bool)) : Knowledge :=
  answers.foldl (fun k a => k.learn a.1 a.2) k

def ofKind : Kind → Knowledge
  | .int => unknown.learn .integer (some true)
  | .posInt => (unknown.learn .integer (some true)).learn .positive (some true)
  | .nonnegInt => (unknown.learn .integer (some true)).learn .nonnegative (some true)
  | .nonzeroInt => (unknown.learn .integer (some true)).learn .nonzero (some true)
  | .real => unknown.learn .real (some true)
  | .posReal => unknown.learn .positive (some true)
  | .nonnegReal => unknown.learn .nonnegative (some true)
  | .nonzeroReal => unknown.learn .nonzero (some true)
  | .rat => unknown.learn .rational (some true)
  | .posRat => (unknown.learn .rational (some true)).learn .positive (some true)
  | .nonnegRat => (unknown.learn .rational (some true)).learn .nonnegative (some true)
  | .nonzeroRat => (unknown.learn .rational (some true)).learn .nonzero (some true)
  | .complex => unknown.learn .complex (some true)
  | .prop | .order => unknown.learn .commutative (some true)

end Knowledge
end Majorant
