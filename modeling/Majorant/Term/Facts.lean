import Majorant.Term.Knowledge

/-!
# Facts about terms

`Term.facts` gives what is known of the value of a term from the kinds of its variables and the
shape of the term alone.  Each operation has its own rule, which turns what is known of the
arguments into what is known of the result.

## Design notes

The rules are deliberately modest: a sum is known to be positive when its summands are known to have
agreeing signs, or when it is a number plus one term whose least possible size outweighs the number.
No relation between different terms is used.
-/

namespace Majorant

namespace Facts

/-- Every answer is yes; the answer is no when exactly one is no and the others are yes. -/
def unlessTwice (answers : List (Option Bool)) : Option Bool :=
  if answers.any (·.isNone) then none
  else match (answers.filter (· == some false)).length with
    | 0 => some true
    | 1 => some false
    | _ => none

def allKnown (answers : List (Option Bool)) : Option Bool :=
  if answers.any (·.isNone) then none
  else some (answers.all (· == some true))

def agreeing (answers : List (Option Bool)) : Option Bool :=
  if answers.all (· == some true) then some true
  else if answers.all (· == some false) then some false
  else none

def both (answers : List (Option Bool)) : Option Bool :=
  if answers.any (· == some false) then some false
  else if answers.any (·.isNone) then none
  else some true

def either (answers : List (Option Bool)) : Option Bool :=
  if answers.any (· == some true) then some true
  else if answers.any (·.isNone) then none
  else some false

/-- The least size of a value of known sign: how far from zero every value must be, and whether that
distance itself is excluded. -/
structure Nearest where
  value : Rat
  excluded : Bool
deriving Repr

def nearest (k : Knowledge) : Option Nearest :=
  if !k.is .extReal then none
  else if k.is .positive then
    if k.is .even then some ⟨2, false⟩
    else if k.is .integer then some ⟨1, false⟩
    else some ⟨0, true⟩
  else if k.is .extNegative then
    if k.is .even then some ⟨-2, false⟩
    else if k.is .integer then some ⟨-1, false⟩
    else some ⟨0, true⟩
  else if k.is .zero || k.is .extNonpositive || k.is .extNonnegative then some ⟨0, false⟩
  else none

def sumOdd : List Knowledge → Option Bool
  | [] => some false
  | k :: ks =>
    if k.is .even then sumOdd ks
    else if k.is .odd then (sumOdd ks).map (!·)
    else none

/-- A sum is positive when some summand is and none can be negative, and not positive when none can
be positive.  `pos` is the sign in question. -/
def sumSign (pos nonneg nonpos : Property) (ks : List Knowledge) : Option Bool :=
  let ks := ks.filter (fun k => !k.is .zero)
  if ks.isEmpty then some false
  else if ks.any (fun k => !k.is pos && !k.is nonneg && !k.is nonpos) then none
  else if ks.any (·.is .infinite) then none
  else
    let sawPos := ks.any (·.is pos)
    let sawNonneg := ks.any (fun k => !k.is pos && k.is nonneg)
    let sawNonpos := ks.any (fun k => !k.is pos && !k.is nonneg && k.is nonpos)
    if !sawNonpos && sawPos then some true
    else if !sawPos && !sawNonneg then some false
    else none

def sum (ks : List Knowledge) : Knowledge :=
  let base := Knowledge.unknown.learnAll
    [ (.commutative, some (ks.all (·.is .commutative))),
      (.extReal, unlessTwice (ks.map (·.ask .extReal))),
      (.complex, unlessTwice (ks.map (·.ask .complex))),
      (.finite, unlessTwice (ks.map (·.ask .finite))),
      (.real, unlessTwice (ks.map (·.ask .real))),
      (.rational, unlessTwice (ks.map (·.ask .rational))),
      (.integer, unlessTwice (ks.map (·.ask .integer))) ]
  let base := if base.is .integer then base.learn .odd (sumOdd ks) else base
  base.learnAll
    [ (.extPositive, sumSign .extPositive .extNonnegative .extNonpositive ks),
      (.extNegative, sumSign .extNegative .extNonpositive .extNonnegative ks) ]

def yesIf (condition : Bool) : Option Bool := if condition then some true else none

/-- What is known of `c + a` for a number `c` that is not zero, when the facts about `a` bound its
size from below. -/
def shift (c : Rat) (a : Knowledge) (k : Knowledge) : Knowledge :=
  match nearest a with
  | none => k
  | some v =>
    let s := v.value + c
    let up := a.is .extNonnegative
    let down := a.is .extNonpositive
    k.learnAll
      [ (.extPositive, yesIf (up && (s > 0 || (v.excluded && s ≥ 0)))),
        (.extNonnegative, yesIf (up && s ≥ 0)),
        (.extNegative, yesIf (down && (s < 0 || (v.excluded && s ≤ 0)))),
        (.extNonpositive, yesIf (down && s ≤ 0)) ]

/-- Does a zero or an infinite factor occur?  Both answers are open as soon as both may occur. -/
def zeroOrInfinite (ks : List Knowledge) : Option Bool × Option Bool :=
  let zero := either (ks.map (·.ask .zero))
  let infinite := either (ks.map (·.ask .infinite))
  if zero == some false || infinite == some false then (zero, infinite) else (none, none)

/-- The sign of a product; `negated` asks for a negative product instead of a positive one. -/
def productSign (negated : Bool) (ks : List Knowledge) : Option Bool :=
  let step : Option (Bool × Bool × Bool) → Knowledge → Option (Bool × Bool × Bool)
    | none, _ => none
    | some (flip, weak, vague), k =>
      if k.is .extPositive then some (flip, weak, vague)
      else if k.is .extNegative then some (!flip, weak, vague)
      else if k.is .extNonpositive then some (!flip, true, vague)
      else if k.is .extNonnegative then some (flip, true, vague)
      else if k.isNot .positive then if vague then none else some (!flip, weak, true)
      else if k.isNot .negative then if vague then none else some (flip, weak, true)
      else none
  if ks.any (·.is .zero) then
    if ks.all (·.is .finite) then some false else none
  else match ks.foldl step (some (negated, false, false)) with
    | none => none
    | some (flip, weak, vague) =>
      if !flip && !weak && !vague then some true
      else if flip then some false
      else none

/-- A factor of a product: the number it is, if it is one, and what is known of it; for a power also
what is known of its base and exponent. -/
structure Factor where
  number : Option Rat
  known : Knowledge
  power : Option (Knowledge × Knowledge)

/-- Is a product real?  Imaginary factors come in pairs. -/
def productReal (wanted : Bool) (ks : List Knowledge) : Option Bool :=
  let step : Option (Bool × Option Bool × Option Knowledge) → Knowledge →
      Option (Bool × Option Bool × Option Knowledge)
    | none, _ => none
    | some (real, zero, odd), k =>
      if k.is .imaginary then some (!real, zero, odd)
      else if k.is .extReal then
        match zero with
        | some false => some (real, if k.isNot .zero then some false else none, odd)
        | z => some (real, z, odd)
      else if k.isNot .extReal || k.isNot .imaginary then
        match odd with
        | some _ => none
        | none => some (real, zero, some k)
      else none
  if ks.any (fun k => k.isNot .complex && k.isNot .infinite && k.isNot .extReal) then some false
  else if ks.any (·.is .zero) then
    if ks.all (·.is .finite) then some true else none
  else match ks.foldl step (some (wanted, some false, none)) with
    | none => none
    | some (real, zero, odd) =>
      match odd with
      | some k =>
        if k.isNot .extReal && real then zero
        else if k.isNot .imaginary && !real then zero
        else none
      | none =>
        if zero == some false then some real
        else if real then some true
        else none

def productInteger (fs : List Factor) : Option Bool :=
  let tops := fs.filterMap fun f =>
    if f.known.is .integer then
      match f.number with
      | some q => if q = 1 || q = -1 then none else some f.known
      | none => some f.known
    else match f.number with
      | some q => if q.num = 1 || q.num = -1 then none else some (Knowledge.exact q.num)
      | none => none
  let bottoms := fs.filterMap fun f =>
    if f.known.is .integer then none
    else match f.number with
      | some q => some (some q.den)
      | none => match f.power with
        | some (_, e) => if e.is .negative then some none else none
        | none => none
  let strange := fs.any fun f =>
    !f.known.is .integer && f.number.isNone &&
      match f.power with
      | some (_, e) => !e.is .negative
      | none => true
  let vague := fs.any fun f =>
    !f.known.is .integer && f.number.isNone &&
      match f.power with
      | some (b, e) => !b.is .integer || !e.is .integer
      | none => true
  if strange then none
  else if bottoms.isEmpty && !vague then some true
  else if tops.isEmpty && bottoms.all (fun d => match d with | some n => n > 1 | none => false) then
    some false
  else if vague then none
  else if tops.all (·.is .odd) &&
      bottoms.any (fun d => match d with | some n => n % 2 == 0 | none => false) then some false
  else if tops.any (·.is .even) && bottoms == [some 2] then some true
  else none

def productZero (ks : List Knowledge) : Option Bool :=
  let (zero, infinite) := zeroOrInfinite ks
  if zero == some true && infinite != some false then none else zero

def productInfinite (ks : List Knowledge) : Option Bool :=
  let (zero, infinite) := zeroOrInfinite ks
  if infinite == some true && zero != some false then none else infinite

def productComplex (ks : List Knowledge) : Option Bool :=
  match allKnown (ks.map (·.ask .complex)) with
  | some false =>
    if ks.any (·.is .infinite) then
      if ks.any (fun k => !k.isNot .zero) then none else some false
    else some false
  | c => c

def productImaginary (ks : List Knowledge) : Option Bool :=
  if ks.all (fun k => k.isNot .zero && k.is .finite) then productReal false ks else none

def productRational (ks : List Knowledge) : Option Bool :=
  match unlessTwice (ks.map (·.ask .rational)) with
  | some false => if ks.all (·.isNot .zero) then some false else none
  | r => r

def productOdd (ks : List Knowledge) : Option Bool :=
  if ks.any (·.is .even) then some false
  else if ks.all (·.is .odd) then some true
  else none

def productWhole (fs : List Factor) : Option Bool :=
  if productRational (fs.map (·.known)) == some false then some false else productInteger fs

/-- What kind of number a product is, from what is known of its factors. -/
def productNature (ks : List Knowledge) : List (Property × Option Bool) :=
  [ (.commutative, some (ks.all (·.is .commutative))),
    (.zero, productZero ks),
    (.infinite, productInfinite ks),
    (.complex, productComplex ks),
    (.extReal, productReal true ks),
    (.imaginary, productImaginary ks) ]

def product (fs : List Factor) : Knowledge :=
  let ks := fs.map (·.known)
  let base := (Knowledge.unknown.learnAll (productNature ks)).learnAll
    [ (.rational, productRational ks), (.integer, productWhole fs) ]
  let base := if base.is .integer && ks.all (·.is .integer) then base.learn .odd (productOdd ks)
    else base
  base.learnAll
    [ (.extPositive, productSign false ks), (.extNegative, productSign true ks) ]

def negate (k : Knowledge) : Knowledge :=
  ⟨k.possible.map fun
    | .posEven => .negEven
    | .posOdd => .negOdd
    | .negEven => .posEven
    | .negOdd => .posOdd
    | .posRatio => .negRatio
    | .negRatio => .posRatio
    | .posIrrational => .negIrrational
    | .negIrrational => .posIrrational
    | .posInfinite => .negInfinite
    | .negInfinite => .posInfinite
    | c => c⟩

def powerRealUp (b e : Knowledge) : Option Bool :=
  if b.is .imaginary && e.is .integer then e.ask .even
  else if b.is .extReal && e.is .extReal then
    if b.is .extPositive then some true
    else if b.is .extNonnegative && e.is .extNonnegative then some true
    else if e.is .integer && b.is .extNonzero then some true
    else if e.is .integer && e.is .nonnegative then some true
    else none
  else none

def powerReal (b e : Knowledge) (number : Option Rat) : Option Bool :=
  match powerRealUp b e with
  | some r => some r
  | none =>
    if b.is .extReal && b.is .extNegative && number.isSome then some false
    else if e.is .extReal && e.is .extNegative && b.isNot .zero then powerRealUp b (negate e)
    else none

def powerFinite (b e : Knowledge) : Option Bool :=
  if e.is .negative && b.is .zero then some false
  else if e.is .negative && (b.is .infinite || b.is .nonzero) then some true
  else if b.is .finite && e.is .finite && (e.is .nonnegative || b.isNot .zero) then some true
  else none

def powerZero (b e : Knowledge) : Option Bool :=
  if b.is .zero then
    if e.is .extPositive then some true
    else if e.is .extNonpositive then some false
    else none
  else if b.isNot .zero then
    if b.is .finite && e.is .finite then some false
    else if e.is .negative then b.ask .infinite
    else if e.is .nonnegative then some false
    else none
  else if b.is .finite && e.is .negative then some false
  else none

/-- Is a power positive?  `same` says that base and exponent coincide. -/
def powerPositive (b e : Knowledge) (same : Bool) : Option Bool :=
  if same then if b.is .extNonnegative then some true else none
  else if b.is .positive then if e.is .real then some true else none
  else if b.is .extNegative then
    if e.is .even then some true else if e.is .odd then some false else none
  else if b.is .zero then if e.is .extReal then e.ask .zero else none
  else if b.is .extNonpositive then if e.is .odd then some false else none
  else none

/-- Is a power negative?  `number` is the exponent when it is a number. -/
def powerNegative (b e : Knowledge) (number : Option Rat) : Option Bool :=
  if number == some (1 / 2) && (b.is .complex || b.is .extReal) then some false
  else if b.is .extNegative then
    if e.is .odd && b.is .finite then some true
    else if e.is .even then some false
    else none
  else if b.is .extPositive then if e.is .extReal then some false else none
  else if b.is .zero then if e.is .extReal then some false else none
  else if b.is .extNonnegative then if e.is .extNonnegative then some false else none
  else if b.is .extReal then if e.is .even then some false else none
  else none

/-- Is a power an integer?  `number` and `baseNumber` are exponent and base when they are numbers. -/
def powerInteger (b e : Knowledge) (number baseNumber : Option Rat) : Option Bool :=
  if b.is .rational && b.isNot .integer && e.is .positive then some false
  else if b.is .integer && e.is .integer && (e.is .nonnegative || baseNumber == some (-1)) then
    some true
  else if b.is .integer && e.is .negative && e.is .finite &&
      (match baseNumber with | some q => q != 1 && q != -1 | none => b.is .even) then some false
  else match baseNumber, number with
    | some _, some _ => some false
    | _, _ => none

/-- Is a power rational?  `number` and `baseNumber` are exponent and base when they are numbers. -/
def powerRational (b e : Knowledge) (number baseNumber : Option Rat) : Option Bool :=
  if e.is .integer && b.is .rational && (e.isNot .negative || b.isNot .zero) then some true
  else match baseNumber, number with
    | some _, some _ => some false
    | _, _ => if e.is .integer && b.is .irrational then e.ask .zero else none

/-- Is a power imaginary?  `number` is the exponent when it is a number. -/
def powerImaginary (b e : Knowledge) (number : Option Rat) : Option Bool :=
  if b.is .imaginary && e.is .integer then e.ask .odd
  else if b.is .extReal && e.is .extReal then
    if b.is .positive then some false
    else if e.isNot .rational then some false
    else if !e.is .rational then none
    else if e.is .integer then some false
    else match number with
      | some q => if (2 * q).den = 1 then b.ask .negative else some false
      | none => none
  else none

/-- What is known of `b ^ e`; `number` is the exponent when it is a number, `same` says that base and
exponent coincide, and `baseNumber` is the base when it is a number. -/
def power (b e : Knowledge) (number : Option Rat) (same : Bool) (baseNumber : Option Rat) :
    Knowledge :=
  let finite := powerFinite b e
  let base := Knowledge.unknown.learnAll
    [ (.commutative, both [b.ask .commutative, e.ask .commutative]),
      (.finite, finite),
      (.complex, if b.is .complex && e.is .complex && finite == some true then some true else none),
      (.extReal, powerReal b e number),
      (.imaginary, powerImaginary b e number),
      (.rational, powerRational b e number baseNumber),
      (.integer, powerInteger b e number baseNumber),
      (.zero, powerZero b e),
      (.extPositive, powerPositive b e same),
      (.extNegative, powerNegative b e number) ]
  if e.is .integer && e.is .positive then
    (base.learn .even (b.ask .even)).learn .odd (b.ask .odd)
  else base

def absolute (k : Knowledge) : Knowledge :=
  let base := Knowledge.unknown.learnAll
    [ (.extNonnegative, some true),
      (.zero, k.ask .zero),
      (.finite, if k.is .finite then some true else none) ]
  if k.is .extReal then
    base.learnAll
      [ (.integer, k.ask .integer), (.rational, k.ask .rational),
        (.even, k.ask .even), (.odd, k.ask .odd) ]
  else base

def extremum (greatest : Bool) (ks : List Knowledge) : Knowledge :=
  let atLeastOne := if greatest then either else both
  let allOfThem := if greatest then both else either
  Knowledge.unknown.learnAll
    ([ Property.commutative, .complex, .finite, .imaginary, .infinite, .rational, .irrational,
       .real, .extReal, .integer, .even, .odd, .zero, .nonzero, .nonpositive ].map
        (fun p => (p, agreeing (ks.map (·.ask p)))) ++
    [ (.positive, atLeastOne (ks.map (·.ask .positive))),
      (.nonnegative, atLeastOne (ks.map (·.ask .nonnegative))),
      (.negative, allOfThem (ks.map (·.ask .negative))) ])

end Facts

namespace Term

def asNumber? : Term → Option Rat
  | num q => some q
  | _ => none

def sumFactor (as : List Term) (fs : List Facts.Factor) : Facts.Factor :=
  let k := Facts.sum (fs.map (·.known))
  match as, fs with
  | num c :: _, _ :: [a] => ⟨none, Facts.shift c a.known k, none⟩
  | _, _ => ⟨none, k, none⟩

def powerFactor (as : List Term) (fs : List Facts.Factor) : Facts.Factor :=
  match as, fs with
  | [b, e], [fb, fe] =>
    ⟨none, Facts.power fb.known fe.known fe.number (b == e) fb.number, some (fb.known, fe.known)⟩
  | _, _ => ⟨none, Knowledge.unknown, none⟩

def absoluteFactor : List Facts.Factor → Facts.Factor
  | [f] => ⟨none, Facts.absolute f.known, none⟩
  | _ => ⟨none, Knowledge.unknown, none⟩

mutual

/-- A term as a factor: what is known of it and, for a power, of its base and exponent. -/
def factor : Term → Facts.Factor
  | num q => ⟨some q, Knowledge.exact q, none⟩
  | special .complexInfinity => ⟨none, ⟨[.otherInfinite]⟩, none⟩
  | special .infinity => ⟨none, ⟨[.posInfinite]⟩, none⟩
  | special .negInfinity => ⟨none, ⟨[.negInfinite]⟩, none⟩
  | special .indeterminate => ⟨none, Knowledge.ofKind .prop, none⟩
  | var v => ⟨none, Knowledge.ofKind v.kind, none⟩
  | app .add as => sumFactor as (factorList as)
  | app .mul as => ⟨none, Facts.product (factorList as), none⟩
  | app .pow as => powerFactor as (factorList as)
  | app .abs as => absoluteFactor (factorList as)
  | app .max as => ⟨none, Facts.extremum true ((factorList as).map (·.known)), none⟩
  | app .min as => ⟨none, Facts.extremum false ((factorList as).map (·.known)), none⟩
  | _ => ⟨none, Knowledge.unknown, none⟩

def factorList : List Term → List Facts.Factor
  | [] => []
  | a :: as => a.factor :: factorList as

end

def facts (t : Term) : Knowledge := t.factor.known

def ask (t : Term) (p : Property) : Option Bool := t.facts.ask p

def is (t : Term) (p : Property) : Bool := t.facts.is p

def isNot (t : Term) (p : Property) : Bool := t.facts.isNot p

def signName (k : Knowledge) (base : String) : String :=
  if k.is .positive then "pos_" ++ base
  else if k.is .nonnegative then "nonneg_" ++ base
  else if k.is .nonzero then "nonzero_" ++ base
  else base

/-- **The narrowest kind of a term**, by name: integers before rationals, reals and complex numbers,
each with the sign that is known; then statements and orders; `unknown` when nothing fits. -/
def typeName (t : Term) : String :=
  let k := t.facts
  if k.is .integer then signName k "int"
  else if k.is .rational then signName k "rat"
  else if k.is .real then signName k "real"
  else if k.is .complex then if k.is .nonzero then "nonzero_complex" else "complex"
  else match t with
    | truth _ => "bool"
    | var v => if v.kind == .prop then "bool" else if v.kind == .order then "order" else "unknown"
    | app .and _ | app .or _ | app .not _ | app .littlewoodPaley _ => "bool"
    | _ => "unknown"

end Term
end Majorant
