import Majorant.Operation

/-!
# Substitution

Replacing a term by another one reaches every place where it occurs as an argument, and also the
places where it is part of a longer sum, product or power: `x + y` in `x + y + z`, `x * y` in
`x ^ 2 * y ^ 2`, `x ^ 2` in `x ^ 4`.  What changes is evaluated again.
-/

namespace Majorant
namespace Substitution
open Term

def splitConstant : Term → Rat × Term
  | num q => (q, zero)
  | app .add (num q :: rest) => (q, ofSummands rest)
  | t => (0, t)

/-- What remains of a sum when another sum is taken out of it: `positive` says whether it is there as
it stands or with the opposite sign; then the constant that remains and the other summands. -/
structure SumMatch where
  positive : Bool
  constant : Rat
  rest : List Term

/-- **A sum as part of another sum**, up to the numerical summand and up to sign. -/
def inSum? (whole part : Term) : Option SumMatch :=
  match whole, part with
  | app .add _, app .add _ =>
    let (c, ts) := splitConstant whole
    let (d, ss) := splitConstant part
    let opposite := Term.neg ss
    if ts = ss then some ⟨true, c - d, []⟩
    else if ts = opposite then some ⟨false, c + d, []⟩
    else
      let inside := summands ts
      let wanted := summands ss
      let wantedNeg := summands opposite
      if wanted.length < inside.length && wanted.all inside.contains then
        some ⟨true, c - d, inside.filter fun s => !wanted.contains s⟩
      else if wanted.length < inside.length && wantedNeg.all inside.contains then
        some ⟨false, c + d, inside.filter fun s => !wantedNeg.contains s⟩
      else none
  | _, _ => none

def rationalPowerOf (t : Term) : Term × Rat :=
  match t with
  | app .pow [b, e] =>
    let (c, r) := e.splitCoeff
    (power b r, c)
  | t => (t, 1)

def breakUp (t : Term) : List (Term × Rat) :=
  t.factors.foldl (fun acc f =>
    let (b, e) := rationalPowerOf f
    if acc.any (·.1 == b) then acc.map fun p => if p.1 == b then (b, p.2 + e) else p
    else acc ++ [(b, e)]) []

def rejoin (b : Term) (e : Rat) : Term :=
  match b with
  | app .pow [c, f] => power c (product [f, num e])
  | _ => power b (num e)

/-- How often one exponent goes into another one, if their denominators agree well enough. -/
def timesInto (whole part : Rat) : Nat :=
  if part.den % whole.den = 0 || whole.den % part.den = 0 then (whole / part).floor.toNat else 0

/-- How often a number other than one divides another number. -/
def multiplicity : Nat → Nat → Nat → Nat
  | 0, _, _ => 0
  | fuel + 1, p, n => if p > 1 && n ≠ 0 && n % p = 0 then multiplicity fuel p (n / p) + 1 else 0

def coefficient? : Term → Option Rat
  | app .mul (num c :: _) => some c
  | _ => none

/-- The factors of a product with as much of another coefficient split off as possible, and the
coefficient that remains. -/
def splitCoefficient (whole part : Term) : List (Term × Rat) × Rat :=
  match coefficient? whole, coefficient? part with
  | some c, some d =>
    let quotient := c / d
    let divides := (c.den ≠ 1 || quotient.den = 1) && !(0 < c && quotient < 0)
    if c ≠ d && divides && d ≠ 1 && d ≠ -1 then
      let m := if c.den = 1 && d.den = 1 then multiplicity c.num.natAbs d.num.natAbs c.num.natAbs else 0
      let rest := (breakUp whole).filter (·.1 ≠ num c)
      (rest ++ [(num d, (m : Rat))], c / d ^ m)
    else (breakUp whole, 1)
  | _, _ => (breakUp whole, 1)

/-- A product as part of another product: how often it is there, the factors of the whole product with
the exponents that remain for those that belong to the part, and the coefficient left over. -/
structure ProductMatch where
  count : Nat
  left : List (Term × Rat)
  others : List (Term × Rat)
  coeff : Rat

/-- **A product as part of another product**, as often as possible. -/
def inProduct? (whole part : Term) : Option ProductMatch :=
  let commutes := (whole.factors ++ part.factors).all (·.is .commutative)
  if !commutes || ((coefficient? part).isSome && (coefficient? whole).isNone) then none
  else
    let wanted := breakUp part
    let (inside, coeff) := splitCoefficient whole part
    let counts := wanted.map fun (b, e) =>
      match inside.find? (·.1 == b) with
      | some p => if (0 < p.2) == (0 < e) && p.2 ≠ 0 then timesInto p.2 e else 0
      | none => 0
    match counts with
    | [] => none
    | n :: ns =>
      let count := ns.foldl min n
      if count = 0 then none
      else
        let left := inside.filterMap fun (b, e) =>
          (wanted.find? (·.1 == b)).map fun w => (b, e - w.2 * count)
        let others := inside.filter fun p => !(wanted.any (·.1 == p.1))
        some ⟨count, left, others, coeff⟩

/-- **A power as a power of another power** of the same base: the exponent. -/
def inPower? (whole part : Term) : Option Term :=
  match whole, part with
  | app .pow [b, e], app .pow [b', e'] =>
    if b = b' then
      let (c, r) := e.splitCoeff
      let (c', r') := e'.splitCoeff
      let q := c / c'
      if r = r' &&
          (q.den = 1 || (b.is .positive && e'.is .real) || (b.is .nonnegative && e'.is .nonnegative))
        then some (num q)
      else none
    else none
  | _, _ => none

def hasNegativeCoefficient (t : Term) : Bool :=
  match coefficient? t with
  | some c => c < 0
  | none => false

/-- Members of a connective after a substitution.  `settles` is the truth value that decides the
connective. -/
def connectiveMembers (h : Head) (settles : Bool) (old new : Term) (ts : List Term) : List Term :=
  let ts := ts.filter (· ≠ truth (!settles))
  match old with
  | app g os =>
    if g = h && os.all ts.contains then (ts.filter fun t => !os.contains t) ++ [new] else ts
  | _ => ts

def replaceAux : Nat → Term → Term → Term → Outcome Term
  | 0, _, _, t => pure t
  | n + 1, old, new, t =>
    if t = old then pure new
    else
      let inArguments : Head → List Term → Outcome Term := fun h as => do
        let bs ← as.mapM fun a => match a with
          | lit _ => pure a
          | _ => replaceAux n old new a
        if bs = as then return t else Evaluation.apply h bs
      match t with
      | app .add as =>
        match inSum? t old with
        | some m => do
          let rest ← m.rest.mapM (replaceAux n old new)
          let new' ← if m.positive then pure new else Operation.neg new
          Evaluation.addAll ([new', num m.constant] ++ rest)
        | none => inArguments .add as
      | app .mul as =>
        match old with
        | app .mul _ =>
          if hasNegativeCoefficient old && hasNegativeCoefficient t then do
            let new' ← Operation.neg new
            replaceAux n (Term.neg old) new' t
          else if hasNegativeCoefficient old && (coefficient? t).isSome then inArguments .mul as
          else do
            let (top, bottom) := numerDenom t
            let t' ← if bottom.isEmpty then pure t else do
              let top' ← replaceAux n old new (product top)
              let bottom' ← replaceAux n old new (product bottom)
              Operation.div top' bottom'
            match t' with
            | app .mul _ =>
              match inProduct? t' old with
              | some m => do
                let others ← m.others.mapM fun (b, e) => do
                  let b' ← replaceAux n old new b
                  return rejoin b' e
                let news ← Operation.pow new (num m.count)
                Evaluation.apply .mul
                  (num m.coeff :: news :: m.left.map (fun (b, e) => rejoin b e) ++ others)
              | none => if t' = t then inArguments .mul as else return t'
            | _ => replaceAux n old new t'
        | _ => inArguments .mul as
      | app .pow [b, e] =>
        if b = old then do
          let e' ← replaceAux n old new e
          Operation.pow new e'
        else match inPower? t old with
          | some k => Operation.pow new k
          | none => inArguments .pow [b, e]
      | app .and as => do
        let bs ← as.mapM (replaceAux n old new)
        if bs.contains bot then return bot
        Statement.conj (connectiveMembers .and false old new bs)
      | app .or as => do
        let bs ← as.mapM (replaceAux n old new)
        if bs.contains top then return top
        Statement.disj (connectiveMembers .or true old new bs)
      | app h as => inArguments h as
      | t => pure t

def replace (old new t : Term) : Outcome Term :=
  if old = new then pure t else replaceAux (2 * t.size + 4) old new t

end Substitution
end Majorant
