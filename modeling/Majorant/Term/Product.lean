import Majorant.Number.Root
import Majorant.Term.Sum

/-!
# Products, powers and absolute values

Products are kept flat, with powers of one base gathered, the number in front and the other factors in
the order of `Term.compare`.  Powers of products are spread over the factors where that is sound: for
whole exponents always, for fractional ones over the factors that cannot be negative.  Absolute values
let go of every factor of known sign.

## Design notes

The three constructors call each other on smaller pieces.  They share a step bound that the public
definitions take from the size of the arguments.
-/

namespace Majorant
namespace Term

def factors : Term → List Term
  | app .mul as => as
  | t => [t]

/-- Base and exponent of a term; the reciprocal of a whole number counts as a power of that number. -/
def asPower : Term → Term × Term
  | app .pow [b, e] =>
    match b with
    | num q => if q.num = 1 && q.den ≠ 1 then (num q.den, neg e) else (b, e)
    | _ => (b, e)
  | t => (t, one)

/-- Powers gathered by base and by the part of the exponent without coefficient. -/
def gatherPower (powers : List (Term × Term × Rat)) (b e : Term) : List (Term × Term × Rat) :=
  let (c, t) := e.splitCoeff
  if powers.any (fun p => p.1 == b && p.2.1 == t) then
    powers.map fun p => if p.1 == b && p.2.1 == t then (b, t, p.2.2 + c) else p
  else powers ++ [(b, t, c)]

def ofFactors (c : Rat) (commuting others : List Term) : Term :=
  if c = 0 then zero
  else match commuting, others with
    | [app .add as], [] => scale c (app .add as)
    | _, _ => withCoeff c (sortArgs commuting ++ others)

def productSpecial (c : Rat) (specials : List Special) (rest : List Term) : Term :=
  if c = 0 || specials.contains .indeterminate then special .indeterminate
  else if specials.contains .complexInfinity then
    ofFactors 1 (special .complexInfinity ::
      rest.filter (fun t => !(t.isNot .zero && (t.ask .extReal).isSome))) []
  else
    let flips := (specials.filter (· == .negInfinity)).length + (if c < 0 then 1 else 0)
    ofFactors 1 (special (if flips % 2 = 0 then .infinity else .negInfinity) ::
      rest.filter (fun t => !t.is .extPositive)) []

def rootTerms (roots : List (Nat × Rat)) : List Term :=
  roots.map fun (b, e) => app .pow [num b, num e]

/-- The sum with its sign chosen so that it has no leading minus. -/
def withoutLeadingMinus : Term → Term
  | app .add as => if leadingMinus (app .add as) then neg (app .add as) else app .add as
  | app .pow [app .add as, num q] =>
    if q.den = 1 && leadingMinus (app .add as) then
      app .pow [neg (app .add as), num q]
    else app .pow [app .add as, num q]
  | t => t

def numerDenom (t : Term) : List Term × List Term :=
  splitFraction (factors t)

mutual

def productAux : Nat → List Term → Term
  | 0, ts => withCoeff 1 ts
  | n + 1, ts =>
    let flat := (ts.flatMap factors).filter (· ≠ one)
    let c := flat.foldl (fun c t => match t with | num q => c * q | _ => c) 1
    let specials := flat.filterMap fun | special s => some s | _ => none
    let rest := flat.filter fun | num _ => false | special _ => false | _ => true
    if !specials.isEmpty then productSpecial c specials rest
    else match rest with
      | [] => num c
      | [t] => scale c t
      | _ =>
        let commuting := rest.filter (·.is .commutative)
        let others := rest.filter (fun t => !t.is .commutative)
        let pairs := commuting.map asPower
        let isRoot := fun (p : Term × Term) => match p with
          | (num b, num e) => b > 0 && e.den ≠ 1
          | _ => false
        let isBase := fun (p : Term × Term) => match p with
          | (num b, e) => !isRoot p && (b > 0 || e.is .integer)
          | _ => false
        let roots := (pairs.filter isRoot).foldl (fun acc p => gatherPower acc p.1 p.2) []
        let bases := (pairs.filter isBase).foldl (fun acc p => gatherPower acc p.1 p.2) []
        let powers := (pairs.filter (fun p => !isRoot p && !isBase p)).foldl
          (fun acc p => gatherPower acc p.1 p.2) []
        let exponentOf := fun (t : Term) (q : Rat) => productAux n [num q, t]
        let rootParts := rootProduct n (roots.map fun p => (p.1, p.2.2))
        let baseParts := basePowers n
          ((bases.map fun p => (p.1, exponentOf p.2.1 p.2.2)).filter (fun p => p.2 ≠ zero))
        let powerParts := (powers.filter (fun p => p.2.2 ≠ 0)).map fun p =>
          powerAux n p.1 (exponentOf p.2.1 p.2.2)
        let parts := rootParts ++ baseParts ++ powerParts
        let settled := parts.all fun
          | num _ | special _ | app .mul _ => false
          | _ => true
        let again := (parts.map fun p => p.asPower.1)
        if settled && again.eraseDups.length = again.length then ofFactors c parts others
        else if settled && parts.length = commuting.length then ofFactors c parts others
        else productAux n (num c :: parts ++ others)

def rootProduct : Nat → List (Term × Rat) → List Term
  | 0, _ => []
  | n + 1, roots =>
    let exps := (roots.map (·.2)).eraseDups
    exps.map fun e =>
      let b := roots.foldl (fun acc p => match p.1 with
        | num q => if p.2 = e then acc * q else acc
        | _ => acc) 1
      powerAux n (num b) (num e)

/-- Powers of numbers with one symbolic exponent are powers of the product of the numbers. -/
def basePowers : Nat → List (Term × Term) → List Term
  | 0, _ => []
  | n + 1, ps =>
    let exps := (ps.map (·.2)).eraseDups
    exps.map fun e =>
      let b := ps.foldl (fun acc p => match p.1 with
        | num q => if p.2 = e then acc * q else acc
        | _ => acc) 1
      powerAux n (num b) e

def powerAux : Nat → Term → Term → Term
  | 0, b, e => app .pow [b, e]
  | n + 1, b, e =>
    let raw := app .pow [b, e]
    if e = zero then one
    else if e = one then b
    else match b, e with
      | special .indeterminate, _ => b
      | _, special _ => special .indeterminate
      | special .complexInfinity, num q => if q < 0 then zero else b
      | special .infinity, num q => if q < 0 then zero else b
      | num q, num p =>
        if q = 0 then if p < 0 then special .complexInfinity else zero
        else if q = 1 then one
        else if p.den = 1 then num (if p ≥ 0 then q ^ p.num.toNat else 1 / q ^ (-p.num).toNat)
        else if q < 0 then raw
        else
          let (c, roots) := rationalPower q p
          if c = 1 && rootTerms roots == [raw] then raw
          else match roots with
            | [] => num c
            | _ => withCoeff c (sortArgs (rootTerms roots))
      | num q, _ =>
        if q = 1 then one
        else if q = 0 then
          if e.is .extPositive then zero
          else if e.is .extNegative then special .complexInfinity
          else raw
        else if q < 0 && e.is .even then powerAux n (num (-q)) e
        else if q < 0 && e.is .odd then neg (powerAux n (num (-q)) e)
        else if q.num = 1 && q.den ≠ 1 then raw
        else raw
      | app .pow [b', e'], _ =>
        let (b', e') := asPower (app .pow [b', e'])
        if e.is .integer then powerAux n b' (productAux n [e', e])
        else if (e'.ask .extReal) == some true then
          let half := match e with | num q => q.den = 2 | _ => false
          if e' = num (-1) && half && b'.isNot .negative then powerAux n b' (neg e)
          else
            let b'' := if e'.is .even && b'.is .extReal then absoluteAux n b' else b'
            let small := match e' with | num q => -1 < q && q < 1 | _ => false
            let moderate := match e' with | num q => -2 < q && q < 2 | _ => false
            if small || b''.is .extNonnegative || (b''.is .extNonnegative && moderate) then
              powerAux n b'' (productAux n [e', e])
            else raw
        else raw
      | app .mul fs, num q =>
        let commuting := fs.filter (·.is .commutative)
        let others := fs.filter (fun t => !t.is .commutative)
        if q.den = 1 then
          let parts := commuting.map fun f => powerAux n f e
          match others with
          | [] => productAux n parts
          | _ => productAux n (parts ++ [app .pow [withCoeff 1 others, e]])
        else
          let nonneg := commuting.filter (·.is .extNonnegative)
          let negative := commuting.filter (·.isNot .extNonnegative)
          let vague := commuting.filter (fun f => (f.ask .extNonnegative).isNone)
          let (nonneg, left) := splitNegatives nonneg negative vague
          let left := left ++ others
          let parts := nonneg.map fun f => powerAux n f e
          match nonneg, left with
          | [], _ => raw
          | _, [] => productAux n parts
          | _, _ =>
            let inside := productAux n left
            let whole := match inside with
              | num _ => powerAux n inside e
              | _ => app .pow [inside, e]
            productAux n (parts ++ [whole])
      | app .abs [a], num q =>
        if a.is .extReal && q.den = 1 then
          if q.num % 2 = 0 then powerAux n a e
          else if q = -1 then raw
          else productAux n [powerAux n a (num (q - 1)), b]
        else raw
      | app .abs [a], _ => if a.is .extReal && e.is .even then powerAux n a e else raw
      | _, _ => raw

/-- Negative factors under a fractional power are made positive in pairs.  Returns the factors that may
leave the power and those that stay. -/
def splitNegatives (nonneg negative rest : List Term) : List Term × List Term :=
  match negative with
  | [] => (nonneg, rest)
  | [f] =>
    match f with
    | num q =>
      if !rest.isEmpty && q ≠ -1 then (nonneg ++ [num (-q)], rest ++ [num (-1)])
      else (nonneg, rest ++ [f])
    | _ => (nonneg, rest ++ [f])
  | f :: fs =>
    let (lead, remaining) := match f with
      | num q => if rest.isEmpty then (q, fs) else ((1 : Rat), negative)
      | _ => (1, negative)
    let lead := if remaining.length % 2 = 1 then -lead else lead
    (nonneg ++ remaining.map neg, if lead = 1 then rest else rest ++ [num lead])

def absoluteAux : Nat → Term → Term
  | 0, t => app .abs [t]
  | n + 1, t =>
    let t := withoutLeadingMinus t
    let (top, bottom) := numerDenom t
    if bottom.any (fun d => !d.freeVariables.isEmpty) && top.all (·.freeVariables.isEmpty) then
      productAux n [absoluteAux n (productAux n top),
        powerAux n (absoluteAux n (productAux n bottom)) (num (-1))]
    else match t with
      | num q => num (if q < 0 then -q else q)
      | special .complexInfinity | special .negInfinity => special .infinity
      | special _ => t
      | app .mul fs =>
        let fs := fs.map withoutLeadingMinus
        let judged := fs.map fun f =>
          match f with
          | app .pow [b, e] =>
            if e.is .integer && e.is .negative then
              match absoluteAux n b with
              | app .abs _ => (f, none)
              | b' => (f, some (powerAux n b' e))
            else match absoluteAux n f with
              | app .abs _ => (f, none)
              | f' => (f, some f')
          | _ => match absoluteAux n f with
            | app .abs _ => (f, none)
            | f' => (f, some f')
        let known := judged.filterMap (·.2)
        let unknown := (judged.filter (·.2.isNone)).map (·.1)
        match unknown with
        | [] => productAux n known
        | _ => productAux n (known ++ [app .abs [productAux n unknown]])
      | app .pow [b, e] =>
        if b.is .extReal then
          if e.is .integer then
            if e.is .even then t
            else if b = num (-1) then one
            else powerAux n (absoluteAux n b) e
          else if b.is .extNonnegative then t
          else app .abs [t]
        else app .abs [t]
      | _ =>
        if t.is .zero then zero
        else if t.is .extNonnegative then t
        else if t.is .extNonpositive then neg t
        else app .abs [t]

end

def stepBound (size : Nat) : Nat := 3 * size + 12

def product (ts : List Term) : Term := productAux (stepBound (sizeList ts)) ts

def power (b e : Term) : Term := powerAux (stepBound (b.size + e.size)) b e

def absolute (t : Term) : Term := absoluteAux (stepBound t.size) t

def div (a b : Term) : Term := product [a, power b (num (-1))]

end Term
end Majorant
