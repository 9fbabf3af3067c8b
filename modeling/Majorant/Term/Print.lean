import Majorant.Number.Shortest
import Majorant.Term.Key

/-!
# Printing terms

Sums are printed by decreasing monomial, products with their denominators behind one stroke, square
roots as `sqrt(…)`.
-/

namespace Majorant

namespace Literal

def text : Literal → String
  | int n => toString n
  | ratio q => ratText q
  | bool true => "True"
  | bool false => "False"
  | float q => Shortest.text q
  | absent => "None"

def quoted : Literal → String
  | ratio q => "Fraction(" ++ toString q.num ++ ", " ++ toString q.den ++ ")"
  | l => l.text

end Literal

def Special.text : Special → String
  | complexInfinity => "zoo"
  | infinity => "oo"
  | negInfinity => "-oo"
  | indeterminate => "nan"

namespace Term

def splitCoeff : Term → Rat × Term
  | num q => (q, one)
  | app .mul (num c :: rest) =>
    match rest with
    | [] => (c, one)
    | [t] => (c, t)
    | _ => (c, app .mul rest)
  | t => (1, t)

def precedence : Term → Nat
  | num q => if q < 0 then 40 else if q.den = 1 then 1000 else 50
  | special .negInfinity => 40
  | app .add _ => 40
  | app .mul (num c :: _) => if c < 0 then 40 else 50
  | app .mul _ => 50
  | app .pow _ => 60
  | app .abs _ => 70
  | app (.rel .eq) _ | app (.rel .ne) _ => 1000
  | app (.rel _) _ => 35
  | app .and _ => 30
  | app .or _ => 20
  | app .not _ => 100
  | _ => 1000

def negativeExponent (e : Term) : Bool := e.splitCoeff.1 < 0

def flipExponent : Term → Term
  | num q => num (-q)
  | app .mul (num c :: rest) =>
    if c = -1 then match rest with
      | [t] => t
      | _ => app .mul rest
    else app .mul (num (-c) :: rest)
  | t => t

def rawPower (b e : Term) : Term := if e == one then b else app .pow [b, e]

def splitFraction (factors : List Term) : List Term × List Term :=
  factors.foldl (fun (top, bottom) f =>
    match f with
    | num q =>
      (if q.num = 1 then top else top ++ [num q.num],
       if q.den = 1 then bottom else bottom ++ [num q.den])
    | app .pow [b, e] =>
      if negativeExponent e && f.is .commutative then
        (top, bottom ++ [rawPower b (flipExponent e)])
      else (top ++ [f], bottom)
    | _ => (top ++ [f], bottom)) ([], [])

def paren (s : String) : String := "(" ++ s ++ ")"

def enclose (level : Nat) (t : Term) (s : String) : String :=
  if t.precedence ≤ level then paren s else s

def commas (ss : List String) : String := ", ".intercalate ss

mutual

/-- The text of a term as part of a larger one, with `fuel` at least its size. -/
def innerAux : Nat → Term → String
  | 0, _ => ""
  | _ + 1, num q => ratText q
  | _ + 1, special s => s.text
  | _ + 1, truth b => if b then "True" else "False"
  | _ + 1, var v => v.name
  | _ + 1, lit l => l.text
  | n + 1, app .add as =>
    let parts := (orderedSummands (as.map fun a => (a, innerAux n a))).map fun (a, s) =>
      let (sign, body) := if s.startsWith "-" then ("-", String.ofList (s.toList.drop 1))
        else ("+", s)
      let sum := match a with | app .add _ => true | _ => false
      (sign, if a.precedence < 40 || sum then paren body else body)
    match parts with
    | [] => ""
    | (sign, s) :: rest =>
      (if sign == "+" then "" else sign) ++ s ++
        String.join (rest.map fun (g, t) => " " ++ g ++ " " ++ t)
  | n + 1, app .mul as =>
    let t := app .mul as
    let level := t.precedence
    let (c, rest) := t.splitCoeff
    let size := if c < 0 then -c else c
    let factors := match rest with
      | app .mul fs => fs
      | f => [f]
    let factors := if size = 1 then factors else num size :: factors
    let (top, bottom) := splitFraction (orderedFactors factors)
    let top := if top.isEmpty then [one] else top
    let up := "*".intercalate (top.map fun f => enclose level f (innerAux n f))
    let down := bottom.map fun f => enclose level f (innerAux n f)
    (if c < 0 then "-" else "") ++ up ++
      match down with
      | [] => ""
      | [d] => "/" ++ d
      | ds => "/(" ++ "*".intercalate ds ++ ")"
  | n + 1, app .pow [b, e] =>
    let t := app .pow [b, e]
    if e == num (1 / 2) then "sqrt(" ++ innerAux n b ++ ")"
    else if e == num (-1 / 2) && t.is .commutative then "1/sqrt(" ++ innerAux n b ++ ")"
    else if e == num (-1) && t.is .commutative then "1/" ++ enclose 60 b (innerAux n b)
    else enclose 60 b (innerAux n b) ++ "**" ++ enclose 60 e (innerAux n e)
  | n + 1, app .max as =>
    "Max(" ++ commas ((sortByKey as).map fun a => innerAux n a) ++ ")"
  | n + 1, app .min as =>
    "Min(" ++ commas ((sortByKey as).map fun a => innerAux n a) ++ ")"
  | n + 1, app (.rel .eq) as => "Eq(" ++ commas (as.map fun a => innerAux n a) ++ ")"
  | n + 1, app (.rel .ne) as => "Ne(" ++ commas (as.map fun a => innerAux n a) ++ ")"
  | n + 1, app (.rel r) as => (" " ++ r.symbol ++ " ").intercalate (as.map fun a => enclose 35 a (innerAux n a))
  | n + 1, app .and as => " & ".intercalate (as.map fun a => enclose 38 a (innerAux n a))
  | n + 1, app .or as => " | ".intercalate (as.map fun a => enclose 36 a (innerAux n a))
  | n + 1, app .not as => String.join (as.map fun a => "~" ++ enclose 100 a (innerAux n a))
  | n + 1, app .theta as => "Theta(" ++ commas (as.map fun a => quotedAux n a) ++ ")"
  | n + 1, app .orderMax as => "Max(" ++ commas (as.map fun a => textAux n a) ++ ")"
  | n + 1, app .orderMin as => "Min(" ++ commas (as.map fun a => textAux n a) ++ ")"
  | n + 1, app .orderMul as => "*".intercalate (as.map fun a => textAux n a)
  | n + 1, app .orderPow as => "**".intercalate (as.map fun a => textAux n a)
  | n + 1, app .littlewoodPaley as =>
    "LittlewoodPaley(" ++ commas (as.map fun a => textAux n a) ++ ")"
  | n + 1, app .declared as => "Type(" ++ commas (as.map fun a => innerAux n a) ++ ")"
  | n + 1, app h as => h.label ++ "(" ++ commas (as.map fun a => innerAux n a) ++ ")"

def textAux : Nat → Term → String
  | 0, _ => ""
  | n + 1, app .difference as => "FormalSub(" ++ commas (as.map fun a => quotedAux n a) ++ ")"
  | n + 1, app .fixed as => "Fixed(" ++ commas (as.map fun a => quotedAux n a) ++ ")"
  | n + 1, app .bounded as => "Bounded(" ++ commas (as.map fun a => quotedAux n a) ++ ")"
  | _ + 1, app .undefined _ => "⊥"
  | _ + 1, app .declared [a] => a.typeName
  | n + 1, t => innerAux n t

def quotedAux : Nat → Term → String
  | 0, _ => ""
  | _ + 1, lit l => l.quoted
  | n + 1, app .declared as => "Type((" ++ commas (as.map fun a => quotedAux n a) ++ ",))"
  | n + 1, t => textAux n t

end

def inner (t : Term) : String := innerAux (4 * t.size + 4) t

def text (t : Term) : String := textAux (4 * t.size + 4) t

def quoted (t : Term) : String := quotedAux (4 * t.size + 4) t

end Term
end Majorant
