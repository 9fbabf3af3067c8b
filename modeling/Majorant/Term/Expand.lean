import Majorant.Term.Product

/-!
# Multiplying out
-/

namespace Majorant
namespace Term

def timesOut (a b : Term) : Term :=
  sum (a.summands.flatMap fun s => b.summands.map fun t => product [s, t])

def powerOut (b : Term) : Nat → Term
  | 0 => one
  | n + 1 => timesOut (powerOut b n) b

mutual

def expand : Term → Term
  | app .add as => sum (expandList as)
  | app .mul as => (expandList as).foldl timesOut one
  | app .pow as =>
    match expandList as with
    | [b, num q] =>
      if q.den = 1 && 0 ≤ q && q ≤ 32 then powerOut b q.num.toNat else power b (num q)
    | [b, e] => power b e
    | _ => app .pow as
  | t => t

def expandList : List Term → List Term
  | [] => []
  | t :: ts => expand t :: expandList ts

end

/-- A number as it is written: a sign and a stroke each count. -/
def numberOperations (q : Rat) : Nat := (if q < 0 then 1 else 0) + if q.den ≠ 1 then 1 else 0

mutual

def operations : Term → Nat
  | num q => numberOperations q
  | app .add as =>
    operationsList as + (as.length - 1) -
      (((as.drop 1).filter (·.splitCoeff.1 < 0)).length)
  | app .mul as =>
    match as with
    | num c :: rest =>
      let size := if c < 0 then -c else c
      (if c < 0 then 1 else 0) + (if c.den ≠ 1 then 1 else 0) +
        (if size.num = 1 then 0 else 1) + (rest.length - 1) + operationsList rest
    | as => operationsList as + (as.length - 1)
  | app .pow [b, num q] => if q = -1 then 1 + operations b else 1 + operations b + numberOperations q
  | app .max as | app .min as | app .and as | app .or as => operationsList as + (as.length - 1)
  | app _ as => if as.isEmpty then 0 else 1 + operationsList as
  | _ => 0

def operationsList : List Term → Nat
  | [] => 0
  | t :: ts => operations t + operationsList ts

end

end Term
end Majorant
