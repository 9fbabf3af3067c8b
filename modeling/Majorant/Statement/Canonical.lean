import Majorant.Statement.Relation

/-!
# Canonical comparisons

Two comparisons that differ only by exchanging sides or changing signs have one canonical form: numbers
on the right, otherwise sides in order, and no leading minus on the left.
-/

namespace Majorant
namespace Statement
open Term

def opposite (t : Term) : Term :=
  if t.isOrder then app .difference [lit (.int 0), t] else neg t

def arranged (r : Rel) (a b : Term) : Rel × Term × Term :=
  let exchange :=
    if b.isNumber then
      match a, b with
      | num p, num q => p > q
      | _, _ => false
    else if a.isNumber then true
    else ordered [a, b] ≠ [a, b]
  if exchange then (r.flip, b, a) else (r, a, b)

def canonicalParts (r : Rel) (a b : Term) : Rel × Term × Term :=
  let (r, a, b) := arranged r a b
  let truths := match a, b with
    | truth _, _ | _, truth _ => true
    | _, _ => false
  if truths then (r, a, b)
  else if a.leadingMinus then (r.flip, opposite a, opposite b)
  else if !b.isNumber && b.leadingMinus then
    let b' := opposite b
    if (ordered [a, b']).head? = some a then (r, a, b)
    else (r, b', opposite a)
  else (r, a, b)

/-- **The canonical form** of a comparison; other terms are left alone. -/
def canonical (t : Term) : Term :=
  match t.asRel? with
  | some (r, a, b) =>
    let (r, a, b) := canonicalParts r a b
    app (.rel r) [a, b]
  | none => t

/-- The comparison that holds exactly when a given one does not. -/
def negated : Term → Term
  | app (.rel r) as => app (.rel r.negate) as
  | t => t

end Statement
end Majorant
