import Majorant.Statement.Canonical

/-!
# Connectives

Conjunctions and disjunctions are kept flat and in order, without repeated or constant members; a
comparison that meets its negation settles them.  A negation is pushed into a comparison and removes
another negation, and stays in front of everything else.
-/

namespace Majorant
namespace Statement
open Term

/-- A term as a member of a connective.  Zero and one are truth values, and so is a variable that is
known to vanish or not to vanish. -/
def member (t : Term) : Outcome Term :=
  match t with
  | lit (.bool b) => pure (truth b)
  | lit (.int 1) | num 1 => pure top
  | lit (.int 0) | num 0 => pure bot
  | var _ => match t.ask .zero with
    | some z => pure (truth (!z))
    | none => pure t
  | _ => if t.isStatement then pure t else .fail .mistyped

/-- Comparisons seen so far, by canonical form, and the members kept. -/
structure Seen where
  comparisons : List Term
  kept : List Term

/-- Look at one member: a comparison seen before is dropped, and `none` says that the negation of one
has been seen. -/
def Seen.add (s : Seen) (t : Term) : Option Seen :=
  if t.isRel then
    let c := canonical t
    if s.comparisons.contains c then some s
    else if s.comparisons.contains (canonical (negated c)) then none
    else some ⟨s.comparisons ++ [c], s.kept ++ [t]⟩
  else some ⟨s.comparisons, s.kept ++ [t]⟩

def distinctMembers (ts : List Term) : Option (List Term) :=
  (ts.foldl (fun (s : Option Seen) t => s.bind fun seen => seen.add t) (some ⟨[], []⟩)).map
    Seen.kept

def flatten (h : Head) (ts : List Term) : List Term :=
  ts.flatMap fun t => match t with
    | app g as => if g = h then as else [t]
    | _ => [t]

def ofMembers (h : Head) (unit : Term) (ts : List Term) : Term :=
  match ts.eraseDups with
  | [] => unit
  | [t] => t
  | ts => app h (ordered ts)

def conj (ts : List Term) : Outcome Term := do
  let ms ← ts.mapM member
  let flat := flatten .and ms
  if flat.contains bot then return bot
  match distinctMembers (ordered (flat.filter (· ≠ top))) with
  | none => return bot
  | some kept => return ofMembers .and top kept

def disj (ts : List Term) : Outcome Term := do
  let ms ← ts.mapM member
  match distinctMembers ms with
  | none => return top
  | some kept =>
    let flat := flatten .or kept
    if flat.contains top then return top
    return ofMembers .or bot (flat.filter (· ≠ bot))

def not (t : Term) : Outcome Term :=
  match t with
  | lit .absent => .fail .unanswerable
  | lit (.bool b) => pure (truth (!b))
  | lit (.int n) => pure (truth (n == 0))
  | lit (.ratio q) | lit (.float q) | num q => pure (truth (q == 0))
  | truth b => pure (truth (!b))
  | app .not [s] => pure s
  | app (.rel r) as => pure (app (.rel r.negate) as)
  | _ => pure (app .not [t])

/-- A number as a truth value, other terms as they are. -/
def asTruth : Term → Term
  | lit (.int n) => truth (n != 0)
  | lit (.bool b) => truth b
  | lit (.ratio q) | lit (.float q) | num q => truth (q != 0)
  | t => t

/-- **A goal follows at once from a hypothesis** if they coincide, if the hypothesis fails or the goal
holds, or if they are comparisons with one canonical form. -/
def follows (hyp goal : Term) : Outcome Bool :=
  match asTruth hyp, asTruth goal with
  | _, truth true => pure true
  | truth false, g => do
    let _ ← member g
    pure true
  | truth true, g => do
    let g ← member g
    pure (g == top)
  | _, truth false => pure false
  | h, g =>
    if h = g then pure true
    else pure (h.isRel && g.isRel && canonical h == canonical g)

end Statement
end Majorant
