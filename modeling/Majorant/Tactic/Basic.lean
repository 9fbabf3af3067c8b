import Majorant.Lemma

/-!
# Tactics

A tactic is a request to reduce a goal to other goals.
-/

namespace Majorant
open Term

structure Chain where
  relations : List Rel
  terms : List Term
deriving DecidableEq, Repr

namespace Chain

/-- The words of a chain, alternately relation signs and terms, from a position on. -/
def readWords : Nat → List (String ⊕ Term) → Outcome Chain
  | _, [] => pure ⟨[], []⟩
  | n, w :: ws => do
    if n % 2 = 0 then
      match w with
      | .inr t => .fail (.calcNotText t.text)
      | .inl s =>
        match Rel.ofSymbol? s with
        | none => .fail (.calcNotRelation s)
        | some r => do
          let c ← readWords (n + 1) ws
          return { c with relations := r :: c.relations }
    else
      match w with
      | .inl _ => .fail .unacceptable
      | .inr t => do
        let t ← if t = lit .absent then pure t else ofLiteral t
        Outcome.require t.isQuantity (.calcNotQuantity t)
        let c ← readWords (n + 1) ws
        return { c with terms := t :: c.terms }

/-- **Read a chain** from its words: it starts and ends with a relation. -/
def ofWords (ws : List (String ⊕ Term)) : Outcome Chain := do
  Outcome.require (ws.length % 2 = 1) .calcEven
  readWords 0 ws

def wordTexts : List Rel → List Term → List String
  | [], _ => []
  | r :: rs, [] => r.symbol :: rs.map Rel.symbol
  | r :: rs, t :: ts => r.symbol :: t.text :: wordTexts rs ts

def text (c : Chain) : String :=
  " ".intercalate (["calc", "_"] ++ wordTexts c.relations c.terms ++ ["_"])

end Chain

/-- What can be made known about the sign of a variable. -/
inductive SignFact where
  | positive | nonnegative | nonzero
deriving DecidableEq, Repr

/-- A variable, given by its name or as a term. -/
inductive Target where
  | named (name : String)
  | term (t : Term)
deriving DecidableEq, Repr

def Target.text : Target → String
  | named s => s
  | term t => t.text

inductive Tactic where
  | linear (verbose : Bool)
  /-- Linear arithmetic with orders of magnitude; maxima and minima can be split into cases. -/
  | logLinear (verbose splitExtrema : Bool)
  /-- Pass from a comparison to the comparison of orders of magnitude. -/
  | applyTheta (hyp : String) (newName : Option String)
  | simplifyAll (thorough again : Bool)
  | noteSign (fact : SignFact) (target : Target)
  | chain (c : Chain)
  | introduce (name : String) (t : Term)
  | abbreviate (name : String) (t : Term)
  | substitute (hyp : String) (target : Option String) (reversed : Bool)
  /-- Replace the left side of an equation by the right side everywhere. -/
  | substituteAll (hyp : String) (reversed : Bool)
  | splitGoal
  | trivial
  | contrapose (hyp : String)
  | splitHypothesis (hyp : String) (names : List String)
  | splitCases (hyp : String)
  | byCases (t : Term) (name : String)
  | option (n : Nat)
  | claim (t : Term) (name : String)
  | useLemma (name : String) (l : Lemma)
  /-- Announce goals without justification: a statement replaces the goal, `none` keeps it. -/
  | outline (label : String) (goals : List (Option Term))
deriving Repr

namespace Tactic

def ofOption (n : Int) : Outcome Tactic := do
  Outcome.require (0 < n) (.optionNotPositive n)
  return option n.toNat

def directed (hyp : String) (reversed : Bool) : String := if reversed then "<-" ++ hyp else hyp

def labelled (name : String) (t : Term) : String :=
  if name = "this" then t.text else Proof.describe name t

def text : Tactic → String
  | linear _ => "linarith"
  | logLinear _ splitExtrema => if splitExtrema then "log_linarith!" else "log_linarith"
  | applyTheta hyp none => "apply_theta " ++ hyp ++ ")"
  | applyTheta hyp (some name) => name ++ " := apply_theta " ++ hyp
  | simplifyAll _ _ => "simp_all"
  | noteSign .positive t => "is_positive " ++ t.text
  | noteSign .nonnegative t => "is_nonnegative " ++ t.text
  | noteSign .nonzero t => "is_nonzero " ++ t.text
  | chain c => c.text
  | introduce name t => "let " ++ name ++ " := " ++ t.text
  | abbreviate name t => "set " ++ name ++ " := " ++ t.text
  | substitute hyp none reversed => "subst " ++ directed hyp reversed
  | substitute hyp (some target) reversed => "subst " ++ directed hyp reversed ++ " at " ++ target
  | substituteAll hyp reversed => "subst_all " ++ directed hyp reversed
  | splitGoal => "split_goal"
  | trivial => "trivial"
  | contrapose hyp => if hyp = "this" then "contrapose" else "contrapose " ++ hyp
  | splitHypothesis hyp names =>
    if hyp = "this" then "split_hyp"
    else if names.isEmpty then "split_hyp " ++ hyp
    else "split_hyp " ++ hyp ++ " " ++ commas names
  | splitCases hyp => "cases " ++ hyp
  | byCases t name => "by_cases " ++ labelled name t
  | option n => "option " ++ toString n
  | claim t name => "claim " ++ labelled name t
  | useLemma name l => name ++ " := " ++ l.text
  | outline label _ => label

end Tactic
end Majorant
