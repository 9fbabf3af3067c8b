import Majorant.Proof.Session

/-!
# Observations

A workload runs a script of a given size and returns what it observed.
-/

namespace Majorant
namespace Workload

inductive Value where
  | absent
  | bool (b : Bool)
  | int (n : Int)
  | text (s : String)
  | list (vs : List Value)
deriving Repr, Inhabited

namespace Value

def term (t : Term) : Value := text t.text

def count (n : Nat) : Value := int n

def node (t : ProofTree) (p : Option Proof.Path) : Value :=
  match p.bind t.get? with
  | some n => text ("node " ++ n.state.goal.text)
  | none => absent

end Value

/-- **The outcome of a script** in a session of its own, without its lines. -/
def silently {α : Type} (r : Request α) : Outcome α := (r Session.start).1.quiet

def mode : Request Value := do
  return .text (← Request.session).mode.name

def written : Request Value := do
  return .text (← Session.text)

def failingOutcome {α : Type} (o : Outcome α) : List Value :=
  match o.result with
  | .ok _ => []
  | .error _ => [.text "err"]

def failing {α : Type} (r : Request α) : Request (List Value) := fun s =>
  match r s with
  | (o, s') => (pure (failingOutcome o), s')

def failingAll (rs : List (Request Unit)) : Request (List Value) := do
  return (← rs.mapM failing).flatten

def rounds (n : Nat) (script : Outcome (List Value)) : Outcome (List Value) := do
  return (← (List.replicate n ()).mapM fun _ => script).flatten

def real (name : String) : Term := .var ⟨name, .real⟩

def positive (name : String) : Term := .var ⟨name, .posReal⟩

def order (name : String) : Term := .var ⟨name, .order⟩

end Workload
end Majorant
