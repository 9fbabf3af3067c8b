import Majorant.Failure

/-!
# Outcomes

The outcome of an operation is its result, or the cause of its failure, together with the lines it
wrote on the way.  Lines written before a failure are kept.
-/

namespace Majorant

/-- A written line.  A *free* line shows a choice that could have been made differently, such as the
point found by a solver. -/
structure Line where
  text : String
  free : Bool
deriving DecidableEq, Repr

/-- A result or the cause of a failure, and the lines written. -/
structure Outcome (α : Type) where
  result : Except Failure α
  log : List Line
deriving Repr

namespace Outcome

def ret {α : Type} (a : α) : Outcome α := ⟨.ok a, []⟩

def andThen {α β : Type} (x : Outcome α) (f : α → Outcome β) : Outcome β :=
  match x.result with
  | .ok a =>
    let y := f a
    ⟨y.result, x.log ++ y.log⟩
  | .error e => ⟨.error e, x.log⟩

instance : Monad Outcome where
  pure := ret
  bind := andThen

def say (text : String) : Outcome Unit := ⟨.ok (), [⟨text, false⟩]⟩

def remark (text : String) : Outcome Unit := ⟨.ok (), [⟨text, true⟩]⟩

def sayAll (texts : List String) : Outcome Unit := ⟨.ok (), texts.map (⟨·, false⟩)⟩

def fail {α : Type} (e : Failure) : Outcome α := ⟨.error e, []⟩

def require (condition : Bool) (e : Failure) : Outcome Unit :=
  if condition then ret () else fail e

def quiet {α : Type} (x : Outcome α) : Outcome α := ⟨x.result, []⟩

def toOption {α : Type} (x : Outcome α) : Option α :=
  match x.result with
  | .ok a => some a
  | .error _ => none

theorem pure_eq {α : Type} (a : α) : (pure a : Outcome α) = ret a := rfl

theorem bind_eq {α β : Type} (x : Outcome α) (f : α → Outcome β) : x >>= f = x.andThen f := rfl

@[simp]
theorem ret_andThen {α β : Type} (a : α) (f : α → Outcome β) : (ret a).andThen f = f a := by
  simp [andThen, ret]

@[simp]
theorem fail_andThen {α β : Type} (e : Failure) (f : α → Outcome β) :
    (fail e : Outcome α).andThen f = fail e := rfl

end Outcome
end Majorant
