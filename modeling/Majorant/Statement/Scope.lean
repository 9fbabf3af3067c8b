import Majorant.Term.Basic

/-!
# Scope

A term is defined in terms of some variables if every variable of it is one of them.
-/

namespace Majorant
namespace Term

mutual

/-- **The term is built from the given terms, numbers and truth values.** -/
def isDefined (known : List Term) (t : Term) : Bool :=
  known.contains t || t.isNumber ||
    match t with
    | truth _ | lit (.bool _) => true
    | app _ as => !as.isEmpty && areDefined known as
    | _ => false

def areDefined (known : List Term) (ts : List Term) : Bool :=
  match ts with
  | [] => true
  | t :: ts => t.isDefined known && areDefined known ts

end

end Term
end Majorant
