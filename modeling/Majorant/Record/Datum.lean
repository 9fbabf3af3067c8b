import Majorant.Number.Decimal
import Majorant.Number.Fixed

/-!
# Data records

Results of runs are exchanged as nested data: texts, numbers, lists and records with named fields.
-/

namespace Majorant

/-- **A piece of data.**  Whole numbers are exact; all others lie on the grid of 53 binary digits.
The fields of a record keep the order in which they came first. -/
inductive Datum where
  | null
  | bool (b : Bool)
  | integer (n : Int)
  | decimal (q : Rat)
  | text (s : String)
  | list (items : List Datum)
  | record (fields : List (String × Datum))
  deriving Inhabited

namespace Datum

/-- What can be wrong with the data of a run. -/
inductive Fault where
  | unreadable
  | notRecord
  | notNumber
  | wrongKind
  | timedOut
  deriving DecidableEq, Repr

def setField (name : String) (d : Datum) : List (String × Datum) → List (String × Datum)
  | [] => [(name, d)]
  | (n, e) :: rest => if n = name then (n, d) :: rest else (n, e) :: setField name d rest

def field? (d : Datum) (name : String) : Option Datum :=
  match d with
  | record fields => fields.lookup name
  | _ => none

/-- Data that says nothing: nothing at all, no, zero, or something without content. -/
def isEmpty : Datum → Bool
  | null => true
  | bool b => !b
  | integer n => n = 0
  | decimal q => q = 0
  | text s => s = ""
  | list items => items.isEmpty
  | record fields => fields.isEmpty

def fieldOr (d : Datum) (name : String) (default : Datum) : Datum :=
  match d.field? name with
  | some e => if e.isEmpty then default else e
  | none => default

def fields : Datum → Except Fault (List (String × Datum))
  | record fs => .ok fs
  | _ => .error .notRecord

def fieldList : Datum → List (String × Datum)
  | record fs => fs
  | _ => []

def items : Datum → List Datum
  | list xs => xs
  | _ => []

def text? : Datum → Option String
  | text s => some s
  | _ => none

def integer? : Datum → Option Int
  | integer n => some n
  | _ => none

/-- **A piece of data as a number.**  Texts are read. -/
def number : Datum → Except Fault Rat
  | integer n => .ok (Binary64.nearest n)
  | decimal q => .ok q
  | bool b => .ok (if b then 1 else 0)
  | text s =>
    match Decimal.read? s with
    | some q => .ok q
    | none => .error .notNumber
  | _ => .error .wrongKind

def number? : Datum → Option Rat
  | integer n => some n
  | decimal q => some q
  | _ => none

def amount (d : Datum) : Rat := d.number?.getD 0

def minus : Datum → Datum → Datum
  | integer m, integer n => integer (m - n)
  | a, b => decimal (Binary64.nearest (a.amount - b.amount))

def rounded (places : Nat) : Datum → Datum
  | integer n => integer n
  | d => decimal (Fixed.round places d.amount)

def word : Datum → String
  | integer n => toString n
  | decimal q => Shortest.text q
  | text s => s
  | _ => ""

end Datum
end Majorant
