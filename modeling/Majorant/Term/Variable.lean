/-!
# Variables

A variable is a name together with the kind of values it ranges over.  Two variables are the same
exactly when both agree, so redeclaring a name with another kind makes a new variable.

## Design notes

A number that is known not to vanish is taken to be real, so that a nonvanishing complex number and
a nonvanishing real number are one kind: `Kind.ofName?` reads both names as `nonzeroReal`.
-/

namespace Majorant

inductive Kind where
  | int | posInt | nonnegInt | nonzeroInt
  | real | posReal | nonnegReal | nonzeroReal
  | rat | posRat | nonnegRat | nonzeroRat
  | complex
  | prop
  | order
deriving DecidableEq, Repr, Inhabited

namespace Kind

def name : Kind → String
  | int => "int"
  | posInt => "pos_int"
  | nonnegInt => "nonneg_int"
  | nonzeroInt => "nonzero_int"
  | real => "real"
  | posReal => "pos_real"
  | nonnegReal => "nonneg_real"
  | nonzeroReal => "nonzero_real"
  | rat => "rat"
  | posRat => "pos_rat"
  | nonnegRat => "nonneg_rat"
  | nonzeroRat => "nonzero_rat"
  | complex => "complex"
  | prop => "bool"
  | order => "order"

def ofName? : String → Option Kind
  | "int" => some int
  | "pos_int" => some posInt
  | "nonneg_int" => some nonnegInt
  | "nonzero_int" => some nonzeroInt
  | "real" => some real
  | "pos_real" => some posReal
  | "nonneg_real" => some nonnegReal
  | "nonzero_real" => some nonzeroReal
  | "rat" => some rat
  | "pos_rat" => some posRat
  | "nonneg_rat" => some nonnegRat
  | "nonzero_rat" => some nonzeroRat
  | "complex" => some complex
  | "nonzero_complex" => some nonzeroReal
  | "bool" => some prop
  | "order" => some order
  | _ => none

theorem ofName?_name (k : Kind) : ofName? k.name = some k := by
  cases k <;> rfl

/-- **Weight** of a kind: variables of lighter kinds come first in sums and products.  A kind weighs
as much as the number of basic properties its declaration settles. -/
def weight : Kind → Nat
  | complex => 5
  | real => 9
  | nonzeroReal => 12
  | nonnegReal => 13
  | rat => 13
  | int => 15
  | nonzeroRat => 16
  | nonnegRat => 17
  | nonzeroInt => 18
  | nonnegInt => 19
  | posReal => 20
  | posRat => 24
  | posInt => 26
  | prop => 2
  | order => 2

end Kind

/-- A named variable of a kind. -/
structure Variable where
  name : String
  kind : Kind
deriving DecidableEq, Repr, Inhabited

end Majorant
