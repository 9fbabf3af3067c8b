import Majorant.Statement.Connective

/-!
# Minimal forms of propositional statements

A statement built from atoms by connectives is brought to a short equivalent form: a disjunction of
conjunctions if it holds in at least half of the cases, a conjunction of disjunctions otherwise.
-/

namespace Majorant
namespace Minimal

/-- A partial assignment: `none` leaves the atom open. -/
abbrev Cube := List (Option Bool)

def assignments : Nat → List (List Bool)
  | 0 => [[]]
  | n + 1 => (assignments n).map (false :: ·) ++ (assignments n).map (true :: ·)

def ofAssignment (a : List Bool) : Cube := a.map some

def ones (c : Cube) : Nat := (c.filter (· == some true)).length

def difference? : Cube → Cube → Option Nat
  | [], [] => none
  | a :: as, b :: bs =>
    if a = b then (difference? as bs).map (· + 1)
    else if as = bs then some 0
    else none
  | _, _ => none

def merges (cs : List Cube) : List (Cube × Cube × Cube) :=
  let width := (cs.headD []).length
  (List.range width).flatMap fun k =>
    (cs.filter (ones · == k)).flatMap fun a =>
      (cs.filter (ones · == k + 1)).filterMap fun b =>
        (difference? a b).map fun i => (a, b, a.set i none)

/-- **Prime implicants**: cubes are merged as long as possible; those that do not merge stay. -/
def implicants : Nat → List Cube → List Cube
  | 0, cs => cs
  | n + 1, cs =>
    let ms := merges cs
    let merged := (ms.map (·.2.2)).eraseDups
    let left := cs.filter fun c => !(ms.any fun m => m.1 == c || m.2.1 == c)
    if merged.isEmpty then left else implicants n merged ++ left

def covers (c a : Cube) : Bool := (c.zip a).all fun (x, y) => x.isNone || x == y

/-- The table of which prime implicants (columns) cover which rows, with the numbers of entries that
still count.  A struck row or column has none. -/
structure Chart where
  table : List (List Bool)
  rows : List Nat
  cols : List Nat

namespace Chart

def entry (c : Chart) (r k : Nat) : Bool := (c.table.getD r []).getD k false

def column (c : Chart) (k : Nat) : List Bool := c.table.map (·.getD k false)

def clearEntry (c : Chart) (r k : Nat) : Chart :=
  { c with table := c.table.modify r (·.set k false) }

def dominates (a b : List Bool) : Bool := (a.zip b).all fun (x, y) => x || !y

/-- Strike a row that is covered whenever another one is. -/
def strikeRow (c : Chart) (r : Nat) : Chart :=
  let hit := (c.table.getD r []).zipIdx.filterMap fun (b, k) => if b then some k else none
  { table := c.table.set r ((c.table.getD r []).map fun _ => false),
    rows := c.rows.set r 0,
    cols := hit.foldl (fun cols k => cols.modify k (· - 1)) c.cols }

def strikeColumn (c : Chart) (k : Nat) : Chart :=
  let hit := (c.column k).zipIdx.filterMap fun (b, r) => if b then some r else none
  { table := c.table.map (·.set k false),
    rows := hit.foldl (fun rows r => rows.modify r (· - 1)) c.rows,
    cols := c.cols.set k 0 }

/-- One pass over the rows: of two comparable ones the larger is struck. -/
def reduceRows (c : Chart) : Chart × Bool :=
  let n := c.table.length
  (List.range n).foldl (fun (acc : Chart × Bool) r =>
    if acc.1.rows.getD r 0 = 0 then acc
    else (List.range n).foldl (fun (acc : Chart × Bool) s =>
      let c := acc.1
      let alive := c.rows.getD r 0
      if r ≠ s && alive ≠ 0 && alive ≤ c.rows.getD s 0 &&
          dominates (c.table.getD s []) (c.table.getD r []) then (c.strikeRow s, true)
      else acc) acc) (c, false)

/-- One pass over the columns: of two comparable ones the smaller is struck.  Columns are compared as
they were at the start of the pass. -/
def reduceColumns (c : Chart) (width : Nat) : Chart × Bool :=
  let start := c
  (List.range width).foldl (fun (acc : Chart × Bool) k =>
    if acc.1.cols.getD k 0 = 0 then acc
    else (List.range width).foldl (fun (acc : Chart × Bool) l =>
      let c := acc.1
      if k ≠ l && c.cols.getD l 0 ≠ 0 && c.cols.getD k 0 ≥ c.cols.getD l 0 &&
          dominates (start.column k) (start.column l) then (c.strikeColumn l, true)
      else acc) acc) (c, false)

def largestColumn (c : Chart) : Nat × Nat :=
  c.cols.zipIdx.foldl (fun best (n, k) => if n > best.1 then (n, k) else best) (0, 0)

/-- Choose a column: the rows it covers count for no other column any more. -/
def choose (c : Chart) (width k : Nat) : Chart × Bool :=
  let covered := c.column k
  (List.range width).foldl (fun (acc : Chart × Bool) l =>
    if l = k then acc
    else covered.zipIdx.foldl (fun (acc : Chart × Bool) (b, r) =>
      if b && acc.1.entry r l then
        let c := acc.1.clearEntry r l
        ({ c with rows := c.rows.modify r (· - 1), cols := c.cols.modify l (· - 1) }, true)
      else acc) acc) (c, false)

def settle (width : Nat) : Nat → Chart → Chart
  | 0, c => c
  | n + 1, c =>
    let (c, rowsChanged) := c.reduceRows
    let (c, colsChanged) := c.reduceColumns width
    if rowsChanged || colsChanged then settle width n c
    else
      let (size, k) := c.largestColumn
      if size > 1 then
        let (c, changed) := c.choose width k
        if changed then settle width n c else c
      else c

end Chart

/-- **Prime implicants that suffice** to cover the rows. -/
def cover (primes rows : List Cube) : List Cube :=
  if rows.isEmpty then []
  else
    let table := rows.map fun a => primes.map (covers · a)
    let chart : Chart :=
      { table := table,
        rows := table.map fun r => (r.filter id).length,
        cols := (List.range primes.length).map fun k =>
          (table.filter (·.getD k false)).length }
    let final := chart.settle primes.length (rows.length * primes.length + primes.length + 4)
    (primes.zip final.cols).filterMap fun (p, n) => if n ≠ 0 then some p else none

end Minimal

namespace Statement
open Term

mutual

def atoms : Term → List Term
  | app .and as | app .or as | app .not as => atomsList as
  | t => [t]

def atomsList : List Term → List Term
  | [] => []
  | t :: ts => atoms t ++ atomsList ts

end

mutual

def holdsUnder (value : Term → Bool) : Term → Bool
  | truth b => b
  | app .and as => allHold value as
  | app .or as => someHold value as
  | app .not as => !allHold value as
  | t => value t

def allHold (value : Term → Bool) : List Term → Bool
  | [] => true
  | t :: ts => holdsUnder value t && allHold value ts

def someHold (value : Term → Bool) : List Term → Bool
  | [] => false
  | t :: ts => holdsUnder value t || someHold value ts

end

/-- Atoms up to negation: of a comparison and its negation only the first one counts. -/
def independentAtoms (t : Term) : List Term :=
  (atoms t).foldl (fun acc a =>
    let known := acc.contains a || (a.isRel && acc.contains (negated a))
    let constant := match a with | truth _ => true | _ => false
    if known || constant then acc else acc ++ [a]) []

def atomValue (indep : List Term) (values : List Bool) (a : Term) : Bool :=
  match (indep.zip values).find? (·.1 == a) with
  | some p => p.2
  | none => match (indep.zip values).find? (·.1 == negated a) with
    | some p => !p.2
    | none => false

def literals (flip : Bool) (indep : List Term) (c : Minimal.Cube) : Outcome (List Term) :=
  (indep.zip c).filterMapM fun (a, v) => match v with
    | none => pure none
    | some b => if b != flip then pure (some a) else some <$> not a

def orderedAtoms (ts : List Term) : List Term :=
  ordered (ts.filter (·.isRel)) ++ ordered (ts.filter fun t => !t.isRel)

def minimal (t : Term) : Outcome Term := do
  match t with
  | app .and _ | app .or _ | app .not _ =>
    let indep := orderedAtoms (independentAtoms t)
    let n := indep.length
    let all := Minimal.assignments n
    let isTrue := fun a => holdsUnder (atomValue indep a) t
    let rows := (all.filter isTrue).map Minimal.ofAssignment
    let others := (all.filter fun a => !isTrue a).map Minimal.ofAssignment
    if 2 * rows.length ≥ Nat.pow 2 n then
      let cubes := Minimal.cover (Minimal.implicants (n + 1) rows) rows
      disj (← cubes.mapM fun c => do conj (← literals false indep c))
    else
      let cubes := Minimal.cover (Minimal.implicants (n + 1) others) others
      conj (← cubes.mapM fun c => do disj (← literals true indep c))
  | _ => return t

end Statement
end Majorant
