import Majorant.Record.Datum
import Majorant.Sort
import Majorant.Text.Column

/-!
# Coverage

A coverage record counts the statements of each file, those that no benchmark reached, and the
errors that the benchmarks ended with.
-/

namespace Majorant
namespace Report

/-- The counts for one file. -/
structure FileCoverage where
  name : String
  statements : Datum
  missed : Datum
  percent : Rat
  missing : List Datum

/-- **A coverage record.** -/
structure Coverage where
  percent : Datum
  covered : Datum
  statements : Datum
  errors : List (String × Datum)
  files : List FileCoverage

def repository : List String := ["repo"]

/-- The steps of a path from the root: empty steps and dots go nowhere, two dots go one step back. -/
def steps (path : String) : List String :=
  let parts := path.splitOn "/"
  let start := if path.startsWith "/" then [] else repository
  parts.foldl
    (fun done s => if s = "" || s = "." then done else if s = ".." then done.dropLast else done ++ [s])
    start

def afterCommon : List String → List String → List String × List String
  | x :: xs, y :: ys => if x = y then afterCommon xs ys else (x :: xs, y :: ys)
  | xs, ys => (xs, ys)

def relativePath (path : String) : String :=
  let (up, down) := afterCommon repository (steps path)
  let all := up.map (fun _ => "..") ++ down
  if all.isEmpty then "." else "/".intercalate all

def count (d : Datum) (name : String) : Datum := (d.field? name).getD (.integer 0)

def FileCoverage.ofDatum (path : String) (d : Datum) : FileCoverage :=
  let summary := (d.field? "summary").getD (.record [])
  { name := relativePath path
    statements := count summary "num_statements"
    missed := count summary "missing_lines"
    percent := ((summary.field? "percent_covered").map Datum.amount).getD 0
    missing := ((d.field? "missing_lines").map Datum.items).getD [] }

def Coverage.ofDatum (d : Datum) : Coverage :=
  let totals := (d.field? "totals").getD (.record [])
  let about := (d.field? "meta").getD (.record [])
  { percent := (totals.field? "percent_covered").getD (.decimal 0)
    covered := count totals "covered_lines"
    statements := count totals "num_statements"
    errors := ((about.field? "_pti_bench_errors").map Datum.fieldList).getD []
    files := ((d.field? "files").map Datum.fieldList).getD [] |>.map fun (p, f) =>
      FileCoverage.ofDatum p f }

def nameLimit : Nat := 60

def missingLimit : Nat := 12

def errorLimit : Nat := 8

def Coverage.nameWidth (c : Coverage) : Nat :=
  min nameLimit ((c.files.map (·.name.length)).foldl max "Name".length)

def tableLine (width : Nat) (name statements missed : String) (percent : Rat) : String :=
  Text.padRight width (String.ofList (name.toList.take nameLimit)) ++ "  " ++
    Text.padLeft 5 statements ++ "  " ++ Text.padLeft 4 missed ++ "  " ++
    Text.padLeft 4 (Fixed.text 0 percent) ++ "%"

def FileCoverage.missingText (f : FileCoverage) : String :=
  ",".intercalate ((f.missing.take missingLimit).map Datum.word) ++
    if f.missing.length > missingLimit then "…" else ""

def Coverage.ranked (c : Coverage) : List FileCoverage :=
  sortBy (fun a b => a.percent ≤ b.percent) c.files

def Coverage.table (c : Coverage) : List String :=
  let width := c.nameWidth
  let rule := String.ofList (List.replicate (width + 42) '-')
  [Text.padRight width "Name" ++ "  Stmts  Miss  Cover  Missing", rule] ++
    c.ranked.map (fun f =>
      tableLine width f.name f.statements.word f.missed.word f.percent ++ "  " ++ f.missingText) ++
    [rule, tableLine width "TOTAL" c.statements.word (c.statements.minus c.covered).word c.percent.amount]

def Coverage.errorLines (c : Coverage) : List String :=
  if c.errors.isEmpty then []
  else
    ["", toString c.errors.length ++ " bench error(s):"] ++
      (c.errors.take errorLimit).map fun (name, e) => "  " ++ name ++ ": " ++ e.word

end Report
end Majorant
