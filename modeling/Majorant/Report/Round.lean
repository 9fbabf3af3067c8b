import Majorant.Report.Check
import Majorant.Report.Coverage
import Majorant.Report.History
import Majorant.Report.Profile

/-!
# A round of measurements

A round reads the results of its runs, reports them, and leaves a record for the next round.
-/

namespace Majorant
namespace Report

inductive Trial where
  | finished (output errors : String)
  | timedOut

/-- **What a round sees**: the coverage run with its exit code and its record, the profiling run, the
self-check and the listing of changes, each only if it takes place, the text of the benchmarks, the
file of earlier records, the time, and how long the coverage run took. -/
structure Surroundings where
  code : Int
  output : String
  errors : String
  coverage : Option String
  profile : Option Trial
  check : Option Trial
  changes : Option Trial
  benchmarks : Option String
  earlier : Option String
  now : Datum
  seconds : Datum

inductive Source where
  | profile
  | check
  deriving DecidableEq, Repr

inductive Notice where
  | passed (text : String)
  | fault (source : Source) (cause : Datum.Fault)

/-- **What a round leaves behind**: its report, its notices, the exit code if it ended early, and the
record that it adds to the file. -/
structure Round where
  lines : List String
  notices : List Notice
  exit : Option Int
  record : Option Datum

def lastRecord (output : String) : Except Datum.Fault Datum :=
  match (Text.lines output).getLast? with
  | none => .ok (.record [])
  | some l => if l = "" then .ok (.record []) else Datum.read l

def passedOn (errors : String) : List Notice := if errors = "" then [] else [.passed errors]

def profileOf : Option Trial → Profile × List Notice
  | none => (.empty, [])
  | some .timedOut => (.empty, [.fault .profile .timedOut])
  | some (.finished output errors) =>
    match lastRecord output >>= Profile.ofDatum with
    | .ok p => (p, passedOn errors)
    | .error e => (.empty, passedOn errors ++ [.fault .profile e])

def changesOf : Option Trial → List String
  | some (.finished output _) => changedFiles output
  | _ => []

def checksOf (isModified : Bool) : Trial → List Checked × List Notice
  | .timedOut => ([], [.fault .check .timedOut])
  | .finished output errors =>
    match lastRecord output with
    | .error e => ([], passedOn errors ++ [.fault .check e])
    | .ok d =>
      match d.fields >>= fun _ => (d.fieldOr "semcheck" (.record [])).fields with
      | .error e => ([], passedOn errors ++ [.fault .check e])
      | .ok entries =>
        let (cs, e) := checkAll isModified entries
        (cs, passedOn errors ++ e.toList.map (.fault .check))

/-- How many benchmarks a text defines at its outermost level. -/
def benchmarkCount (source : String) : Nat :=
  (Text.lines source).countP (·.startsWith "def bench_")

def closingLine (round benches : Nat) (c : Coverage) (p : Profile) (cs : List Checked)
    (seconds : Datum) :
    String :=
  "[round " ++ toString round ++ ": " ++ toString benches ++ " benches, " ++ Fixed.text 1 c.percent.amount ++
    "% covered" ++ p.summary ++ checkSummary cs ++ ", measured in " ++ Fixed.text 1 seconds.amount ++ "s]"

def roundRecord (s : Surroundings) (h : History) (benches : Nat) (c : Coverage) (p : Profile)
    (cs : List Checked) : Datum :=
  .record [
    ("round", .integer h.round),
    ("ts", s.now),
    ("wall_since_prev_s", (h.elapsed s.now).rounded 2),
    ("coverage_pct", c.percent),
    ("covered_lines", c.covered),
    ("num_statements", c.statements),
    ("n_bench_fns", .integer benches),
    ("n_bench_errors", .integer c.errors.length),
    ("cov_measure_s", s.seconds.rounded 3),
    ("repo_time_pct", .record (p.shares.map fun (name, share) => (name, .decimal share))),
    ("n_below_repo_time", match p.below? with
      | some n => .integer n
      | none => .null),
    ("semcheck", .record (cs.map fun k => (k.name, .text k.verdict.word))),
    ("n_not_self_checking", .integer (rejected cs))]

def failedRound (s : Surroundings) : Round :=
  { lines := ["coverage measurement failed (exit " ++ toString s.code ++ ")", s.output]
    notices := passedOn s.errors
    exit := some (if s.code = 0 then 1 else s.code)
    record := none }

def coveredRound (s : Surroundings) (c : Coverage) : Round :=
  let (profile, profileNotices) := profileOf s.profile
  let changes := if s.check.isSome then changesOf s.changes else []
  let (checks, checkNotices) := match s.check with
    | some t => checksOf (!changes.isEmpty) t
    | none => ([], [])
  let benches := (s.benchmarks.map benchmarkCount).getD 0
  let history := History.read s.earlier
  let stop := (convergence c.percent.amount history.counts profile.below?).map Convergence.lines
  { lines := c.table ++ c.errorLines ++ profile.lines ++ changeLines changes ++ checkLines checks ++
      ["", closingLine history.round benches c profile checks s.seconds] ++ stop.getD []
    notices := passedOn s.errors ++ profileNotices ++ checkNotices
    exit := none
    record := if history.intact then some (roundRecord s history benches c profile checks) else none }

/-- **A round of measurements.**  It ends early if the coverage run fails or leaves no record. -/
def Round.run (s : Surroundings) : Except Datum.Fault Round :=
  match s.coverage with
  | none => .ok (failedRound s)
  | some text =>
    if s.code ≠ 0 then .ok (failedRound s)
    else do
      let d ← Datum.read text
      let _ ← d.fields
      return coveredRound s (Coverage.ofDatum d)

def Round.output (r : Round) : List String := r.lines.flatMap (·.splitOn "\n")

end Report
end Majorant
