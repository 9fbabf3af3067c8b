import Majorant.Number.Rational
import Majorant.Record.Datum
import Majorant.Sort
import Majorant.Text.Column

/-!
# Self-checks

A benchmark is worth its time only if its answer says something about the code it runs: the answer
has to exist, to be the same in every run, to differ from the parameter and to depend on it, and
most of the time has to be spent in the repository.
-/

namespace Majorant
namespace Report

inductive Verdict where
  | failed
  | returnsNone
  | unstable
  | returnsInput
  | lowShare
  | tooFast
  | invariant
  | modified
  | unparametrised
  | passed
  deriving DecidableEq, Repr

def Verdict.word : Verdict → String
  | failed => "error"
  | returnsNone => "returns-none"
  | unstable => "unstable"
  | returnsInput => "returns-input"
  | lowShare => "low-repo-time"
  | tooFast => "too-fast"
  | invariant => "param-invariant"
  | modified => "repo-modified"
  | unparametrised => "ok-unparam"
  | passed => "ok"

def Verdict.accepts : Verdict → Bool
  | passed | unparametrised => true
  | _ => false

/-- **What was seen of a benchmark**: the kind of its answer, the prints of its answers in several
runs, for several parameters and of the parameters themselves, the shares of time in the repository
and the times in milliseconds. -/
structure Observation where
  kind : String
  prints : List (Option String)
  byParameter : List (Option String)
  parameters : List (Option String)
  shares : List Rat
  times : List Rat

def numbers (d : Datum) : Except Datum.Fault (List Rat) := do
  let fs ← d.fields
  fs.mapM fun (_, v) => v.number

def Observation.ofDatum (d : Datum) : Except Datum.Fault Observation := do
  let shares ← numbers (d.fieldOr "repo_frac" (.record []))
  let times ← numbers (d.fieldOr "repo_tt_ms" (.record []))
  return {
    kind := ((d.field? "ret_type").bind Datum.text?).getD ""
    prints := ((d.field? "fp_stable").map Datum.items).getD [] |>.map Datum.text?
    byParameter := ((d.field? "fp_by_param").map Datum.fieldList).getD [] |>.map (·.2.text?)
    parameters := ((d.field? "param_fps").map Datum.items).getD [] |>.map Datum.text?
    shares, times }

def isConstant (xs : List (Option String)) : Bool :=
  match xs with
  | [] => false
  | x :: rest => rest.all (· == x)

def Observation.share (o : Observation) : Rat :=
  match o.shares with
  | [] => 0
  | x :: rest => rest.foldl Rational.smaller x

def median (xs : List Rat) : Rat :=
  let s := sortBy (fun a b => a ≤ b) xs
  let n := s.length
  if n = 0 then 0
  else if n % 2 = 1 then s.getD (n / 2) 0
  else Binary64.nearest (Binary64.nearest (s.getD (n / 2 - 1) 0 + s.getD (n / 2) 0) / 2)

def Observation.time (o : Observation) : Rat := median o.times

def shareTarget : Rat := 1 / 2

def timeTarget : Rat := 1

/-- **The first rule that is broken.** -/
def Observation.verdict (o : Observation) : Verdict :=
  if o.kind = "" || o.kind.startsWith "<" then .failed
  else if o.kind = "NoneType" then .returnsNone
  else if !isConstant o.prints then .unstable
  else if o.prints.any (o.parameters.contains ·) then .returnsInput
  else if !o.shares.isEmpty && o.share < shareTarget then .lowShare
  else if !o.times.isEmpty && o.time < timeTarget then .tooFast
  else if o.byParameter.length < 2 then .unparametrised
  else if isConstant o.byParameter then .invariant
  else .passed

/-- A benchmark that was checked. -/
structure Checked where
  name : String
  observation : Observation
  verdict : Verdict

/-- Check the benchmarks one after the other; those before the first fault in the data count.  Entries
that are no records are passed over, and in a modified repository no answer counts. -/
def checkAll (isModified : Bool) : List (String × Datum) → List Checked × Option Datum.Fault
  | [] => ([], none)
  | (name, d) :: rest =>
    match d with
    | .record _ =>
      match Observation.ofDatum d with
      | .error e => ([], some e)
      | .ok o =>
        let (cs, e) := checkAll isModified rest
        (⟨name, o, if isModified then .modified else o.verdict⟩ :: cs, e)
    | _ => checkAll isModified rest

def rejected (cs : List Checked) : Nat := cs.countP fun c => !c.verdict.accepts

def advice : List String :=
  ["  returns-none: run() has no return — collect and return the call results",
   "  unstable: seed RNG in setup; avoid time/uuid/id in the return",
   "  returns-input: return repo output, not the parameter value",
   "  low-repo-time: <50% of run() time is in repo code — move glue to setup",
   "  param-invariant: return something derived from run()'s work, not setup",
   "  repo-modified: revert edits to repo files (git checkout -- <path>)"]

def Checked.line (c : Checked) : String :=
  "  " ++ (if c.verdict.accepts then " " else "*") ++ " " ++ Text.padRight 32 c.name ++ " " ++
    Text.padRight 16 c.verdict.word ++ " (" ++
    (if c.observation.kind = "" then "?" else c.observation.kind) ++ ", repo " ++
    Fixed.text 0 (Binary64.nearest (100 * c.observation.share)) ++ "%) " ++
    Fixed.text 1 c.observation.time ++ "ms"

/-- **The report of the self-checks**, those that need work first. -/
def checkLines (cs : List Checked) : List String :=
  if cs.isEmpty then []
  else
    ["", "self-check (* = fix needed):"] ++ advice ++
      (cs.filter (!·.verdict.accepts)).map Checked.line ++
      (cs.filter (·.verdict.accepts)).map Checked.line

def checkSummary (cs : List Checked) : String :=
  if cs.isEmpty then ""
  else ", " ++ toString (rejected cs) ++ "/" ++ toString cs.length ++ " not self-checking"

def changeLimit : Nat := 10

def editable : String := "microbench.py"

/-- The changed files of a status listing: the name stands after a mark of two characters and a blank.
Files that the repository does not hold are no changes. -/
def changedFiles (listing : String) : List String :=
  (Text.lines listing).filter (fun l => !l.isEmpty && !l.startsWith "??")
    |>.map (fun l => String.ofList (l.toList.drop 3))
    |>.filter (· != editable)

def changeLines (files : List String) : List String :=
  if files.isEmpty then []
  else
    ["", "** repo modified (" ++ toString files.length ++ " file(s)) — revert these; only " ++ editable ++
      " is yours to edit:"] ++ (files.take changeLimit).map ("   " ++ ·)

end Report
end Majorant
