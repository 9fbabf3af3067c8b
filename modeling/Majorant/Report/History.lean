import Majorant.Record.Reader
import Majorant.Text.Column

/-!
# Earlier rounds

Every round leaves one record behind.
-/

namespace Majorant
namespace Report

/-- The record of an earlier round: when it was, and how many benchmarks were below the bar. -/
structure Earlier where
  stamp : Option Datum
  below : Option Int

/-- **What is known of the earlier rounds.**  `started` counts the records met, `intact` says that all
of them could be read. -/
structure History where
  started : Nat
  rounds : List Earlier
  intact : Bool

def History.none : History := ⟨0, [], true⟩

def History.ofLines : List String → History
  | [] => History.none
  | l :: rest =>
    if (Decimal.trimmed l.toList).isEmpty then History.ofLines rest
    else
      match Datum.read? l with
      | some (.record fs) =>
        let d := Datum.record fs
        let h := History.ofLines rest
        ⟨h.started + 1,
          ⟨d.field? "ts", (d.field? "n_below_repo_time").bind Datum.integer?⟩ ::
            h.rounds, h.intact⟩
      | _ => ⟨1, [], false⟩

def History.read (file : Option String) : History :=
  match file with
  | some s => History.ofLines (Text.lines s)
  | Option.none => History.none

def History.round (h : History) : Nat := h.started + 1

/-- The seconds since the last round; nothing if it is not known when that was. -/
def History.elapsed (h : History) (now : Datum) : Datum :=
  match h.rounds.getLast?.bind (·.stamp) with
  | some t => now.minus t
  | Option.none => .decimal 0

/-- How many benchmarks were below the bar in the earlier rounds where that is known. -/
def History.counts (h : History) : List Int := h.rounds.filterMap (·.below)

inductive Convergence where
  | clean
  | stalled (rounds : Nat) (best : Int)

def coverageTarget : Rat := 60

def patience : Nat := 3

def sinceBest : List Int → Nat × Int
  | [] => (0, 0)
  | x :: rest =>
    let best := rest.foldl min x
    (rest.length - (x :: rest).findIdx (· == best), best)

/-- **Whether the measurements may stop**: enough is covered, and no benchmark is below the bar or
their number has not improved for some rounds. -/
def convergence (coverage : Rat) (earlier : List Int) (below : Option Nat) : Option Convergence :=
  match below with
  | Option.none => Option.none
  | some n =>
    if coverage < coverageTarget then Option.none
    else if n = 0 then some .clean
    else
      let (age, best) := sinceBest (earlier ++ [(n : Int)])
      if age ≥ patience then some (.stalled age best) else Option.none

def Convergence.lines (c : Convergence) : List String :=
  let reason := match c with
    | clean => "0 below"
    | stalled rounds best =>
      "no improvement in " ++ toString rounds ++ " rounds; best " ++ toString best ++ " below"
  ["", ">>> STOP: repo_time converged (" ++ reason ++ "). Finalize microbench.py now. <<<"]

end Report
end Majorant
