import Majorant.Number.Rational
import Majorant.Record.Datum
import Majorant.Sort
import Majorant.Text.Column

/-!
# Profiles

A profile says for each benchmark which share of its time is spent in the code of the repository,
and where the rest goes.
-/

namespace Majorant
namespace Report

/-- **A profile**: the share of each benchmark in percent, and its hot spots outside. -/
structure Profile where
  shares : List (String × Rat)
  hot : Datum

def Profile.empty : Profile := ⟨[], .record []⟩

def Profile.ofDatum (d : Datum) : Except Datum.Fault Profile := do
  let _ ← d.fields
  let shares ← (d.fieldOr "repo_time_pct" (.record [])).fields
  let shares ← shares.mapM fun (name, share) => return (name, ← share.number)
  return ⟨shares, d.fieldOr "hot_ext" (.record [])⟩

def shareBar : Rat := 45

def isMeasured (share : Rat) : Bool := 0 ≤ share

def isBelow (share : Rat) : Bool := isMeasured share && share < shareBar

def Profile.measured (p : Profile) : Nat := p.shares.countP fun (_, s) => isMeasured s

def Profile.below (p : Profile) : Nat := p.shares.countP fun (_, s) => isBelow s

def Profile.below? (p : Profile) : Option Nat := if p.measured = 0 then none else some p.below

def hotSpot : Datum → String
  | .list (share :: place :: _) => place.word ++ " " ++ Fixed.text 0 (share.number?.getD 0) ++ "%"
  | _ => ""

def Profile.hotSpots (p : Profile) (name : String) : List String :=
  ((p.hot.field? name).map Datum.items).getD [] |>.map hotSpot

def Profile.line (p : Profile) (name : String) (share : Rat) : String :=
  let spots := p.hotSpots name
  let tail :=
    if !isMeasured share then "  <error>"
    else if isBelow share && !spots.isEmpty then " (hot: " ++ " ".intercalate spots ++ ")"
    else ""
  "  " ++ (if isBelow share then "*" else " ") ++ " " ++ Text.padRight 32 name ++ " " ++
    Text.padLeft 5 (Fixed.text 1 (Rational.larger 0 share)) ++ "%" ++ tail

def Profile.ranked (p : Profile) : List (String × Rat) :=
  sortBy (fun a b => a.2 ≤ b.2) p.shares

def Profile.lines (p : Profile) : List String :=
  if p.shares.isEmpty then []
  else
    ["", "repo_time (target 50%; * = below 45%):"] ++
      p.ranked.map fun (name, share) => p.line name share

def Profile.summary (p : Profile) : String :=
  if p.shares.isEmpty then ""
  else ", " ++ toString p.below ++ "/" ++ toString p.measured ++ " below repo_time 45%"

end Report
end Majorant
