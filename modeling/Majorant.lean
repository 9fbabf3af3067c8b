import Majorant.Report.Round
import Majorant.Workload.Magnitudes
import Majorant.Workload.Proofs
import Majorant.Workload.Tactics
import Majorant.Proofs.Tactic.LinearForms
import Majorant.Proofs.Tactic.Chain
import Majorant.Proofs.Tactic.Contrapose
import Majorant.Proofs.Tactic.Growth
import Majorant.Proofs.Simplifier.Truth
import Majorant.Proofs.Tactic.Asymptotic
import Majorant.Proofs.Magnitude.Tropical
import Majorant.Proofs.Session.Position
import Majorant.Proofs.Tactic.SignMemory
import Majorant.Proofs.Real.Family
import Majorant.Proofs.Tactic.LinearMonotone
import Majorant.Proofs.Tactic.Means
import Majorant.Proofs.Magnitude.LinearForm
import Majorant.Proofs.Session.Layout
import Majorant.Proofs.Session.LinkedSession
