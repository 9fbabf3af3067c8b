import Majorant.Proofs.Magnitude.Name
import Majorant.Proofs.Tactic.Magnitudes

/-!
# Deciding orders of magnitude

In a state about orders of magnitude, linear arithmetic with logarithms proves the goal exactly when it
follows from the hypotheses for all exponents, as long as the names of the orders can be written.
-/

namespace Majorant
namespace Tactic
open Term Proof Linear Magnitude

variable {N : Variable → Prop} {s : State}

theorem composed_of_mem_allLists {cs : List Term} (hcs : ∀ c ∈ cs, IsComparison N c) :
    ∀ l ∈ allLists cs, ∀ i ∈ l, ∀ k ∈ i.unknowns, Composed N k := by
  refine forall_mem_allLists.2 ⟨fun l hl i hi k hk => ?_, fun k hk _ i hi j hj => ?_⟩
  · obtain ⟨r, a, b, rfl, ha, hb⟩ := exists_comparison_of_mem hcs l hl i hi
    exact (ha.of_mem_comparison hb hk).1
  · rw [List.mem_singleton.1 hi] at hj
    exact ((composed_of_mem_unknowns hcs k hk).of_mem_sizeEquation hj).1

theorem MagnitudeState.namesWritable (h : MagnitudeState N s)
    (hN : ∀ v, N v → encodable v.name = true) : NamesWritable s := by
  rw [h.namesWritable_iff]
  intro k hk
  obtain ⟨i, hi, hki⟩ := mem_allUnknowns.1 hk
  obtain ⟨l, hl, hil⟩ := List.mem_flatten.1 hi
  exact (composed_of_mem_allLists h.isComparison_of_mem l hl i hil k hki).encodable_text hN

/-- **Orders of magnitude are decided.**  The goal of a state about orders of magnitude is proved exactly
when all exponents that satisfy the hypotheses satisfy the goal and the names of all unknowns can be
written.  A name that cannot be written stops the decision, and there is none if the names of the
variables can be written. -/
theorem magnitudes_decided (verbose : Bool) {N : Variable → Prop} {s : State}
    (h : MagnitudeState N s) :
    ((logLinearOf verbose true s).result = .ok [] ↔ Valid s ∧ NamesWritable s) ∧
      (¬ NamesWritable s → (logLinearOf verbose true s).result = .error .unencodable) ∧
      ((∀ v, N v → encodable v.name = true) → NamesWritable s) := by
  have hregular := regular_allLists h.isComparison_of_mem
  have hlists : (disjunctions true s).result = .ok (allLists (comparisons s)) := by
    rw [h.disjunctions_eq]
    rfl
  refine ⟨?_, fun hwrite => ?_, h.namesWritable⟩
  · rw [logLinearOf_eq_nil_iff h.isOpen hlists, hregular.forall_refutable_iff,
      exists_point_iff h.isComparison_of_mem, h.valid_iff, h.namesWritable_iff, and_comm]
  · exact hregular.result_of_not_writable h.isOpen hlists (mt h.namesWritable_iff.2 hwrite)

/-- Orders `A` and `B`, a whole number `n` and a number `x` with `A <= max(B, n)`, `B ^ 2 <= n` and
`n <= x` in order of magnitude, and the goal `A <= x`. -/
def nestedScales : State :=
  let a := var ⟨"A", .order⟩
  let b := var ⟨"B", .order⟩
  let n := app .theta [var ⟨"n", .posInt⟩]
  let x := app .theta [var ⟨"x", .posReal⟩]
  ⟨app (.rel .le) [a, x],
    [("n", declare ⟨"n", .posInt⟩), ("h1", app (.rel .le) [a, app .orderMax [b, n]]),
      ("h2", app (.rel .le) [app .orderPow [b, num 2], n]), ("h3", app (.rel .le) [n, x])]⟩

/-- An order `Ω` that is at most one, and the same as a goal. -/
def greekScale : State :=
  let w := var ⟨"Ω", .order⟩
  ⟨app (.rel .le) [w, Magnitude.unit], [("h", app (.rel .le) [w, Magnitude.unit])]⟩

def scaleNames : List Variable :=
  [⟨"A", .order⟩, ⟨"B", .order⟩, ⟨"n", .posInt⟩, ⟨"x", .posReal⟩]

theorem magnitudeState_nestedScales : MagnitudeState (· ∈ scaleNames) nestedScales := by
  have ha : Composed (· ∈ scaleNames) (var ⟨"A", .order⟩) := .order (by decide) rfl
  have hb : Composed (· ∈ scaleNames) (var ⟨"B", .order⟩) := .order (by decide) rfl
  have hn : Composed (· ∈ scaleNames) (app .theta [var ⟨"n", .posInt⟩]) := .theta (by decide) (by decide)
  have hx : Composed (· ∈ scaleNames) (app .theta [var ⟨"x", .posReal⟩]) :=
    .theta (by decide) (by decide)
  have hmax : Composed (· ∈ scaleNames)
      (app .orderMax [var ⟨"B", .order⟩, app .theta [var ⟨"n", .posInt⟩]]) := by
    refine .extremum (.inl rfl) (by decide) (by decide) (by simp) ?_
    exact List.forall_mem_cons.2 ⟨hb, List.forall_mem_singleton.2 hn⟩
  refine ⟨⟨.le, _, _, rfl, by decide, by decide, ha, hx⟩, ?_⟩
  simp only [nestedScales, Context.hypotheses, List.map_cons, List.map_nil, List.forall_mem_cons]
  exact ⟨.inl ⟨_, by decide, rfl⟩, .inr ⟨.le, _, _, rfl, by decide, ha, hmax⟩,
    .inr ⟨.le, _, _, rfl, by decide, .power hb 2, hn⟩, .inr ⟨.le, _, _, rfl, by decide, hn, hx⟩, nofun⟩

theorem valid_nestedScales : Valid nestedScales := by
  intro e he
  simp only [nestedScales, Context.hypotheses, List.map_cons, List.map_nil, List.forall_mem_cons,
    HoldsFor, declare, Rel.Compares, degree, degrees, List.max?_cons', List.foldl_cons, List.foldl_nil,
    Option.getD_some, le_max_iff] at he
  obtain ⟨hn, hmax, hsquare, hle, -⟩ := he
  have hpos := hn True.intro
  simp only [nestedScales, HoldsFor, Rel.Compares, degree]
  rcases hmax with hmax | hmax <;> linarith

theorem magnitudeState_greekScale : MagnitudeState (· = ⟨"Ω", .order⟩) greekScale := by
  have hw : Composed (· = ⟨"Ω", .order⟩) (var ⟨"Ω", .order⟩) := .order rfl rfl
  refine ⟨⟨.le, _, _, rfl, by decide, by decide, hw, .unit⟩, ?_⟩
  exact List.forall_mem_singleton.2 (.inr ⟨.le, _, _, rfl, by decide, hw, .unit⟩)

/-- The nested scales are decided in favour of the goal; the scale `Ω` is refused although its goal is
one of the hypotheses. -/
theorem nestedScales_proved :
    (logLinearOf false true nestedScales).result = .ok [] ∧ Valid greekScale ∧
      (logLinearOf false true greekScale).result = .error .unencodable := by
  obtain ⟨hproved, -, hnames⟩ := magnitudes_decided false magnitudeState_nestedScales
  refine ⟨hproved.2 ⟨valid_nestedScales, hnames (by decide)⟩, ?_, ?_⟩
  · exact fun e he => he _ List.mem_cons_self
  · refine (magnitudes_decided false magnitudeState_greekScale).2.1 fun hwrite => ?_
    have htext := magnitudeState_greekScale.namesWritable_iff.1 hwrite (var ⟨"Ω", .order⟩)
      (by decide +kernel)
    exact absurd htext (by decide +kernel)

end Tactic
end Majorant
