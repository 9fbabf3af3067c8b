import Majorant.Proofs.Linear.Feasibility
import Majorant.Proofs.Outcome
import Majorant.Tactic.LogLinear

/-!
# Linear arithmetic with orders of magnitude

The goal is proved if every choice of one inequality from each disjunction is refuted, so exactly when no
point satisfies all disjunctions, provided that the names in them can be written.
-/

namespace Majorant
namespace Tactic
open Term Proof Linear

section Choices

variable {α : Type} {ls : List (List α)} {c : List α}

theorem mem_choices_cons {xs : List α} :
    c ∈ choices (xs :: ls) ↔ ∃ x ∈ xs, ∃ d ∈ choices ls, c = x :: d := by
  simp only [choices, List.mem_flatMap, List.mem_map, eq_comm]

theorem exists_mem_choices_iff {P : α → Prop} :
    (∃ c ∈ choices ls, ∀ i ∈ c, P i) ↔ ∀ l ∈ ls, ∃ i ∈ l, P i := by
  induction ls with
  | nil => simp [choices]
  | cons xs ls ih =>
    rw [List.forall_mem_cons, ← ih]
    constructor
    · rintro ⟨c, hc, hall⟩
      obtain ⟨x, hx, d, hd, rfl⟩ := mem_choices_cons.1 hc
      rw [List.forall_mem_cons] at hall
      exact ⟨⟨x, hx, hall.1⟩, d, hd, hall.2⟩
    · rintro ⟨⟨x, hx, hPx⟩, d, hd, hall⟩
      exact ⟨x :: d, mem_choices_cons.2 ⟨x, hx, d, hd, rfl⟩, List.forall_mem_cons.2 ⟨hPx, hall⟩⟩

theorem exists_of_mem_choice (hc : c ∈ choices ls) : ∀ i ∈ c, ∃ l ∈ ls, i ∈ l := by
  induction ls generalizing c with
  | nil =>
    rw [choices, List.mem_singleton] at hc
    subst hc
    exact nofun
  | cons xs ls ih =>
    obtain ⟨x, hx, d, hd, rfl⟩ := mem_choices_cons.1 hc
    intro i hi
    rcases List.mem_cons.1 hi with rfl | hi
    · exact ⟨xs, List.mem_cons_self, hx⟩
    · obtain ⟨l, hl, hil⟩ := ih hd i hi
      exact ⟨l, List.mem_cons_of_mem xs hl, hil⟩

theorem mem_choice_of_singleton (hc : c ∈ choices ls) {i : α} (hi : [i] ∈ ls) : i ∈ c := by
  induction ls generalizing c with
  | nil => cases hi
  | cons xs ls ih =>
    obtain ⟨x, hx, d, hd, rfl⟩ := mem_choices_cons.1 hc
    rcases List.mem_cons.1 hi with rfl | hi
    · rw [List.mem_singleton.1 hx]
      exact List.mem_cons_self
    · exact List.mem_cons_of_mem x (ih hd hi)

theorem choices_ne_nil (h : ∀ l ∈ ls, l ≠ []) : choices ls ≠ [] := by
  have hsome : ∃ c ∈ choices ls, ∀ i ∈ c, True := exists_mem_choices_iff.2 fun l hl =>
    (List.exists_mem_of_ne_nil l (h l hl)).imp fun i hi => ⟨hi, True.intro⟩
  obtain ⟨c, hc, -⟩ := hsome
  exact List.ne_nil_of_mem hc

end Choices

def Refutable (is : List LogInequality) : Prop :=
  ∃ ms, (feasibility Term.text is).result = .ok (.multipliers ms)

theorem decideChoices_iff {cs : List (List LogInequality)} :
    (∃ ds, (decideChoices cs).result = .ok ds ∧ ds.find? (·.certificate.isPoint) = none) ↔
      ∀ c ∈ cs, Refutable c := by
  induction cs with
  | nil => simp [decideChoices]
  | cons is cs ih =>
    unfold decideChoices
    rw [List.forall_mem_cons, ← ih]
    constructor
    · rintro ⟨ds, hds, hnone⟩
      obtain ⟨c, hc, hds⟩ := Outcome.result_bind_eq_ok.1 hds
      cases c with
      | point values =>
        cases hds
        simp [Certificate.isPoint] at hnone
      | multipliers ms =>
        obtain ⟨ds', hds', h⟩ := Outcome.result_bind_eq_ok.1 hds
        cases h
        rw [List.find?_cons_of_neg (by simp [Certificate.isPoint])] at hnone
        exact ⟨⟨ms, hc⟩, ds', hds', hnone⟩
    · rintro ⟨⟨ms, hms⟩, ds, hds, hnone⟩
      refine ⟨⟨is, .multipliers ms⟩ :: ds, ?_, ?_⟩
      · rw [Outcome.result_bind_of_ok hms]
        exact Outcome.result_bind_eq_ok.2 ⟨ds, hds, rfl⟩
      · rw [List.find?_cons_of_neg (by simp [Certificate.isPoint]), hnone]

theorem result_reportChoice (d : Decided) : (reportChoice d).result = .ok () := by
  obtain ⟨is, c⟩ := d
  cases c with
  | point values =>
    refine Outcome.result_bind_eq_ok.2 ⟨(), rfl, Outcome.result_bind_eq_ok.2
      ⟨(), Outcome.result_forM_of_ok fun _ _ => rfl, Outcome.result_bind_eq_ok.2 ⟨(), rfl, ?_⟩⟩⟩
    exact Outcome.result_forM_of_ok fun _ _ => rfl
  | multipliers ms =>
    refine Outcome.result_forM_of_ok fun p _ => ?_
    dsimp only
    split <;> rfl

variable {verbose splitExtrema : Bool} {s : State} {lists : List (List LogInequality)}

/-- The goal is not settled before anything is calculated. -/
def IsOpen (s : State) : Prop := bot ∉ s.context.statements ∧ s.goal ≠ top

theorem result_conclude (ds : List Decided) :
    (conclude verbose s ds).result =
      .ok (if ds.find? (·.certificate.isPoint) = none then [] else [s]) := by
  unfold conclude
  cases hfind : ds.find? (·.certificate.isPoint) with
  | some d =>
    cases verbose with
    | false => rfl
    | true => exact Outcome.result_bind_eq_ok.2 ⟨(), result_reportChoice d, rfl⟩
  | none =>
    cases verbose with
    | false => rfl
    | true =>
      refine Outcome.result_bind_eq_ok.2
        ⟨(), Outcome.result_forM_of_ok fun d _ => result_reportChoice d, ?_⟩
      by_cases hempty : ds.isEmpty = true
      · rw [if_pos hempty]
        rfl
      · rw [if_neg hempty]
        rfl

theorem result_logLinearOf (hopen : IsOpen s)
    (hlists : (disjunctions splitExtrema s).result = .ok lists) :
    (logLinearOf verbose splitExtrema s).result =
      (decideChoices (choices lists) >>= conclude verbose s).result := by
  have hguard : (s.context.statements.contains bot || s.goal = top) = false := by
    simpa [IsOpen] using hopen
  unfold logLinearOf
  rw [hguard]
  refine (Outcome.result_bind_of_ok hlists _).trans ?_
  cases verbose <;> rfl

theorem exists_disjunctions (hopen : IsOpen s) {left : List State}
    (h : (logLinearOf verbose splitExtrema s).result = .ok left) :
    ∃ lists, (disjunctions splitExtrema s).result = .ok lists := by
  have hguard : (s.context.statements.contains bot || s.goal = top) = false := by
    simpa [IsOpen] using hopen
  unfold logLinearOf at h
  rw [hguard] at h
  obtain ⟨lists, hlists, -⟩ := Outcome.result_bind_eq_ok.1 h
  exact ⟨lists, hlists⟩

/-- **The goal is proved exactly when every choice is refuted.** -/
theorem logLinearOf_eq_nil_iff (hopen : IsOpen s)
    (hlists : (disjunctions splitExtrema s).result = .ok lists) :
    (logLinearOf verbose splitExtrema s).result = .ok [] ↔ ∀ c ∈ choices lists, Refutable c := by
  rw [result_logLinearOf hopen hlists, Outcome.result_bind_eq_ok, ← decideChoices_iff]
  refine exists_congr fun ds => and_congr_right fun _ => ?_
  rw [result_conclude, Except.ok.injEq]
  by_cases hnone : ds.find? (·.certificate.isPoint) = none
  · simp [hnone]
  · simp [hnone]

theorem refutable_iff {is : List LogInequality} (hkeys : ∀ i ∈ is, i.unknowns.Nodup) :
    Refutable is ↔ Inequality.Writable Term.text is ∧ ¬ Inequality.Feasible is := by
  constructor
  · rintro ⟨ms, hms⟩
    refine ⟨?_, (refutes_of_feasibility hkeys hms).not_feasible hkeys⟩
    by_contra hwrite
    rw [feasibility_of_not_writable hwrite] at hms
    cases hms
  · rintro ⟨hwrite, hnone⟩
    obtain ⟨ms, hms, -⟩ := feasibility_of_not_feasible hkeys hwrite hnone
    exact ⟨ms, by rw [hms]; rfl⟩

/-- Disjunctions that can be put to the decision: none is empty, every inequality lists its unknowns
once, and the unknowns of each are those of one that is in every choice. -/
structure Regular (lists : List (List LogInequality)) : Prop where
  nonempty : ∀ l ∈ lists, l ≠ []
  nodup : ∀ l ∈ lists, ∀ i ∈ l, i.unknowns.Nodup
  shared : ∀ l ∈ lists, ∀ i ∈ l, ∃ j, [j] ∈ lists ∧ j.unknowns = i.unknowns

variable {c : List LogInequality}

theorem Regular.writable_iff (h : Regular lists) (hc : c ∈ choices lists) :
    Inequality.Writable Term.text c ↔ Inequality.Writable Term.text lists.flatten := by
  have hsame : ∀ k, k ∈ Inequality.allUnknowns c ↔ k ∈ Inequality.allUnknowns lists.flatten := by
    intro k
    rw [mem_allUnknowns, mem_allUnknowns]
    constructor
    · rintro ⟨i, hi, hk⟩
      obtain ⟨l, hl, hil⟩ := exists_of_mem_choice hc i hi
      exact ⟨i, List.mem_flatten.2 ⟨l, hl, hil⟩, hk⟩
    · rintro ⟨i, hi, hk⟩
      obtain ⟨l, hl, hil⟩ := List.mem_flatten.1 hi
      obtain ⟨j, hj, hunknowns⟩ := h.shared l hl i hil
      exact ⟨j, mem_choice_of_singleton hc hj, hunknowns ▸ hk⟩
  exact forall_congr' fun k => imp_congr_left (hsame k)

/-- **Every choice is refuted** exactly when no point satisfies all disjunctions, and the names in them
can be written. -/
theorem Regular.forall_refutable_iff (h : Regular lists) :
    (∀ c ∈ choices lists, Refutable c) ↔
      Inequality.Writable Term.text lists.flatten ∧
        ¬ ∃ x : Term → ℚ, ∀ l ∈ lists, ∃ i ∈ l, i.holdsAt x = true := by
  have hkeys : ∀ c ∈ choices lists, ∀ i ∈ c, i.unknowns.Nodup := by
    intro c hc i hi
    obtain ⟨l, hl, hil⟩ := exists_of_mem_choice hc i hi
    exact h.nodup l hl i hil
  constructor
  · intro hall
    obtain ⟨c, hc⟩ := List.exists_mem_of_ne_nil _ (choices_ne_nil h.nonempty)
    refine ⟨(h.writable_iff hc).1 ((refutable_iff (hkeys c hc)).1 (hall c hc)).1, ?_⟩
    rintro ⟨x, hx⟩
    obtain ⟨c, hc, hholds⟩ := exists_mem_choices_iff.2 hx
    exact ((refutable_iff (hkeys c hc)).1 (hall c hc)).2 ⟨x, hholds⟩
  · rintro ⟨hwrite, hnone⟩ c hc
    refine (refutable_iff (hkeys c hc)).2 ⟨(h.writable_iff hc).2 hwrite, ?_⟩
    rintro ⟨x, hx⟩
    exact hnone ⟨x, exists_mem_choices_iff.1 ⟨c, hc, hx⟩⟩

theorem Regular.result_of_not_writable (h : Regular lists) (hopen : IsOpen s)
    (hlists : (disjunctions splitExtrema s).result = .ok lists)
    (hwrite : ¬ Inequality.Writable Term.text lists.flatten) :
    (logLinearOf verbose splitExtrema s).result = .error .unencodable := by
  rw [result_logLinearOf hopen hlists]
  obtain ⟨c, cs, hcs⟩ := List.exists_cons_of_ne_nil (choices_ne_nil h.nonempty)
  have hc : c ∈ choices lists := by
    rw [hcs]
    exact List.mem_cons_self
  have hfail : feasibility Term.text c = .fail .unencodable :=
    feasibility_of_not_writable fun hw => hwrite ((h.writable_iff hc).1 hw)
  rw [hcs]
  refine Outcome.result_bind_of_error ?_ _
  rw [decideChoices, hfail]
  rfl

end Tactic
end Majorant
