import Majorant.Tactic.Linear
import Majorant.Proofs.Linear.Feasibility
import Majorant.Proofs.Real.Truth

/-!
# Linear arithmetic

The inequality that is made from a comparison says the same as the comparison, so what is refuted has no
solution in the real numbers; and if there is no rational solution, it is refuted.
-/

namespace Majorant

namespace Kind

/-- The bound that linear arithmetic puts on a variable of a kind: a positive integer is at least
one. -/
def Bounds : Kind → ℝ → Prop
  | posInt, x => 1 ≤ x
  | posReal, x | posRat, x => 0 < x
  | nonnegInt, x | nonnegReal, x | nonnegRat, x => 0 ≤ x
  | _, _ => True

theorem Admits.bounds {k : Kind} {x : ℝ} (h : k.Admits x) : k.Bounds x := by
  obtain ⟨hrange, hsign⟩ := h
  cases k with
  | posInt =>
    obtain ⟨n, rfl⟩ := hrange
    have hpos : (0 : ℝ) < n := hsign
    have hone : (1 : ℝ) ≤ n := by exact_mod_cast hpos
    exact hone
  | _ => first | exact hsign | exact trivial

end Kind

namespace Term

variable {ρ : Valuation}

theorem nodup_coefficients (t : Term) : (keys t.coefficients).Nodup := by
  unfold coefficients
  split
  · exact List.nodup_singleton zero
  · exact nodup_foldl_gatherSummand (show (keys []).Nodup from List.nodup_nil) _

/-- **A term has the value of its linear combination.** -/
theorem combination_coefficients (t : Term) : combination ρ t.coefficients = t.val ρ := by
  unfold coefficients
  split
  · next ht =>
    subst ht
    simp [combination]
  · rw [combination_foldl_gatherSummand (show (keys []).Nodup from List.nodup_nil),
      sum_map_val_summands]
    simp [combination]

theorem combination_filter_one {cs : List (Term × Rat)} (h : (keys cs).Nodup) :
    combination ρ cs = combination ρ (cs.filter fun p => p.1 ≠ one) +
      (((cs.find? fun p => p.1 == one).map (·.2)).getD 0 : Rat) := by
  unfold combination
  induction cs with
  | nil => simp
  | cons p cs ih =>
    have hnodup : p.1 ∉ keys cs ∧ (keys cs).Nodup := List.nodup_cons.1 h
    by_cases hp : p.1 = one
    · -- the key stands once, so nothing else is taken away
      have hrest : cs.filter (fun q => q.1 ≠ one) = cs := by
        rw [List.filter_eq_self]
        intro q hq
        have hne : q.1 ≠ one := fun hq1 => hnodup.1 (List.mem_map.2 ⟨q, hq, hq1.trans hp.symm⟩)
        simpa using hne
      rw [List.filter_cons_of_neg (by simp [hp]), hrest, List.find?_cons_of_pos (by simp [hp])]
      simp [hp, add_comm]
    · rw [List.filter_cons_of_pos (by simp [hp]), List.find?_cons_of_neg (by simp [hp]),
        List.map_cons, List.sum_cons, List.map_cons, List.sum_cons, ih hnodup.2, add_assoc]

end Term

namespace Tactic
open Term Proof Linear

variable {ρ : Valuation}

theorem compares_neg_right (s : Sense) (x c : ℝ) : s.Compares x (-c) ↔ s.Compares (x + c) 0 := by
  cases s <;> simp only [Sense.Compares] <;> constructor <;> intro h <;> linarith

theorem differenceInequality?_eq_some {s : Sense} {d : Term} {i : Inequality Term} :
    differenceInequality? s d = some i ↔
      (∀ p ∈ d.coefficients, p.1.is .real = true) ∧
      i = ⟨d.coefficients.filter (fun p => p.1 ≠ one), s,
        -((d.coefficients.find? fun p => p.1 == one).map (·.2)).getD 0⟩ := by
  unfold differenceInequality?
  dsimp only
  rw [Option.ite_none_right_eq_some, List.all_eq_true, Option.some_inj, eq_comm (b := i)]

theorem nodup_of_differenceInequality {s : Sense} {d : Term} {i : Inequality Term}
    (h : differenceInequality? s d = some i) : i.unknowns.Nodup := by
  obtain ⟨-, rfl⟩ := differenceInequality?_eq_some.1 h
  exact (nodup_coefficients d).sublist (List.filter_sublist.map _)

theorem holdsIn_of_differenceInequality {s : Sense} {d : Term} {i : Inequality Term}
    (h : differenceInequality? s d = some i) : i.HoldsIn (val ρ) ↔ s.Compares (d.val ρ) 0 := by
  obtain ⟨-, rfl⟩ := differenceInequality?_eq_some.1 h
  unfold Inequality.HoldsIn Inequality.valueIn
  rw [Rat.cast_neg, compares_neg_right, ← combination_coefficients d,
    combination_filter_one (nodup_coefficients d)]
  rfl

theorem linearInequality_rel {a b : Term} (ha : a.Denotes ρ) (hb : b.Denotes ρ) (r : Rel) :
    ∃ d, d.Denotes ρ ∧ d.val ρ = a.val ρ - b.val ρ ∧ linearInequality? (app (.rel r) [a, b]) =
      pure ((Magnitude.senseOf? r).bind fun s => differenceInequality? s d) := by
  obtain ⟨d, hd, hden, hval⟩ := Operation.sub_of_denotes ha hb
  refine ⟨d, hden, hval, ?_⟩
  simp only [linearInequality?]
  rw [hd, pure_bind, evades_of_denotes d hden]
  rfl

theorem holdsIn_iff_of_rel {a b : Term} {r : Rel} {i : Inequality Term} (ha : a.Denotes ρ)
    (hb : b.Denotes ρ) (hi : (linearInequality? (app (.rel r) [a, b])).result = .ok (some i)) :
    i.HoldsIn (val ρ) ↔ (app (.rel r) [a, b]).HoldsAt ρ := by
  obtain ⟨d, -, hval, heq⟩ := linearInequality_rel ha hb r
  rw [heq, Outcome.result_pure, Except.ok.injEq] at hi
  obtain ⟨s, hs, hd⟩ := Option.bind_eq_some_iff.1 hi
  rw [holdsIn_of_differenceInequality hd, Rel.compares_of_senseOf hs, hval, Rel.compares_sub, holdsAt_rel]
  simp [ha, hb]

theorem declaredInequality_var (v : Variable) :
    declaredInequality? (var v) = match v.kind with
      | .posInt => some ⟨[(var v, 1)], .geq, 1⟩
      | .posReal | .posRat => some ⟨[(var v, 1)], .gt, 0⟩
      | .nonnegInt | .nonnegReal | .nonnegRat => some ⟨[(var v, 1)], .geq, 0⟩
      | _ => none := by
  have his : ∀ p, (var v).is p = (Knowledge.ofKind v.kind).is p := fun p => by
    simp [Term.is, facts, factor]
  unfold declaredInequality?
  rw [his, his, his]
  cases v.kind <;> rfl

theorem linearInequality_declared (v : Variable) (x : Term → ℝ) :
    (∀ i, (linearInequality? (declare v)).result = .ok (some i) → i.HoldsIn x) ↔
      v.kind.Bounds (x (var v)) := by
  have hresult : (linearInequality? (declare v)).result = .ok (declaredInequality? (var v)) := by
    simp [linearInequality?, declare]
  rw [hresult, declaredInequality_var]
  cases v.kind <;>
    simp [Kind.Bounds, Inequality.HoldsIn, Inequality.valueIn, Sense.Compares]

/-- **A hypothesis that holds satisfies its inequality.** -/
theorem holdsIn_of_linearInequality {h : Term} {i : Inequality Term} (hh : h.HoldsAt ρ)
    (hi : (linearInequality? h).result = .ok (some i)) : i.HoldsIn (val ρ) := by
  unfold HoldsAt at hh
  split at hh
  · simp [linearInequality?] at hi
  · next r a b => exact (holdsIn_iff_of_rel hh.1 hh.2.1 hi).2 (holdsAt_rel.2 hh)
  · next v =>
    have hbounds : v.kind.Bounds ((var v).val ρ) := by
      rw [val_var]
      exact hh.bounds
    exact (linearInequality_declared v (val ρ)).2 hbounds i hi
  · exact hh.elim

theorem unknowns_of_declaredInequality {v : Term} {i : Inequality Term}
    (hi : declaredInequality? v = some i) : i.unknowns = [v] := by
  unfold declaredInequality? at hi
  split_ifs at hi <;> cases hi <;> rfl

theorem nodup_of_linearInequality {h : Term} {i : Inequality Term}
    (hi : (linearInequality? h).result = .ok (some i)) : i.unknowns.Nodup := by
  unfold linearInequality? at hi
  split at hi
  · next v =>
    rw [Outcome.result_pure, Except.ok.injEq] at hi
    rw [unknowns_of_declaredInequality hi]
    exact List.nodup_singleton v
  · obtain ⟨d, -, hd⟩ := Outcome.result_bind_eq_ok.1 hi
    obtain ⟨u, -, hu⟩ := Outcome.result_bind_eq_ok.1 hd
    rw [Outcome.result_pure, Except.ok.injEq] at hu
    obtain ⟨s, -, hs⟩ := Option.bind_eq_some_iff.1 hu
    exact nodup_of_differenceInequality hs
  · cases hi

theorem mem_of_linearInequalities {hs : List Term} {is : List (Inequality Term)}
    (h : (linearInequalities hs).result = .ok is) {i : Inequality Term} :
    i ∈ is ↔ ∃ t ∈ hs, (linearInequality? t).result = .ok (some i) := by
  obtain ⟨os, hos, his⟩ := Outcome.result_bind_eq_ok.1 h
  cases his
  rw [Outcome.result_mapM_eq_ok] at hos
  rw [List.mem_filterMap]
  simp only [id_eq, exists_eq_right]
  clear h
  induction hos with
  | nil => simp
  | cons ht _ ih =>
    rw [List.mem_cons, ih, List.exists_mem_cons_iff, ht, Except.ok.injEq, eq_comm]

def Refuted (hs : List Term) : Prop :=
  bot ∈ hs ∨ ∃ is ms, (linearInequalities hs).result = .ok is ∧
    (feasibility Term.text is).result = .ok (.multipliers ms)

/-- **What is refuted is impossible**: no valuation satisfies all inequalities of a scenario. -/
theorem Refuted.not_holdsIn {hs : List Term} (h : Refuted hs) (hbot : bot ∉ hs) (ρ : Valuation) :
    ¬ ∀ t ∈ hs, ∀ i, (linearInequality? t).result = .ok (some i) → i.HoldsIn (val ρ) := by
  intro hall
  rcases h with h | ⟨is, ms, his, hms⟩
  · exact hbot h
  · have hkeys : ∀ i ∈ is, i.unknowns.Nodup := by
      intro i hi
      obtain ⟨t, -, ht⟩ := (mem_of_linearInequalities his).1 hi
      exact nodup_of_linearInequality ht
    refine (refutes_of_feasibility hkeys hms).not_holdsIn hkeys (val ρ) fun i hi => ?_
    obtain ⟨t, ht, hti⟩ := (mem_of_linearInequalities his).1 hi
    exact hall t ht i hti

theorem decideScenarios_iff {ss : List (List Term)} :
    (∃ ds, (decideScenarios ss).result = .ok ds ∧ ds.find? (·.certificate.isPoint) = none) ↔
      ∀ hs ∈ ss, Refuted hs := by
  induction ss with
  | nil => simp [decideScenarios]
  | cons hs ss ih =>
    unfold decideScenarios
    rw [List.forall_mem_cons, ← ih]
    by_cases hbot : bot ∈ hs
    · rw [if_pos (by simpa using hbot)]
      exact (and_iff_right (Or.inl hbot)).symm
    · rw [if_neg (by simpa using hbot)]
      constructor
      · rintro ⟨ds, hds, hnone⟩
        obtain ⟨is, his, hds⟩ := Outcome.result_bind_eq_ok.1 hds
        obtain ⟨c, hc, hds⟩ := Outcome.result_bind_eq_ok.1 hds
        cases c with
        | point values =>
          cases hds
          simp [Certificate.isPoint] at hnone
        | multipliers ms =>
          obtain ⟨ds', hds', h⟩ := Outcome.result_bind_eq_ok.1 hds
          cases h
          rw [List.find?_cons_of_neg (by simp [Certificate.isPoint])] at hnone
          exact ⟨.inr ⟨is, ms, his, hc⟩, ds', hds', hnone⟩
      · rintro ⟨hrefuted, ds, hds, hnone⟩
        obtain ⟨is, ms, his, hms⟩ := hrefuted.resolve_left hbot
        refine ⟨⟨is, .multipliers ms⟩ :: ds, ?_, ?_⟩
        · rw [Outcome.result_bind_of_ok his, Outcome.result_bind_of_ok hms]
          exact Outcome.result_bind_eq_ok.2 ⟨ds, hds, rfl⟩
        · rw [List.find?_cons_of_neg (by simp [Certificate.isPoint]), hnone]

theorem result_reportLinear (d : Decided) : (reportLinear d).result = .ok () := by
  obtain ⟨is, c⟩ := d
  cases c with
  | point values =>
    exact Outcome.result_forM_of_ok fun p _ => rfl
  | multipliers ms =>
    refine Outcome.result_forM_of_ok fun p _ => ?_
    dsimp only
    split <;> rfl

theorem result_linearOf_of_none {verbose : Bool} {s : State} {ss : List (List Term)}
    {ds : List Decided} (hss : (linearScenarios s).result = .ok ss)
    (hds : (decideScenarios ss).result = .ok ds)
    (hnone : ds.find? (·.certificate.isPoint) = none) : (linearOf verbose s).result = .ok [] := by
  unfold linearOf
  rw [Outcome.result_bind_of_ok hss, Outcome.result_bind_of_ok hds, hnone]
  cases verbose with
  | false => rfl
  | true =>
    refine Outcome.result_bind_eq_ok.2
      ⟨(), Outcome.result_forM_of_ok fun d _ => result_reportLinear d, ?_⟩
    split <;> rfl

theorem result_linearOf_of_some {verbose : Bool} {s : State} {ss : List (List Term)}
    {ds : List Decided} {d : Decided} (hss : (linearScenarios s).result = .ok ss)
    (hds : (decideScenarios ss).result = .ok ds)
    (hsome : ds.find? (·.certificate.isPoint) = some d) :
    (linearOf verbose s).result = .ok [s] := by
  unfold linearOf
  rw [Outcome.result_bind_of_ok hss, Outcome.result_bind_of_ok hds, hsome]
  cases verbose with
  | false => rfl
  | true => exact Outcome.result_bind_eq_ok.2 ⟨(), result_reportLinear d, rfl⟩

/-- **The goal is proved exactly when every scenario is refuted.** -/
theorem linearOf_eq_nil_iff {verbose : Bool} {s : State} :
    (linearOf verbose s).result = .ok [] ↔
      ∃ ss, (linearScenarios s).result = .ok ss ∧ ∀ hs ∈ ss, Refuted hs := by
  constructor
  · intro h
    obtain ⟨ss, hss, hrest⟩ := Outcome.result_bind_eq_ok.1 h
    obtain ⟨ds, hds, -⟩ := Outcome.result_bind_eq_ok.1 hrest
    refine ⟨ss, hss, decideScenarios_iff.1 ⟨ds, hds, ?_⟩⟩
    cases hfind : ds.find? (·.certificate.isPoint) with
    | none => rfl
    | some d =>
      rw [result_linearOf_of_some hss hds hfind] at h
      cases h
  · rintro ⟨ss, hss, hrefuted⟩
    obtain ⟨ds, hds, hnone⟩ := decideScenarios_iff.2 hrefuted
    exact result_linearOf_of_none hss hds hnone

def linearHypotheses (s : State) : List Term :=
  (s.context.hypotheses.filter isLinearHypothesis).eraseDups

theorem mem_linearHypotheses {s : State} {h : Term} :
    h ∈ linearHypotheses s ↔ h ∈ s.context.hypotheses ∧ isLinearHypothesis h = true := by
  rw [linearHypotheses, List.mem_eraseDups, List.mem_filter]

theorem mem_insertTerm {ts : List Term} {t u : Term} : u ∈ insertTerm ts t ↔ u ∈ ts ∨ u = t := by
  unfold insertTerm
  split
  · next h =>
    have ht : t ∈ ts := by simpa using h
    exact ⟨.inl, fun hu => hu.elim id fun hu => hu ▸ ht⟩
  · rw [List.mem_append, List.mem_singleton]

theorem linearScenarios_eq {s : State} {a b : Term} (hgoal : s.goal = app (.rel .eq) [a, b]) :
    linearScenarios s = do
      let below ← Statement.relate .lt a b
      let above ← Statement.relate .lt b a
      return [insertTerm (linearHypotheses s) below, insertTerm (linearHypotheses s) above] := by
  unfold linearScenarios
  rw [hgoal]
  rfl

theorem linearScenarios_rel {s : State} {r : Rel} {as : List Term} (hr : r ≠ .eq ∨ as.length ≠ 2)
    (hgoal : s.goal = app (.rel r) as) :
    linearScenarios s = pure [insertTerm (linearHypotheses s) (app (.rel r.negate) as)] := by
  unfold linearScenarios
  rw [hgoal]
  split
  · next a b heq =>
    cases heq
    simp at hr
  · rfl
  · next hne => exact absurd rfl (hne r as)

theorem Refuted.not_holdsAt {hs : List Term} (h : Refuted hs) (ρ : Valuation) :
    ¬ ∀ t ∈ hs, t.HoldsAt ρ := by
  intro hall
  by_cases hbot : bot ∈ hs
  · exact not_holdsAt_bot (hall bot hbot)
  · exact h.not_holdsIn hbot ρ fun t ht i hi => holdsIn_of_linearInequality (hall t ht) hi

theorem Refuted.not_holdsAt_insert {hs : List Term} {t : Term} (h : Refuted (insertTerm hs t))
    (hhyps : ∀ u ∈ hs, u.HoldsAt ρ) : ¬ t.HoldsAt ρ := by
  intro ht
  refine h.not_holdsAt ρ fun u hu => ?_
  rcases mem_insertTerm.1 hu with hu | rfl
  · exact hhyps u hu
  · exact ht

/-- A strict comparison that is decided on the spot is not denied where it holds. -/
def LessRight (ρ : Valuation) (a b : Term) : Prop :=
  ∀ t, (Statement.relate .lt a b).result = .ok t → a.val ρ < b.val ρ → t.HoldsAt ρ

variable {verbose : Bool} {s : State}

theorem holdsAt_of_linearOf_eq {a b : Term} (hgoal : s.goal = app (.rel .eq) [a, b])
    (h : (linearOf verbose s).result = .ok []) (hhyps : ∀ t ∈ linearHypotheses s, t.HoldsAt ρ)
    (ha : a.Denotes ρ) (hb : b.Denotes ρ) (hbelow : LessRight ρ a b) (habove : LessRight ρ b a) :
    s.goal.HoldsAt ρ := by
  obtain ⟨ss, hss, hrefuted⟩ := linearOf_eq_nil_iff.1 h
  rw [linearScenarios_eq hgoal] at hss
  obtain ⟨below, hlt, hss⟩ := Outcome.result_bind_eq_ok.1 hss
  obtain ⟨above, hgt, hss⟩ := Outcome.result_bind_eq_ok.1 hss
  cases hss
  have hnotBelow := (hrefuted _ List.mem_cons_self).not_holdsAt_insert hhyps
  have hnotAbove := (hrefuted _ (List.mem_cons_of_mem _ List.mem_cons_self)).not_holdsAt_insert hhyps
  rw [hgoal, holdsAt_rel]
  refine ⟨ha, hb, ?_⟩
  rcases lt_trichotomy (a.val ρ) (b.val ρ) with hlt' | heq | hgt'
  · exact absurd (hbelow below hlt hlt') hnotBelow
  · exact heq
  · exact absurd (habove above hgt hgt') hnotAbove

theorem holdsAt_of_linearOf_rel {r : Rel} {a b : Term} (hr : r ≠ .eq)
    (hgoal : s.goal = app (.rel r) [a, b]) (h : (linearOf verbose s).result = .ok [])
    (hhyps : ∀ t ∈ linearHypotheses s, t.HoldsAt ρ) (ha : a.Denotes ρ) (hb : b.Denotes ρ) :
    s.goal.HoldsAt ρ := by
  obtain ⟨ss, hss, hrefuted⟩ := linearOf_eq_nil_iff.1 h
  rw [linearScenarios_rel (.inl hr) hgoal] at hss
  cases hss
  by_contra hnot
  rw [hgoal, ← holdsAt_negate ha hb] at hnot
  exact (hrefuted _ List.mem_cons_self).not_holdsAt_insert hhyps hnot

theorem false_of_linearOf (hgoal : ∀ r a b, s.goal ≠ app (.rel r) [a, b])
    (h : (linearOf verbose s).result = .ok []) (hhyps : ∀ t ∈ linearHypotheses s, t.HoldsAt ρ) :
    False := by
  obtain ⟨ss, hss, hrefuted⟩ := linearOf_eq_nil_iff.1 h
  by_cases hrel : ∃ r as, s.goal = app (.rel r) as
  · obtain ⟨r, as, hrel⟩ := hrel
    have hlength : as.length ≠ 2 := by
      intro hlen
      obtain ⟨a, b, rfl⟩ := List.length_eq_two.1 hlen
      exact hgoal r a b hrel
    rw [linearScenarios_rel (.inr hlength) hrel] at hss
    cases hss
    -- a comparison of anything but two terms adds no inequality
    have hnone : linearInequality? (app (.rel r.negate) as) = pure none := by
      unfold linearInequality?
      split
      · next heq => cases heq
      · next heq =>
        cases heq
        simp at hlength
      · rfl
    refine (hrefuted _ List.mem_cons_self).not_holdsIn (fun hbot => ?_) ρ fun t ht i hi => ?_
    · rcases mem_insertTerm.1 hbot with hbot | hbot
      · exact not_holdsAt_bot (hhyps _ hbot)
      · cases hbot
    · rcases mem_insertTerm.1 ht with ht | rfl
      · exact holdsIn_of_linearInequality (hhyps t ht) hi
      · rw [hnone] at hi
        cases hi
  · have hscenarios : linearScenarios s = pure [linearHypotheses s] := by
      unfold linearScenarios
      split
      · next a b heq => exact absurd ⟨_, _, heq⟩ hrel
      · next r as heq => exact absurd ⟨_, _, heq⟩ hrel
      · rfl
    rw [hscenarios] at hss
    cases hss
    exact (hrefuted _ List.mem_cons_self).not_holdsAt ρ hhyps

end Tactic
end Majorant
