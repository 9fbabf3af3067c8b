import Majorant.Proofs.Linear.Rows

/-!
# The elimination decides

Every new row is a combination of the rows at the start, so a row that cannot hold refutes them,
and a point of the rows that are left extends to one of all rows.
-/

namespace Majorant
namespace Linear

theorem mem_of_cheapest {rows : List Row} {vars : List Nat} {i : Nat}
    (h : cheapest rows vars = some i) : i ∈ vars := by
  cases vars with
  | nil => simp [cheapest] at h
  | cons j js =>
    have hfold : ∀ (ks : List Nat) (best : Nat),
        ks.foldl (fun best j => if cost rows j < cost rows best then j else best) best ∈
          best :: ks := by
      intro ks
      induction ks with
      | nil => simp
      | cons k ks ih =>
        intro best
        simp only [List.foldl_cons]
        split
        · exact List.mem_cons_of_mem _ (ih k)
        · rcases List.mem_cons.1 (ih best) with h | h
          · rw [h]
            simp
          · simp [h]
    simp only [cheapest, Option.some.injEq] at h
    exact h ▸ hfold js j

/-- Only variables of the list occur in the row. -/
def Row.Within (vars : List Nat) (r : Row) : Prop := ∀ i, r.entry i ≠ 0 → i ∈ vars

namespace Row

variable {r s : Row} {vars : List Nat} {i : Nat}

theorem Within.add (hr : r.Within vars) (hs : s.Within vars) : (r.add s).Within vars := by
  intro j hj
  by_cases h : r.entry j = 0
  · apply hs j
    intro h'
    simp [h, h'] at hj
  · exact hr j h

theorem Within.scale (c : Rat) (hr : r.Within vars) : (r.scale c).Within vars := by
  intro j hj
  apply hr j
  intro h
  simp [h] at hj

theorem Within.normalize (hr : r.Within vars) : r.normalize.Within vars := by
  rcases normalize_eq_scale r with h | ⟨k, _, h⟩
  · rwa [h]
  · rw [h]
    exact hr.scale k

theorem Within.erase (hr : r.Within vars) (hi : r.entry i = 0) : r.Within (vars.erase i) := by
  intro j hj
  have hne : j ≠ i := by
    rintro rfl
    exact hj hi
  exact (List.mem_erase_of_ne hne).2 (hr j hj)

end Row

section Substitution

variable {pivot r : Row} {i : Nat}

theorem entry_substituteRow (hp : pivot.entry i ≠ 0) : (substituteRow pivot i r).entry i = 0 := by
  unfold substituteRow
  split
  · assumption
  · change ((pivot.scale (-(r.entry i) / pivot.entry i)).add r).entry i = 0
    rw [Row.entry_add, Row.entry_scale]
    field_simp
    ring

theorem strength_add_of_equal {s : Row} (h : r.strength = .equal) :
    (r.add s).strength = s.strength := by
  unfold Row.add
  rw [h]

theorem substituteRow_eq (he : pivot.strength = .equal) (hr : r.entry i ≠ 0) :
    substituteRow pivot i r = (pivot.scale (-(r.entry i) / pivot.entry i)).add r := by
  have hstrength := strength_add_of_equal (r := pivot.scale (-(r.entry i) / pivot.entry i))
    (s := r) he
  unfold substituteRow
  rw [if_neg hr, ← hstrength]

theorem within_substituteRow {vars : List Nat} (hpivot : pivot.Within vars) (hr : r.Within vars)
    (he : pivot.strength = .equal) : (substituteRow pivot i r).Within vars := by
  by_cases h : r.entry i = 0
  · unfold substituteRow
    rwa [if_pos h]
  · rw [substituteRow_eq he h]
    exact (hpivot.scale _).add hr

theorem derived_substituteRow {rows : List Row} (hpivot : pivot.Derived rows)
    (hr : r.Derived rows) (he : pivot.strength = .equal) :
    (substituteRow pivot i r).Derived rows := by
  by_cases h : r.entry i = 0
  · unfold substituteRow
    rwa [if_pos h]
  · rw [substituteRow_eq he h]
    exact (hpivot.scale_equal _ he).add hr

theorem holds_pivot {y : List Rat} (hi : i < y.length) (he : pivot.strength = .equal)
    (hp : pivot.entry i ≠ 0) : pivot.Holds (y.set i (boundAt y i pivot)) := by
  unfold Row.Holds Strength.Holds
  rw [he, dot_set hi]
  unfold boundAt
  change dot pivot.coeffs (y.set i 0) + pivot.entry i * _ = pivot.bound
  rw [mul_div_cancel₀ _ hp]
  ring

theorem Strength.holds_add_left (s : Strength) (c p q : Rat) :
    s.Holds (c + p) (c + q) ↔ s.Holds p q := by
  unfold Strength.Holds
  cases s with
  | equal => exact add_right_inj c
  | weak => exact add_le_add_iff_left c
  | strict => exact add_lt_add_iff_left c

theorem holds_of_substituteRow {y : List Rat} {v : Rat} (he : pivot.strength = .equal)
    (hp : pivot.entry i ≠ 0) (hpivot : pivot.Holds (y.set i v))
    (h : (substituteRow pivot i r).Holds y) : r.Holds (y.set i v) := by
  have hzero := entry_substituteRow (r := r) hp
  have hmoved : (substituteRow pivot i r).Holds (y.set i v) := by
    unfold Row.Holds
    rwa [dot_set_of_getD_eq_zero hzero]
  by_cases hr : r.entry i = 0
  · unfold substituteRow at hmoved
    rwa [if_pos hr] at hmoved
  · rw [substituteRow_eq he hr] at hmoved
    have hdot : dot pivot.coeffs (y.set i v) = pivot.bound := by
      unfold Row.Holds Strength.Holds at hpivot
      rwa [he] at hpivot
    have hstrength := strength_add_of_equal (r := pivot.scale (-(r.entry i) / pivot.entry i))
      (s := r) he
    unfold Row.Holds at hmoved ⊢
    rw [hstrength] at hmoved
    simp only [Row.add, Row.scale, dot_addCoeffs, dot_scaleCoeffs, hdot] at hmoved
    exact (Strength.holds_add_left _ _ _ _).1 hmoved

end Substitution

section Bounds

variable {lower upper r : Row} {i : Nat} {y : List Rat}

theorem entry_cross (hl : lower.entry i < 0) (hu : 0 < upper.entry i) :
    (cross i lower upper).entry i = 0 := by
  have hl' : lower.entry i ≠ 0 := hl.ne
  have hu' : upper.entry i ≠ 0 := hu.ne'
  unfold cross
  rw [Row.entry_add, Row.entry_scale, Row.entry_scale]
  field_simp
  ring

theorem within_cross {vars : List Nat} (hl : lower.Within vars) (hu : upper.Within vars) :
    (cross i lower upper).Within vars :=
  (hl.scale _).add (hu.scale _)

theorem derived_cross {rows : List Row} (hl : lower.Derived rows) (hu : upper.Derived rows)
    (hlower : lower.entry i < 0) (hupper : 0 < upper.entry i) :
    (cross i lower upper).Derived rows := by
  have hlpos : 0 < 1 / -(lower.entry i) := by
    have : 0 < -(lower.entry i) := by linarith
    positivity
  have hupos : 0 < 1 / upper.entry i := by positivity
  exact (hl.scale hlpos).add (hu.scale hupos)

theorem dot_set_eq (hi : i < y.length) (hr : r.entry i ≠ 0) (v : Rat) :
    dot r.coeffs (y.set i v) = r.bound + r.entry i * (v - boundAt y i r) := by
  rw [dot_set hi]
  unfold boundAt
  change dot r.coeffs (y.set i 0) + r.entry i * v = _
  field_simp
  ring

theorem holds_lower (hi : i < y.length) (hr : r.entry i < 0) (he : r.strength ≠ .equal) {v : Rat}
    (hle : boundAt y i r ≤ v) (hlt : r.strength = .strict → boundAt y i r < v) :
    r.Holds (y.set i v) := by
  unfold Row.Holds Strength.Holds
  rw [dot_set_eq hi hr.ne]
  cases hs : r.strength with
  | equal => exact absurd hs he
  | weak =>
    have := mul_nonpos_of_nonpos_of_nonneg hr.le (sub_nonneg.2 hle)
    simpa using this
  | strict =>
    have := mul_neg_of_neg_of_pos hr (sub_pos.2 (hlt hs))
    simpa using this

theorem holds_upper (hi : i < y.length) (hr : 0 < r.entry i) (he : r.strength ≠ .equal) {v : Rat}
    (hle : v ≤ boundAt y i r) (hlt : r.strength = .strict → v < boundAt y i r) :
    r.Holds (y.set i v) := by
  unfold Row.Holds Strength.Holds
  rw [dot_set_eq hi hr.ne']
  cases hs : r.strength with
  | equal => exact absurd hs he
  | weak =>
    have := mul_nonpos_of_nonneg_of_nonpos hr.le (sub_nonpos.2 hle)
    simpa using this
  | strict =>
    have := mul_neg_of_pos_of_neg hr (sub_neg.2 (hlt hs))
    simpa using this

theorem dot_cross (hi : i < y.length) (hl : lower.entry i < 0) (hu : 0 < upper.entry i) :
    dot (cross i lower upper).coeffs y =
      (cross i lower upper).bound + (boundAt y i lower - boundAt y i upper) := by
  have hl' : lower.entry i ≠ 0 := hl.ne
  have hu' : upper.entry i ≠ 0 := hu.ne'
  rw [← dot_set_of_getD_eq_zero (entry_cross hl hu) y 0]
  unfold cross
  simp only [Row.add, Row.scale, dot_addCoeffs, dot_scaleCoeffs, dot_set_eq hi hl',
    dot_set_eq hi hu']
  field_simp
  ring

theorem strength_cross (hl : lower.strength ≠ .equal) (hu : upper.strength ≠ .equal) :
    (cross i lower upper).strength =
      if lower.strength = .strict ∨ upper.strength = .strict then .strict else .weak := by
  unfold cross Row.add Row.scale
  cases hls : lower.strength <;> cases hus : upper.strength <;> simp_all

/-- Where the joined row holds, the lower bound is not above the upper one, and it is below if one of
the two is strict. -/
theorem bounds_of_cross (hi : i < y.length) (hl : lower.entry i < 0) (hu : 0 < upper.entry i)
    (hle : lower.strength ≠ .equal) (hue : upper.strength ≠ .equal)
    (h : (cross i lower upper).Holds y) :
    boundAt y i lower ≤ boundAt y i upper ∧
      (lower.strength = .strict ∨ upper.strength = .strict →
        boundAt y i lower < boundAt y i upper) := by
  unfold Row.Holds Strength.Holds at h
  rw [dot_cross hi hl hu, strength_cross hle hue] at h
  by_cases hs : lower.strength = .strict ∨ upper.strength = .strict
  · rw [if_pos hs] at h
    have hlt : boundAt y i lower < boundAt y i upper := by
      simp only at h
      linarith
    exact ⟨hlt.le, fun _ => hlt⟩
  · rw [if_neg hs] at h
    refine ⟨?_, fun h' => absurd h' hs⟩
    simp only at h
    linarith

end Bounds

theorem le_foldl_larger (qs : List Rat) (q : Rat) :
    q ≤ qs.foldl Rational.larger q ∧ (∀ p ∈ qs, p ≤ qs.foldl Rational.larger q) ∧
      (qs.foldl Rational.larger q = q ∨ qs.foldl Rational.larger q ∈ qs) := by
  induction qs generalizing q with
  | nil => simp
  | cons p qs ih =>
    obtain ⟨hle, hall, hmem⟩ := ih (Rational.larger q p)
    have hq : q ≤ Rational.larger q p := by
      unfold Rational.larger
      split <;> [assumption; exact le_rfl]
    have hp : p ≤ Rational.larger q p := by
      unfold Rational.larger
      split <;> [exact le_rfl; linarith]
    have hcase : Rational.larger q p = q ∨ Rational.larger q p = p := by
      unfold Rational.larger
      split <;> simp
    simp only [List.foldl_cons, List.mem_cons, forall_eq_or_imp]
    refine ⟨hq.trans hle, ⟨hp.trans hle, hall⟩, ?_⟩
    rcases hmem with h | h
    · rcases hcase with h' | h'
      · exact .inl (h.trans h')
      · exact .inr (.inl (h.trans h'))
    · exact .inr (.inr h)

theorem foldl_smaller_le (qs : List Rat) (q : Rat) :
    qs.foldl Rational.smaller q ≤ q ∧ (∀ p ∈ qs, qs.foldl Rational.smaller q ≤ p) ∧
      (qs.foldl Rational.smaller q = q ∨ qs.foldl Rational.smaller q ∈ qs) := by
  induction qs generalizing q with
  | nil => simp
  | cons p qs ih =>
    obtain ⟨hle, hall, hmem⟩ := ih (Rational.smaller q p)
    have hq : Rational.smaller q p ≤ q := by
      unfold Rational.smaller
      split <;> [exact le_rfl; linarith]
    have hp : Rational.smaller q p ≤ p := by
      unfold Rational.smaller
      split <;> [assumption; exact le_rfl]
    have hcase : Rational.smaller q p = q ∨ Rational.smaller q p = p := by
      unfold Rational.smaller
      split <;> simp
    simp only [List.foldl_cons, List.mem_cons, forall_eq_or_imp]
    refine ⟨hle.trans hq, ⟨hle.trans hp, hall⟩, ?_⟩
    rcases hmem with h | h
    · rcases hcase with h' | h'
      · exact .inl (h.trans h')
      · exact .inr (.inl (h.trans h'))
    · exact .inr (.inr h)

theorem greatest?_spec {qs : List Rat} {g : Rat} (h : greatest? qs = some g) :
    g ∈ qs ∧ ∀ q ∈ qs, q ≤ g := by
  cases qs with
  | nil => simp [greatest?] at h
  | cons q qs =>
    obtain ⟨hle, hall, hmem⟩ := le_foldl_larger qs q
    simp only [greatest?, Option.some.injEq] at h
    subst h
    refine ⟨?_, by simpa using ⟨hle, hall⟩⟩
    rcases hmem with h | h
    · rw [h]
      simp
    · simp [h]

theorem least?_spec {qs : List Rat} {l : Rat} (h : least? qs = some l) :
    l ∈ qs ∧ ∀ q ∈ qs, l ≤ q := by
  cases qs with
  | nil => simp [least?] at h
  | cons q qs =>
    obtain ⟨hle, hall, hmem⟩ := foldl_smaller_le qs q
    simp only [least?, Option.some.injEq] at h
    subst h
    refine ⟨?_, by simpa using ⟨hle, hall⟩⟩
    rcases hmem with h | h
    · rw [h]
      simp
    · simp [h]

theorem greatest?_eq_none {qs : List Rat} (h : greatest? qs = none) : qs = [] := by
  cases qs with
  | nil => rfl
  | cons q qs => simp [greatest?] at h

theorem least?_eq_none {qs : List Rat} (h : least? qs = none) : qs = [] := by
  cases qs with
  | nil => rfl
  | cons q qs => simp [least?] at h

theorem le_between {lowers uppers : List Rat} (hall : ∀ l ∈ lowers, ∀ u ∈ uppers, l ≤ u)
    {l : Rat} (hl : l ∈ lowers) :
    l ≤ between lowers uppers ∧ ((∀ u ∈ uppers, l < u) → l < between lowers uppers) := by
  unfold between
  cases hg : greatest? lowers with
  | none =>
    rw [greatest?_eq_none hg] at hl
    simp at hl
  | some g =>
    obtain ⟨hgmem, hgmax⟩ := greatest?_spec hg
    have hlg := hgmax l hl
    cases hu : least? uppers with
    | none =>
      refine ⟨by simp only; linarith, fun _ => by simp only; linarith⟩
    | some u =>
      obtain ⟨humem, -⟩ := least?_spec hu
      have hgu := hall g hgmem u humem
      refine ⟨by simp only; linarith, fun h => ?_⟩
      have hlu := h u humem
      simp only
      linarith

theorem between_le {lowers uppers : List Rat} (hall : ∀ l ∈ lowers, ∀ u ∈ uppers, l ≤ u)
    {u : Rat} (hu : u ∈ uppers) :
    between lowers uppers ≤ u ∧ ((∀ l ∈ lowers, l < u) → between lowers uppers < u) := by
  unfold between
  cases hm : least? uppers with
  | none =>
    rw [least?_eq_none hm] at hu
    simp at hu
  | some m =>
    obtain ⟨hmmem, hmmin⟩ := least?_spec hm
    have hmu := hmmin u hu
    cases hg : greatest? lowers with
    | none =>
      refine ⟨by simp only; linarith, fun _ => by simp only; linarith⟩
    | some g =>
      obtain ⟨hgmem, -⟩ := greatest?_spec hg
      have hgm := hall g hgmem m hmmem
      refine ⟨by simp only; linarith, fun h => ?_⟩
      have hgu := h g hgmem
      simp only
      linarith

theorem derived_prune {start rows : List Row} (h : ∀ r ∈ rows, r.Derived start) :
    ∀ r ∈ prune rows, r.Derived start := by
  intro r hr
  obtain ⟨s, hs, rfl⟩ := exists_of_mem_prune hr
  exact (h s hs).normalize

theorem within_prune {vars : List Nat} {rows : List Row} (h : ∀ r ∈ rows, r.Within vars) :
    ∀ r ∈ prune rows, r.Within vars := by
  intro r hr
  obtain ⟨s, hs, rfl⟩ := exists_of_mem_prune hr
  exact (h s hs).normalize

theorem of_find?_pivot {rows : List Row} {i : Nat} {pivot : Row}
    (h : rows.find? (fun r => r.strength == .equal && decide (r.entry i ≠ 0)) = some pivot) :
    pivot ∈ rows ∧ pivot.strength = .equal ∧ pivot.entry i ≠ 0 := by
  have hprop := List.find?_some h
  simp only [Bool.and_eq_true, beq_iff_eq, decide_eq_true_eq] at hprop
  exact ⟨List.mem_of_find?_eq_some h, hprop⟩

theorem strength_ne_equal_of_find? {rows : List Row} {i : Nat} {r : Row}
    (h : rows.find? (fun r => r.strength == .equal && decide (r.entry i ≠ 0)) = none)
    (hr : r ∈ rows) (hi : r.entry i ≠ 0) : r.strength ≠ .equal := by
  intro he
  have := List.find?_eq_none.1 h r hr
  simp [he, hi] at this

/-- The rows that are left when a lower and an upper bound of a variable are joined in all ways. -/
theorem mem_rest_append_crossed {rows : List Row} {i : Nat} {r : Row}
    (h : r ∈ rows.filter (fun r => decide (r.entry i = 0)) ++
      (rows.filter (fun r => decide (r.entry i < 0))).flatMap fun l =>
        (rows.filter (fun r => decide (0 < r.entry i))).map (cross i l)) :
    (r ∈ rows ∧ r.entry i = 0) ∨
      ∃ l ∈ rows, ∃ u ∈ rows, l.entry i < 0 ∧ 0 < u.entry i ∧ r = cross i l u := by
  rcases List.mem_append.1 h with h | h
  · exact .inl (by simpa using h)
  · obtain ⟨l, hl, h⟩ := List.mem_flatMap.1 h
    obtain ⟨u, hu, rfl⟩ := List.mem_map.1 h
    obtain ⟨hl, hlneg⟩ := List.mem_filter.1 hl
    obtain ⟨hu, hupos⟩ := List.mem_filter.1 hu
    exact .inr ⟨l, hl, u, hu, by simpa using hlneg, by simpa using hupos, rfl⟩

/-- **Weights that are returned make a contradiction**: the combination of the rows that they describe
has no variables and does not hold. -/
theorem eliminate_weights {start : List Row} {steps n : Nat} {vars : List Nat} {rows : List Row}
    {ws : List Rat} (hrows : ∀ r ∈ rows, r.Derived start)
    (h : eliminate steps n vars rows = .weights ws) :
    ∃ r : Row, r.Derived start ∧ r.weights = ws ∧ r.isConstant = true ∧
      r.constantHolds = false := by
  fun_induction eliminate steps n vars rows with
  | case1 steps n vars rows pruned r hr =>
    have hprop := List.find?_some hr
    simp only [Bool.and_eq_true, Bool.not_eq_true'] at hprop
    have hmem := List.mem_of_find?_eq_some hr
    exact ⟨r, derived_prune hrows r hmem, Verdict.weights.inj h, hprop⟩
  | case2 n vars rows pruned _ steps i _ pivot hpivot vs heq ih =>
    obtain ⟨hmem, he, -⟩ := of_find?_pivot hpivot
    refine ih (fun r hr => ?_) (heq.trans h)
    obtain ⟨s, hs, rfl⟩ := List.mem_map.1 hr
    exact derived_substituteRow (derived_prune hrows _ hmem)
      (derived_prune hrows s (List.mem_of_mem_erase hs)) he
  | case3 => simp at h
  | case4 n vars rows pruned _ steps i _ _ lowers uppers rest crossed vs heq ih =>
    refine ih (fun r hr => ?_) (heq.trans h)
    rcases mem_rest_append_crossed hr with ⟨hr, -⟩ | ⟨l, hl, u, hu, hlneg, hupos, rfl⟩
    · exact derived_prune hrows r hr
    · exact derived_cross (derived_prune hrows l hl) (derived_prune hrows u hu) hlneg hupos
  | case5 => simp at h
  | case6 => simp at h

/-- **A point that is returned satisfies the rows.**  The steps have to suffice for the variables. -/
theorem eliminate_point {steps n : Nat} {vars : List Nat} {rows : List Row}
    (hsteps : vars.length ≤ steps) (hvars : ∀ i ∈ vars, i < n)
    (hrows : ∀ r ∈ rows, r.Within vars) (x : List Rat)
    (h : eliminate steps n vars rows = .point x) : x.length = n ∧ ∀ r ∈ rows, r.Holds x := by
  revert x
  fun_induction eliminate steps n vars rows with
  | case1 => simp
  | case2 => simp
  | case3 n vars rows pruned _ steps i hi pivot hpivot y heq ih =>
    intro x h
    obtain ⟨hmem, he, hp⟩ := of_find?_pivot hpivot
    have hivars := mem_of_cheapest hi
    have hlen : (vars.erase i).length ≤ steps := by
      have := List.length_erase_of_mem hivars
      omega
    obtain ⟨hy, hholds⟩ := ih hlen (fun j hj => hvars j (List.mem_of_mem_erase hj))
      (fun r hr => by
        obtain ⟨s, hs, rfl⟩ := List.mem_map.1 hr
        have hs' := List.mem_of_mem_erase hs
        exact (within_substituteRow (within_prune hrows _ hmem) (within_prune hrows s hs')
          he).erase (entry_substituteRow hp)) y heq
    have hiy : i < y.length := hy ▸ hvars i hivars
    have hpholds := holds_pivot hiy he hp
    obtain rfl := Verdict.point.inj h
    refine ⟨by simpa using hy, holds_of_prune fun r hr => ?_⟩
    by_cases hrp : r = pivot
    · exact hrp ▸ hpholds
    · have hr' : r ∈ pruned.erase pivot := (List.mem_erase_of_ne hrp).2 hr
      exact holds_of_substituteRow he hp hpholds (hholds _ (List.mem_map.2 ⟨r, hr', rfl⟩))
  | case4 => simp
  | case5 n vars rows pruned _ steps i hi hnone lowers uppers rest crossed y heq ih =>
    intro x h
    have hivars := mem_of_cheapest hi
    have hlen : (vars.erase i).length ≤ steps := by
      have := List.length_erase_of_mem hivars
      omega
    obtain ⟨hy, hholds⟩ := ih hlen (fun j hj => hvars j (List.mem_of_mem_erase hj))
      (fun r hr => by
        rcases mem_rest_append_crossed hr with ⟨hr, hri⟩ | ⟨l, hl, u, hu, hlneg, hupos, rfl⟩
        · exact (within_prune hrows r hr).erase hri
        · exact (within_cross (within_prune hrows l hl) (within_prune hrows u hu)).erase
            (entry_cross hlneg hupos)) y heq
    have hiy : i < y.length := hy ▸ hvars i hivars
    have hcross : ∀ l ∈ lowers, ∀ u ∈ uppers,
        boundAt y i l ≤ boundAt y i u ∧ (l.strength = .strict ∨ u.strength = .strict →
          boundAt y i l < boundAt y i u) := by
      intro l hl u hu
      obtain ⟨hl', hlneg⟩ := List.mem_filter.1 hl
      obtain ⟨hu', hupos⟩ := List.mem_filter.1 hu
      have hlneg : l.entry i < 0 := by simpa using hlneg
      have hupos : 0 < u.entry i := by simpa using hupos
      exact bounds_of_cross hiy hlneg hupos
        (strength_ne_equal_of_find? hnone hl' hlneg.ne)
        (strength_ne_equal_of_find? hnone hu' hupos.ne')
        (hholds _ (List.mem_append_right _ (List.mem_flatMap.2
          ⟨l, hl, List.mem_map.2 ⟨u, hu, rfl⟩⟩)))
    have hall : ∀ p ∈ lowers.map (boundAt y i), ∀ q ∈ uppers.map (boundAt y i), p ≤ q := by
      intro p hp q hq
      obtain ⟨l, hl, rfl⟩ := List.mem_map.1 hp
      obtain ⟨u, hu, rfl⟩ := List.mem_map.1 hq
      exact (hcross l hl u hu).1
    obtain rfl := Verdict.point.inj h
    refine ⟨by simpa using hy, holds_of_prune fun r hr => ?_⟩
    rcases lt_trichotomy (r.entry i) 0 with hri | hri | hri
    · have hl : r ∈ lowers := List.mem_filter.2 ⟨hr, by simpa using hri⟩
      obtain ⟨hle, hlt⟩ := le_between hall (List.mem_map_of_mem hl)
      refine holds_lower hiy hri (strength_ne_equal_of_find? hnone hr hri.ne) hle fun hs => ?_
      refine hlt fun q hq => ?_
      obtain ⟨u, hu, rfl⟩ := List.mem_map.1 hq
      exact (hcross r hl u hu).2 (.inl hs)
    · have hrest : r ∈ rest := List.mem_filter.2 ⟨hr, by simpa using hri⟩
      have := hholds r (List.mem_append_left _ hrest)
      unfold Row.Holds at this ⊢
      rwa [dot_set_of_getD_eq_zero hri]
    · have hu : r ∈ uppers := List.mem_filter.2 ⟨hr, by simpa using hri⟩
      obtain ⟨hle, hlt⟩ := between_le hall (List.mem_map_of_mem hu)
      refine holds_upper hiy hri (strength_ne_equal_of_find? hnone hr hri.ne') hle fun hs => ?_
      refine hlt fun q hq => ?_
      obtain ⟨l, hl, rfl⟩ := List.mem_map.1 hq
      exact (hcross l hl r hu).2 (.inr hs)
  | case6 steps n vars rows pruned hnone hstop =>
    intro x h
    -- No variable is left, so every remaining row is constant and holds.
    have hvars' : vars = [] := by
      cases vars with
      | nil => rfl
      | cons j js =>
        cases steps with
        | zero => simp at hsteps
        | succ steps => exact (hstop steps _ rfl rfl).elim
    obtain rfl := Verdict.point.inj h
    refine ⟨by simp, holds_of_prune fun r hr => ?_⟩
    have hconst : r.isConstant = true := Row.isConstant_of_entry fun i => by
      by_contra hne
      have := within_prune hrows r hr i hne
      simp [hvars'] at this
    have hfound := List.find?_eq_none.1 hnone r hr
    refine (Row.holds_iff_constantHolds hconst _).2 ?_
    simpa [hconst] using hfound

end Linear
end Majorant
