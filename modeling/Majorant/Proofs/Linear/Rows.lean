import Majorant.Linear.Elimination
import Mathlib.Algebra.Order.Field.Rat
import Mathlib.Tactic.FieldSimp
import Mathlib.Tactic.Linarith
import Mathlib.Tactic.Positivity
import Mathlib.Tactic.Ring

/-!
# Rows at a point and rows derived from others

At a point a row is a comparison that holds or fails (`Row.Holds`).  As the result of an elimination it is a
combination of the rows it came from (`Row.Derived`), in which factors of inequalities are not negative.
-/

namespace Majorant
namespace Linear

@[simp]
theorem dot_nil_right (as : List Rat) : dot as [] = 0 := by cases as <;> rfl

theorem dot_addCoeffs (as bs xs : List Rat) :
    dot (addCoeffs as bs) xs = dot as xs + dot bs xs := by
  induction as generalizing bs xs with
  | nil => simp [addCoeffs, dot]
  | cons a as ih =>
    cases bs with
    | nil => simp [addCoeffs, dot]
    | cons b bs =>
      cases xs with
      | nil => simp
      | cons x xs =>
        simp only [addCoeffs, dot, ih]
        ring

theorem dot_scaleCoeffs (k : Rat) (as xs : List Rat) :
    dot (scaleCoeffs k as) xs = k * dot as xs := by
  induction as generalizing xs with
  | nil => simp [scaleCoeffs, dot]
  | cons a as ih =>
    cases xs with
    | nil => simp
    | cons x xs =>
      have h := ih xs
      simp only [scaleCoeffs, List.map_cons, dot] at h ⊢
      rw [h]
      ring

theorem dot_eq_zero_of_getD {as xs : List Rat} (h : ∀ k, as.getD k 0 * xs.getD k 0 = 0) :
    dot as xs = 0 := by
  induction as generalizing xs with
  | nil => simp [dot]
  | cons a as ih =>
    cases xs with
    | nil => simp
    | cons x xs =>
      have hhead : a * x = 0 := by simpa using h 0
      have htail := ih fun k => by simpa using h (k + 1)
      simp only [dot, hhead, htail, add_zero]

theorem dot_eq_zero {as : List Rat} (h : ∀ a ∈ as, a = 0) (xs : List Rat) : dot as xs = 0 := by
  apply dot_eq_zero_of_getD
  intro k
  have hk : as.getD k 0 = 0 := by
    rw [List.getD_eq_getElem?_getD]
    cases hget : as[k]? with
    | none => rfl
    | some a => exact h a (List.mem_of_getElem? hget)
  rw [hk, zero_mul]

theorem dot_set {x : List Rat} {i : Nat} (hi : i < x.length) (as : List Rat) (v : Rat) :
    dot as (x.set i v) = dot as (x.set i 0) + as.getD i 0 * v := by
  induction x generalizing as i with
  | nil => simp at hi
  | cons y ys ih =>
    cases as with
    | nil => simp [dot]
    | cons a as =>
      cases i with
      | zero =>
        simp only [List.set_cons_zero, dot, List.getD_cons_zero]
        ring
      | succ i =>
        have hlt : i < ys.length := by simpa using hi
        simp only [List.set_cons_succ, dot, List.getD_cons_succ, ih hlt as]
        ring

theorem dot_set_of_getD_eq_zero {as : List Rat} {i : Nat} (h : as.getD i 0 = 0)
    (x : List Rat) (v : Rat) : dot as (x.set i v) = dot as x := by
  induction x generalizing as i with
  | nil => simp
  | cons y ys ih =>
    cases as with
    | nil => simp [dot]
    | cons a as =>
      cases i with
      | zero =>
        have ha : a = 0 := by simpa using h
        simp [dot, ha]
      | succ i =>
        have has : as.getD i 0 = 0 := by simpa using h
        simp only [List.set_cons_succ, dot, ih has]

theorem getD_addCoeffs (as bs : List Rat) (i : Nat) :
    (addCoeffs as bs).getD i 0 = as.getD i 0 + bs.getD i 0 := by
  induction as generalizing bs i with
  | nil => simp [addCoeffs]
  | cons a as ih =>
    cases bs with
    | nil => simp [addCoeffs]
    | cons b bs =>
      cases i with
      | zero => simp [addCoeffs]
      | succ i => simpa [addCoeffs] using ih bs i

theorem getD_scaleCoeffs (k : Rat) (as : List Rat) (i : Nat) :
    (scaleCoeffs k as).getD i 0 = k * as.getD i 0 := by
  induction as generalizing i with
  | nil => simp [scaleCoeffs]
  | cons a as ih =>
    cases i with
    | zero => simp [scaleCoeffs]
    | succ i => simpa [scaleCoeffs] using ih i

theorem length_addCoeffs {as bs : List Rat} (h : as.length = bs.length) :
    (addCoeffs as bs).length = as.length := by
  induction as generalizing bs with
  | nil => simpa [addCoeffs] using h.symm
  | cons a as ih =>
    cases bs with
    | nil => simp at h
    | cons b bs =>
      have hlen : as.length = bs.length := by simpa using h
      simp [addCoeffs, ih hlen]

def Strength.Holds (s : Strength) (p q : Rat) : Prop :=
  match s with
  | equal => p = q
  | weak => p ≤ q
  | strict => p < q

namespace Row

def Holds (x : List Rat) (r : Row) : Prop := r.strength.Holds (dot r.coeffs x) r.bound

@[simp]
theorem entry_add (r s : Row) (i : Nat) : (r.add s).entry i = r.entry i + s.entry i :=
  getD_addCoeffs _ _ _

@[simp]
theorem entry_scale (k : Rat) (r : Row) (i : Nat) : (r.scale k).entry i = k * r.entry i :=
  getD_scaleCoeffs _ _ _

theorem entry_eq_zero_of_isConstant {r : Row} (h : r.isConstant = true) (i : Nat) :
    r.entry i = 0 := by
  have hall : ∀ a ∈ r.coeffs, a = 0 := by simpa [isConstant] using h
  unfold entry
  rw [List.getD_eq_getElem?_getD]
  cases hget : r.coeffs[i]? with
  | none => rfl
  | some a => exact hall a (List.mem_of_getElem? hget)

theorem isConstant_of_entry {r : Row} (h : ∀ i, r.entry i = 0) : r.isConstant = true := by
  have hall : ∀ a ∈ r.coeffs, a = 0 := by
    intro a ha
    obtain ⟨i, hi⟩ := List.mem_iff_getElem?.1 ha
    simpa [entry, List.getD_eq_getElem?_getD, hi] using h i
  simpa [isConstant] using hall

theorem dot_eq_zero_of_isConstant {r : Row} (h : r.isConstant = true) (x : List Rat) :
    dot r.coeffs x = 0 := by
  have hall : ∀ a ∈ r.coeffs, a = 0 := by simpa [isConstant] using h
  exact dot_eq_zero hall x

theorem holds_iff_constantHolds {r : Row} (h : r.isConstant = true) (x : List Rat) :
    r.Holds x ↔ r.constantHolds = true := by
  have hdot := dot_eq_zero_of_isConstant h x
  unfold Holds constantHolds Strength.Holds
  rw [hdot]
  cases r.strength with
  | equal => simpa only [beq_iff_eq] using eq_comm
  | weak => simp
  | strict => simp

theorem holds_scale {k : Rat} (hk : 0 < k) (r : Row) (x : List Rat) :
    (r.scale k).Holds x ↔ r.Holds x := by
  unfold Holds scale Strength.Holds
  simp only [dot_scaleCoeffs]
  cases r.strength with
  | equal => exact ⟨fun h => mul_left_cancel₀ hk.ne' h, fun h => by rw [h]⟩
  | weak => exact mul_le_mul_iff_of_pos_left hk
  | strict => exact mul_lt_mul_iff_of_pos_left hk

theorem normalize_eq_scale (r : Row) : r.normalize = r ∨ ∃ k, 0 < k ∧ r.normalize = r.scale k := by
  unfold normalize
  split
  · rename_i c hc
    right
    have hne : c ≠ 0 := by simpa using List.find?_some hc
    refine ⟨_, ?_, rfl⟩
    split
    · rename_i hneg
      have : 0 < -c := by linarith
      positivity
    · rename_i hneg
      have : 0 < c := lt_of_le_of_ne (not_lt.1 hneg) hne.symm
      positivity
  · exact .inl rfl

theorem holds_normalize (r : Row) (x : List Rat) : r.normalize.Holds x ↔ r.Holds x := by
  rcases normalize_eq_scale r with h | ⟨k, hk, h⟩
  · rw [h]
  · rw [h, holds_scale hk]

theorem holds_of_tighter {r s : Row} (h : r.tighter s = true) {x : List Rat} (hr : r.Holds x) :
    s.Holds x := by
  obtain ⟨rc, rb, rs, rw⟩ := r
  obtain ⟨sc, sb, ss, sw⟩ := s
  simp only [tighter, Bool.and_eq_true, decide_eq_true_eq, beq_iff_eq, ne_eq, Bool.or_eq_true] at h
  obtain ⟨⟨⟨hrs, hss⟩, rfl⟩, hbound⟩ := h
  unfold Holds Strength.Holds at hr ⊢
  cases rs <;> cases ss <;> simp at hrs hss hbound hr ⊢
  · rcases hbound with hlt | rfl
    · linarith
    · exact hr
  · linarith
  · rcases hbound with hlt | rfl
    · linarith
    · exact hr.le
  · rcases hbound with hlt | rfl
    · linarith
    · exact hr

end Row

theorem mem_of_mem_keepTight {kept : List Row} {r s : Row} (h : s ∈ keepTight kept r) :
    s ∈ kept ∨ s = r := by
  unfold keepTight at h
  split at h
  · exact .inl h
  · rcases List.mem_append.1 h with h | h
    · exact .inl (List.mem_of_mem_filter h)
    · exact .inr (by simpa using h)

theorem holds_of_keepTight {kept : List Row} {r : Row} {x : List Rat}
    (h : ∀ s ∈ keepTight kept r, s.Holds x) : (∀ s ∈ kept, s.Holds x) ∧ r.Holds x := by
  unfold keepTight at h
  split at h
  · rename_i hany
    refine ⟨h, ?_⟩
    obtain ⟨s, hs, hst⟩ := List.any_eq_true.1 hany
    exact Row.holds_of_tighter hst (h s hs)
  · have hr : r.Holds x := h r (by simp)
    refine ⟨fun s hs => ?_, hr⟩
    by_cases hst : r.tighter s = true
    · exact Row.holds_of_tighter hst hr
    · exact h s (by simp [hs, hst])

theorem mem_of_mem_foldl_keepTight {rows kept : List Row} {s : Row}
    (h : s ∈ rows.foldl keepTight kept) : s ∈ kept ∨ s ∈ rows := by
  induction rows generalizing kept with
  | nil => exact .inl h
  | cons r rows ih =>
    rcases ih h with h | h
    · rcases mem_of_mem_keepTight h with h | rfl
      · exact .inl h
      · exact .inr (by simp)
    · exact .inr (by simp [h])

theorem holds_of_foldl_keepTight {rows kept : List Row} {x : List Rat}
    (h : ∀ s ∈ rows.foldl keepTight kept, s.Holds x) :
    (∀ s ∈ kept, s.Holds x) ∧ ∀ s ∈ rows, s.Holds x := by
  induction rows generalizing kept with
  | nil => exact ⟨h, by simp⟩
  | cons r rows ih =>
    obtain ⟨hkept, hrows⟩ := ih h
    obtain ⟨hkept, hr⟩ := holds_of_keepTight hkept
    refine ⟨hkept, fun s hs => ?_⟩
    rcases List.mem_cons.1 hs with rfl | hs
    · exact hr
    · exact hrows s hs

theorem exists_of_mem_prune {rows : List Row} {r : Row} (h : r ∈ prune rows) :
    ∃ s ∈ rows, r = s.normalize := by
  unfold prune at h
  rcases mem_of_mem_foldl_keepTight h with h | h
  · simp at h
  · obtain ⟨s, hs, rfl⟩ := List.mem_map.1 h
    exact ⟨s, List.mem_of_mem_filter hs, rfl⟩

theorem holds_of_prune {rows : List Row} {x : List Rat} (h : ∀ s ∈ prune rows, s.Holds x) :
    ∀ s ∈ rows, s.Holds x := by
  intro s hs
  by_cases hconst : (s.isConstant && s.constantHolds) = true
  · obtain ⟨hc, hh⟩ := Bool.and_eq_true_iff.1 hconst
    exact (Row.holds_iff_constantHolds hc x).2 hh
  · have hmem : s.normalize ∈
        (rows.filter fun r => !(r.isConstant && r.constantHolds)).map Row.normalize :=
      List.mem_map.2 ⟨s, List.mem_filter.2 ⟨hs, by simpa only [Bool.not_eq_true'] using Bool.eq_false_iff.2 hconst⟩, rfl⟩
    exact (Row.holds_normalize s x).1 ((holds_of_foldl_keepTight h).2 _ hmem)

/-- **The row is the combination of `rows` that its weights describe.**  Inequalities take part with
weights that are not negative, an equation comes from equations only, and a strict row from at least
one strict row. -/
structure Row.Derived (rows : List Row) (r : Row) : Prop where
  length_weights : r.weights.length = rows.length
  entry_eq : ∀ i, r.entry i = dot r.weights (rows.map (·.entry i))
  bound_eq : r.bound = dot r.weights (rows.map (·.bound))
  nonneg : ∀ k s, rows[k]? = some s → s.strength ≠ .equal → 0 ≤ r.weights.getD k 0
  of_equal : r.strength = .equal → ∀ k s, rows[k]? = some s → s.strength ≠ .equal →
    r.weights.getD k 0 = 0
  of_strict : r.strength = .strict → ∃ k s, rows[k]? = some s ∧ s.strength = .strict ∧
    0 < r.weights.getD k 0

namespace Row.Derived

variable {rows : List Row} {r s : Row}

theorem weights_add_getD (r s : Row) (k : Nat) :
    (r.add s).weights.getD k 0 = r.weights.getD k 0 + s.weights.getD k 0 :=
  getD_addCoeffs _ _ _

theorem weights_scale_getD (c : Rat) (r : Row) (k : Nat) :
    (r.scale c).weights.getD k 0 = c * r.weights.getD k 0 :=
  getD_scaleCoeffs _ _ _

theorem strength_add_eq_equal (h : (r.add s).strength = .equal) :
    r.strength = .equal ∧ s.strength = .equal := by
  revert h
  unfold Row.add
  cases r.strength <;> cases s.strength <;> simp

theorem strength_add_eq_strict (h : (r.add s).strength = .strict) :
    r.strength = .strict ∨ s.strength = .strict := by
  revert h
  unfold Row.add
  cases r.strength <;> cases s.strength <;> simp

theorem add (hr : r.Derived rows) (hs : s.Derived rows) : (r.add s).Derived rows where
  length_weights := by
    have hlen : r.weights.length = s.weights.length := by
      rw [hr.length_weights, hs.length_weights]
    exact (length_addCoeffs hlen).trans hr.length_weights
  entry_eq i := by
    rw [entry_add, hr.entry_eq, hs.entry_eq]
    exact (dot_addCoeffs _ _ _).symm
  bound_eq := by
    change r.bound + s.bound = dot (addCoeffs r.weights s.weights) _
    rw [dot_addCoeffs, hr.bound_eq, hs.bound_eq]
  nonneg k t ht hne := by
    rw [weights_add_getD]
    exact add_nonneg (hr.nonneg k t ht hne) (hs.nonneg k t ht hne)
  of_equal h k t ht hne := by
    obtain ⟨hre, hse⟩ := strength_add_eq_equal h
    rw [weights_add_getD, hr.of_equal hre k t ht hne, hs.of_equal hse k t ht hne, add_zero]
  of_strict h := by
    rcases strength_add_eq_strict h with h | h
    · obtain ⟨k, t, ht, hstrict, hpos⟩ := hr.of_strict h
      have hother := hs.nonneg k t ht (by simp [hstrict])
      refine ⟨k, t, ht, hstrict, ?_⟩
      rw [weights_add_getD]
      linarith
    · obtain ⟨k, t, ht, hstrict, hpos⟩ := hs.of_strict h
      have hother := hr.nonneg k t ht (by simp [hstrict])
      refine ⟨k, t, ht, hstrict, ?_⟩
      rw [weights_add_getD]
      linarith

theorem scale {c : Rat} (hc : 0 < c) (hr : r.Derived rows) : (r.scale c).Derived rows where
  length_weights := by simpa [Row.scale, scaleCoeffs] using hr.length_weights
  entry_eq i := by
    rw [entry_scale, hr.entry_eq]
    exact (dot_scaleCoeffs _ _ _).symm
  bound_eq := by
    change c * r.bound = dot (scaleCoeffs c r.weights) _
    rw [dot_scaleCoeffs, hr.bound_eq]
  nonneg k t ht hne := by
    rw [weights_scale_getD]
    exact mul_nonneg hc.le (hr.nonneg k t ht hne)
  of_equal h k t ht hne := by
    rw [weights_scale_getD, hr.of_equal h k t ht hne, mul_zero]
  of_strict h := by
    obtain ⟨k, t, ht, hstrict, hpos⟩ := hr.of_strict h
    refine ⟨k, t, ht, hstrict, ?_⟩
    rw [weights_scale_getD]
    exact mul_pos hc hpos

theorem scale_equal (c : Rat) (hr : r.Derived rows) (he : r.strength = .equal) :
    (r.scale c).Derived rows where
  length_weights := by simpa [Row.scale, scaleCoeffs] using hr.length_weights
  entry_eq i := by
    rw [entry_scale, hr.entry_eq]
    exact (dot_scaleCoeffs _ _ _).symm
  bound_eq := by
    change c * r.bound = dot (scaleCoeffs c r.weights) _
    rw [dot_scaleCoeffs, hr.bound_eq]
  nonneg k t ht hne := by
    rw [weights_scale_getD, hr.of_equal he k t ht hne, mul_zero]
  of_equal _ k t ht hne := by
    rw [weights_scale_getD, hr.of_equal he k t ht hne, mul_zero]
  of_strict h := by
    have hstrict : r.strength = .strict := h
    rw [he] at hstrict
    cases hstrict

theorem normalize (hr : r.Derived rows) : r.normalize.Derived rows := by
  rcases normalize_eq_scale r with h | ⟨k, hk, h⟩
  · rwa [h]
  · rw [h]
    exact hr.scale hk

end Row.Derived
end Linear
end Majorant
