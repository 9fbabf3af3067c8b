import Majorant.Proofs.Growth.Signs
import Majorant.Proofs.Magnitude.Bounded

/-!
# Fixed and bounded terms

A term that is recognised as fixed has a real value, or the order of one; a term that is recognised as bounded
has a value that is bounded by a constant.
-/

namespace Majorant

namespace Growth

variable {K : Type} [Field K] [LinearOrder K] [IsStrictOrderedRing K] (f : ℝ →+* K)

theorem real_pos {r : ℝ} (hr : 0 < r) : 0 < f r := by
  have hsq : f r = f (√r) * f (√r) := by rw [← map_mul, Real.mul_self_sqrt hr.le]
  rw [hsq]
  exact mul_self_pos.2 ((map_ne_zero f).2 (Real.sqrt_pos.2 hr).ne')

theorem real_mono : StrictMono f := by
  intro r s hrs
  have hpos := real_pos f (sub_pos.2 hrs)
  rwa [map_sub, sub_pos] at hpos

theorem real_pos_iff {r : ℝ} : 0 < f r ↔ 0 < r := by
  rw [← map_zero f]
  exact (real_mono f).lt_iff_lt

theorem rate_real {r : ℝ} (hr : 0 < f r) : rate (f r) = 0 := by
  have hpos : 0 < r := (real_pos_iff f).1 hr
  rw [← rate_one]
  apply le_antisymm
  · rw [rate_le_iff hr one_pos]
    obtain ⟨n, hn⟩ := exists_nat_ge r
    refine ⟨n, ?_⟩
    rw [mul_one, ← map_natCast f n]
    exact (real_mono f).monotone hn
  · rw [rate_le_iff one_pos hr]
    obtain ⟨n, hn⟩ := exists_nat_ge r⁻¹
    refine ⟨n, ?_⟩
    rw [← map_natCast f n, ← map_mul, ← map_one f]
    refine (real_mono f).monotone ?_
    rwa [inv_eq_one_div, div_le_iff₀ hpos] at hn

theorem ratPower_real (hroots : HasRoots K) {r : ℝ} (hr : 0 < f r) (q : ℚ) :
    ratPower (f r) q = f (r ^ (q : ℝ)) := by
  have hpos : 0 < r := (real_pos_iff f).1 hr
  refine (eq_ratPower hroots hr (real_pos f (Real.rpow_pos_of_pos hpos _)) ?_).symm
  have hexponent : (q : ℝ) * q.den = q.num := by exact_mod_cast Rat.mul_den_eq_num q
  rw [← map_pow, ← map_zpow₀, ← Real.rpow_natCast, ← Real.rpow_mul hpos.le, hexponent,
    Real.rpow_intCast]

theorem abs_le_nat_iff {x : K} : (∃ n : ℕ, |x| ≤ n) ↔ 0 ≤ ArchimedeanClass.mk x := by
  rw [← ArchimedeanClass.mk_one, ArchimedeanClass.mk_le_mk]
  simp

theorem rate_nonpos_iff {x : K} (hx : 0 < x) : rate x ≤ 0 ↔ 0 ≤ ArchimedeanClass.mk x := by
  rw [← abs_le_nat_iff, ← rate_one, rate_le_iff hx one_pos, abs_of_pos hx]
  simp only [Dominated, mul_one]

end Growth

namespace Regime
open Growth Term Magnitude

variable {K : Type} [Field K] [LinearOrder K] [IsStrictOrderedRing K]

/-- Properties of values and of rates that are kept by the operations; powers keep them for some
exponents only. -/
structure Stable (G : K → Prop) (H : Rate K → Prop) (E : ℚ → Prop) : Prop where
  rat : ∀ q : ℚ, G q
  add : ∀ {x y}, G x → G y → G (x + y)
  mul : ∀ {x y}, G x → G y → G (x * y)
  abs : ∀ {x}, G x → G |x|
  pow : ∀ {x q}, G x → PowerDefined x q → E q → G (ratPower x q)
  rate : ∀ {x}, 0 < x → G x → H (rate x)
  zero : H 0
  sum : ∀ {u w}, H u → H w → H (u + w)
  smul : ∀ {u q}, E q → H u → H (q • u)

variable {G : K → Prop} {H : Rate K → Prop} {E : ℚ → Prop} {ρ : Regime K} {t : Term} {hyps : List Term}

theorem Stable.list_sum (S : Stable G H E) {xs : List K} (h : ∀ x ∈ xs, G x) : G xs.sum := by
  induction xs with
  | nil => simpa using S.rat 0
  | cons x xs ih =>
    obtain ⟨hx, hxs⟩ := List.forall_mem_cons.1 h
    rw [List.sum_cons]
    exact S.add hx (ih hxs)

theorem Stable.list_prod (S : Stable G H E) {xs : List K} (h : ∀ x ∈ xs, G x) : G xs.prod := by
  induction xs with
  | nil => simpa using S.rat 1
  | cons x xs ih =>
    obtain ⟨hx, hxs⟩ := List.forall_mem_cons.1 h
    rw [List.prod_cons]
    exact S.mul hx (ih hxs)

theorem Stable.list_sum_rates (S : Stable G H E) {us : List (Rate K)} (h : ∀ u ∈ us, H u) :
    H us.sum := by
  induction us with
  | nil => exact S.zero
  | cons u us ih =>
    obtain ⟨hu, hus⟩ := List.forall_mem_cons.1 h
    rw [List.sum_cons]
    exact S.sum hu (ih hus)

/-- The value of a term, or the rate of the order that it is, has a property. -/
def Tame (ρ : Regime K) (G : K → Prop) (H : Rate K → Prop) (t : Term) : Prop :=
  (ρ.Valued t → G (ρ.val t)) ∧ (ρ.Sized t → H (rate (ρ.val t)))

/-- **A test that looks at the shape of a term**: it finds a quantity if that has the property anyway, or
if it finds all of its arguments and the exponent of a power is admissible. -/
structure Recognises (ρ : Regime K) (found : Term → Bool) (G : K → Prop) (H : Rate K → Prop)
    (E : ℚ → Prop) : Prop where
  var : ∀ {v}, found (var v) = true → ρ.Tame G H (var v)
  app : ∀ {h as}, h.isQuantity = true → found (app h as) = true →
    ρ.Tame G H (app h as) ∨ (∀ a ∈ as, found a = true) ∧
      ∀ b q, as = [b, num q] → h = .pow ∨ h = .orderPow → E q

namespace Recognises

variable {found : Term → Bool}

theorem valued (R : Recognises ρ found G H E) (S : Stable G H E) (ht : ρ.Valued t)
    (hfound : found t = true) : G (ρ.val t) := by
  have hmap : ∀ {as : List Term}, (∀ a ∈ as, G (ρ.val a)) → ∀ x ∈ as.map ρ.val, G x := by
    intro as has x hx
    obtain ⟨a, ha, rfl⟩ := List.mem_map.1 hx
    exact has a ha
  induction ht with
  | num q =>
    rw [val_num]
    exact S.rat q
  | var hv => exact (R.var hfound).1 (.var hv)
  | add has ih =>
    rcases R.app rfl hfound with htame | ⟨hall, -⟩
    · exact htame.1 (.add has)
    · rw [val_add]
      exact S.list_sum (hmap fun a ha => ih a ha (hall a ha))
  | mul has ih =>
    rcases R.app rfl hfound with htame | ⟨hall, -⟩
    · exact htame.1 (.mul has)
    · rw [val_mul]
      exact S.list_prod (hmap fun a ha => ih a ha (hall a ha))
  | pow hb hq ih =>
    rcases R.app rfl hfound with htame | ⟨hall, hexponent⟩
    · exact htame.1 (.pow hb hq)
    · rw [val_pow]
      exact S.pow (ih (hall _ List.mem_cons_self)) hq (hexponent _ _ rfl (.inl rfl))
  | abs ha ih =>
    rcases R.app rfl hfound with htame | ⟨hall, -⟩
    · exact htame.1 (.abs ha)
    · rw [val_abs]
      exact S.abs (ih (hall _ List.mem_cons_self))
  | max hne has ih =>
    rcases R.app rfl hfound with htame | ⟨hall, -⟩
    · exact htame.1 (.max hne has)
    · exact hmap (fun a ha => ih a ha (hall a ha)) _ (isExtremal_max hne).2
  | min hne has ih =>
    rcases R.app rfl hfound with htame | ⟨hall, -⟩
    · exact htame.1 (.min hne has)
    · exact hmap (fun a ha => ih a ha (hall a ha)) _ (isExtremal_min hne).2

theorem sized (R : Recognises ρ found G H E) (S : Stable G H E) (hroots : HasRoots K)
    (ht : ρ.Sized t) (hfound : found t = true) : H (rate (ρ.val t)) := by
  induction ht with
  | var hv => exact (R.var hfound).2 (.var hv)
  | theta ha hpos =>
    rcases R.app rfl hfound with htame | ⟨hall, -⟩
    · exact htame.2 (.theta ha hpos)
    · rw [val_theta]
      exact S.rate hpos (R.valued S ha (hall _ List.mem_cons_self))
  | product has ih =>
    rcases R.app rfl hfound with htame | ⟨hall, -⟩
    · exact htame.2 (.product has)
    · rw [val_orderMul, rate_prod (by simpa using fun a ha => (has a ha).pos hroots), List.map_map]
      refine S.list_sum_rates fun u hu => ?_
      obtain ⟨a, ha, rfl⟩ := List.mem_map.1 hu
      exact ih a ha (hall a ha)
  | power hb q ih =>
    rcases R.app rfl hfound with htame | ⟨hall, hexponent⟩
    · exact htame.2 (.power hb q)
    · rw [val_orderPow, rate_ratPower hroots (hb.pos hroots)]
      exact S.smul (hexponent _ _ rfl (.inr rfl)) (ih (hall _ List.mem_cons_self))
  | extremum hh hne has ih =>
    rcases R.app (Composed.isQuantity_of_extremum hh) hfound with htame | ⟨hall, -⟩
    · exact htame.2 (.extremum hh hne has)
    · obtain ⟨a, ha, heq⟩ := List.mem_map.1 (extremes_val hh ρ _ hne).2
      rw [← heq]
      exact ih a ha (hall a ha)

/-- **The terms that a test finds have the property.** -/
theorem tame (R : Recognises ρ found G H E) (S : Stable G H E) (hroots : HasRoots K)
    (hfound : found t = true) : ρ.Tame G H t :=
  ⟨fun ht => R.valued S ht hfound, fun ht => R.sized S hroots ht hfound⟩

end Recognises

theorem stable_real (hroots : HasRoots K) (f : ℝ →+* K) :
    Stable (· ∈ f.fieldRange) (· = 0) fun _ => True where
  rat q := ⟨q, map_ratCast f q⟩
  add := add_mem
  mul := mul_mem
  abs {x} hx := by
    rcases abs_choice x with h | h <;> rw [h]
    · exact hx
    · exact neg_mem hx
  pow {x q} hx hdefined _ := by
    rcases hdefined with hpos | ⟨hzero, -⟩ | ⟨-, hq⟩
    · obtain ⟨r, rfl⟩ := hx
      rw [ratPower_real f hroots hpos]
      exact ⟨_, rfl⟩
    · by_cases hq : q.den = 1
      · rw [ratPower_of_den_eq_one hq]
        exact zpow_mem hx _
      · rw [hzero, ratPower_zero hq]
        exact zero_mem _
    · rw [ratPower_of_den_eq_one hq]
      exact zpow_mem hx _
  rate {x} hpos hx := by
    obtain ⟨r, rfl⟩ := hx
    exact rate_real f hpos
  zero := rfl
  sum hu hw := by rw [hu, hw, add_zero]
  smul _ hu := by rw [hu, smul_zero]

theorem tame_iff_fixed (hroots : HasRoots K) :
    ρ.Tame (· ∈ ρ.real.fieldRange) (· = 0) t ↔ ρ.Fixed t := by
  refine and_congr Iff.rfl (forall_congr' fun ht => ?_)
  rw [Rel.bounds_iff (ht.pos hroots) one_pos, rate_one]
  rfl

theorem isFixed_of_isNumber (h : t.isNumber = true) : isFixed hyps t = true := by
  cases t <;> simp [isFixed, h]

theorem recognises_isFixed (hroots : HasRoots K) (hholds : ∀ h ∈ hyps, ρ.Holds h) :
    Recognises ρ (isFixed hyps) (· ∈ ρ.real.fieldRange) (· = 0) fun _ => True := by
  have hmark : ∀ {t}, markedFixed hyps t = true → ρ.Tame (· ∈ ρ.real.fieldRange) (· = 0) t := by
    intro t ht
    rw [tame_iff_fixed hroots]
    exact hholds (app .fixed [t]) (by simpa [markedFixed] using ht)
  constructor
  · intro v hfound
    exact hmark (by simpa [isFixed, isNumber] using hfound)
  · intro h as hh hfound
    unfold isFixed at hfound
    rw [Bool.or_eq_true, Bool.or_eq_true, Bool.and_eq_true] at hfound
    rcases hfound with (hnumber | hmarked) | ⟨-, hall⟩
    · exact .inr ⟨fun a ha => isFixed_of_isNumber ((isNumber_app hh).1 hnumber a ha), by simp⟩
    · exact .inl (hmark hmarked)
    · exact .inr ⟨areFixed_iff.1 hall, by simp⟩

/-- **A term that is recognised as fixed is fixed.** -/
theorem fixed_of_isFixed (hroots : HasRoots K) (hholds : ∀ h ∈ hyps, ρ.Holds h)
    (hfound : isFixed hyps t = true) : ρ.Fixed t :=
  (tame_iff_fixed hroots).1 ((recognises_isFixed hroots hholds).tame (stable_real hroots _) hroots hfound)

theorem stable_bounded (hroots : HasRoots K) :
    Stable (fun x : K => 0 ≤ ArchimedeanClass.mk x) (· ≤ 0) (0 ≤ ·) where
  rat q := ArchimedeanClass.mk_ratCast_nonneg q
  add hx hy := (le_min hx hy).trans (ArchimedeanClass.min_le_mk_add _ _)
  mul hx hy := by
    rw [ArchimedeanClass.mk_mul]
    exact add_nonneg hx hy
  abs hx := by rwa [ArchimedeanClass.mk_abs]
  pow {x q} hx hdefined hq := by
    have hwhole : q.den = 1 → 0 ≤ ArchimedeanClass.mk (ratPower x q) := by
      intro hden
      obtain ⟨n, hn⟩ := Int.eq_ofNat_of_zero_le (Rat.num_nonneg.2 hq)
      rw [ratPower_of_den_eq_one hden, hn, zpow_natCast, ArchimedeanClass.mk_pow]
      exact nsmul_nonneg hx n
    rcases hdefined with hpos | ⟨hzero, -⟩ | ⟨-, hden⟩
    · rw [← rate_nonpos_iff (ratPower_spec hroots hpos q).1, rate_ratPower hroots hpos]
      exact smul_nonpos_of_nonneg_of_nonpos hq ((rate_nonpos_iff hpos).2 hx)
    · by_cases hden : q.den = 1
      · exact hwhole hden
      · rw [hzero, ratPower_zero hden, ArchimedeanClass.mk_zero]
        exact le_top
    · exact hwhole hden
  rate hpos hx := (rate_nonpos_iff hpos).2 hx
  zero := le_rfl
  sum hu hw := add_nonpos hu hw
  smul hq hu := smul_nonpos_of_nonneg_of_nonpos hq hu

theorem tame_iff_bounded (hroots : HasRoots K) :
    ρ.Tame (fun x => 0 ≤ ArchimedeanClass.mk x) (· ≤ 0) t ↔ ρ.Bounded t := by
  refine and_congr (forall_congr' fun _ => abs_le_nat_iff.symm) (forall_congr' fun ht => ?_)
  rw [Rel.bounds_iff (ht.pos hroots) one_pos, rate_one]
  rfl

theorem Fixed.bounded (h : ρ.Fixed t) : ρ.Bounded t := by
  refine ⟨fun ht => ?_, fun ht => (h.2 ht).1⟩
  obtain ⟨r, hr⟩ := h.1 ht
  obtain ⟨n, hn⟩ := exists_nat_ge |r|
  refine ⟨n, ?_⟩
  rw [← hr, ← map_natCast ρ.real n, abs_le, ← map_neg]
  exact ⟨(real_mono ρ.real).monotone (abs_le.1 hn).1, (real_mono ρ.real).monotone (abs_le.1 hn).2⟩

theorem recognises_isBounded (hroots : HasRoots K) (hholds : ∀ h ∈ hyps, ρ.Holds h) :
    Recognises ρ (isBounded hyps) (fun x => 0 ≤ ArchimedeanClass.mk x) (· ≤ 0) (0 ≤ ·) := by
  have hfixed : ∀ {t}, isFixed hyps t = true →
      ρ.Tame (fun x => 0 ≤ ArchimedeanClass.mk x) (· ≤ 0) t := fun ht =>
    (tame_iff_bounded hroots).2 (fixed_of_isFixed hroots hholds ht).bounded
  have hmark : ∀ {t}, markedBounded hyps t = true →
      ρ.Tame (fun x => 0 ≤ ArchimedeanClass.mk x) (· ≤ 0) t := by
    intro t ht
    rw [tame_iff_bounded hroots]
    have hmem : app .fixed [t] ∈ hyps ∨ app .bounded [t] ∈ hyps := by simpa [markedBounded] using ht
    rcases hmem with hmem | hmem
    · exact Fixed.bounded (hholds _ hmem)
    · exact hholds _ hmem
  constructor
  · intro v hfound
    have hcases : markedBounded hyps (var v) = true ∨ v.kind = .prop := by
      simpa [isBounded, isNumber, isTwoValued] using hfound
    rcases hcases with hmarked | hkind
    · exact hmark hmarked
    -- a proposition is neither a number nor an order
    · constructor
      · rintro (_ | hv)
        rw [hkind] at hv
        cases hv
      · rintro (hv | _)
        rw [hkind] at hv
        cases hv
  · intro h as hh hfound
    have htwo : isTwoValued (app h as) = false := by cases h <;> first | rfl | cases hh
    unfold isBounded at hfound
    rw [htwo, Bool.or_false, Bool.or_eq_true, Bool.or_eq_true, Bool.or_eq_true, Bool.and_eq_true,
      Bool.and_eq_true, Bool.and_eq_true] at hfound
    rcases hfound with ((hnumber | hmarked) | ⟨hkeeps, hall⟩) | ⟨⟨-, hall⟩, hexponent⟩
    · exact .inl (hfixed (isFixed_of_isNumber hnumber))
    · exact .inl (hmark hmarked)
    · refine .inr ⟨areBounded_iff.1 hall, ?_⟩
      rintro b q rfl (rfl | rfl) <;> cases hkeeps
    · refine .inr ⟨areBounded_iff.1 hall, ?_⟩
      rintro b q rfl -
      exact nonneg_of_num hexponent

/-- **A term that is recognised as bounded is bounded.** -/
theorem bounded_of_isBounded (hroots : HasRoots K) (hholds : ∀ h ∈ hyps, ρ.Holds h)
    (hfound : isBounded hyps t = true) : ρ.Bounded t :=
  (tame_iff_bounded hroots).1
    ((recognises_isBounded hroots hholds).tame (stable_bounded hroots) hroots hfound)

end Regime
end Majorant
