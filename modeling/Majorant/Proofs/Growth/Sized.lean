import Majorant.Proofs.Growth.Bounded

/-!
# Rates of orders of magnitude

The rate of the representative is a size of an order: products add up, powers multiply, and evaluating an
extremum keeps its value.
-/

namespace Majorant

namespace Growth
open Magnitude

variable {K : Type} [Field K] [LinearOrder K] [IsStrictOrderedRing K]

theorem isExtremal_rate {h : Head} {xs : List K} {x : K} (hpos : ∀ y ∈ xs, 0 < y)
    (hx : IsExtremal (side h) xs x) : IsExtremal (side h) (xs.map rate) (rate x) := by
  refine ⟨fun u hu => ?_, List.mem_map_of_mem hx.2⟩
  obtain ⟨y, hy, rfl⟩ := List.mem_map.1 hu
  have hcompares := hx.1 y hy
  rcases side_cases h with hside | hside <;> rw [hside] at hcompares ⊢
  · exact rate_mono (hpos y hy) hcompares
  · exact rate_mono (hpos x hx.2) hcompares

theorem isExtremal_rate_sum {xs : List K} (hne : xs ≠ []) (hpos : ∀ x ∈ xs, 0 < x) :
    IsExtremal .le (xs.map rate) (rate xs.sum) := by
  induction xs with
  | nil => exact absurd rfl hne
  | cons x xs ih =>
    obtain ⟨hx, hxs⟩ := List.forall_mem_cons.1 hpos
    by_cases hnil : xs = []
    · subst hnil
      simp [IsExtremal, Rel.Compares]
    · obtain ⟨hle, hmem⟩ := ih hnil hxs
      have hsum : 0 < xs.sum := List.sum_pos xs hxs hnil
      rw [List.sum_cons, rate_add hx hsum, List.map_cons]
      refine ⟨List.forall_mem_cons.2 ⟨le_max_left _ _, fun u hu => le_max_of_le_right (hle u hu)⟩, ?_⟩
      rcases max_choice (rate x) (rate xs.sum) with hmax | hmax <;> rw [hmax]
      · exact List.mem_cons_self
      · exact List.mem_cons_of_mem _ hmem

end Growth

namespace Regime
open Growth Term Magnitude

variable {K : Type} [Field K] [LinearOrder K] {ρ : Regime K} {t : Term} {as ts : List Term} {h : Head}

theorem extremum_sized (hh : h = .orderMax ∨ h = .orderMin) (hne : ts ≠ [])
    (hts : ∀ t ∈ ts, ρ.Sized t) : ρ.Sized (extremum h ts) := by
  have hmem : ∀ {u}, u ∈ ts.eraseDups ↔ u ∈ ts := List.mem_eraseDups
  unfold Magnitude.extremum
  split
  · next u heq => exact hts u (hmem.1 (by rw [heq]; exact List.mem_cons_self))
  · obtain ⟨u, hu⟩ := List.exists_mem_of_ne_nil ts hne
    exact .extremum hh (List.ne_nil_of_mem (hmem.2 hu)) fun u hu => hts u (hmem.1 hu)

theorem spread_sized (hh : h = .orderMax ∨ h = .orderMin) (hts : ∀ t ∈ ts, ρ.Sized t) :
    ∀ u ∈ spread h ts, ρ.Sized u := by
  intro u hu
  obtain ⟨t, ht, hu⟩ := mem_spread.1 hu
  by_cases hnested : ∃ as, t = app h as
  · obtain ⟨as, rfl⟩ := hnested
    rw [spread_same] at hu
    exact ((hts _ ht).of_extremum hh).2 u hu
  · rw [spread_of_plain fun u hu bs heq => hnested ⟨bs, (List.mem_singleton.1 hu).symm.trans heq⟩] at hu
    rw [List.mem_singleton.1 hu]
    exact hts t ht

/-- **Evaluating an extremum** gives the extreme value of its arguments. -/
theorem extremum_spread_spec (hh : h = .orderMax ∨ h = .orderMin) (hne : ts ≠ [])
    (hts : ∀ t ∈ ts, ρ.Sized t) :
    ρ.Sized (extremum h (spread h ts)) ∧
      IsExtremal (side h) (ts.map ρ.val) (ρ.val (extremum h (spread h ts))) := by
  have hnested : ∀ t ∈ ts, ∀ as, t = app h as → as ≠ [] := by
    rintro _ ht as rfl
    exact ((hts _ ht).of_extremum hh).1
  exact ⟨extremum_sized hh (spread_ne_nil hne hnested) (spread_sized hh hts),
    (extremes_val hh ρ).extremum_spread hne hnested⟩

theorem evaluate_spec (hh : h = .orderMax ∨ h = .orderMin) (ht : ρ.Sized (app h as)) :
    ρ.Sized (extremum h (spread h as)) ∧ ρ.val (extremum h (spread h as)) = ρ.val (app h as) := by
  obtain ⟨hne, has⟩ := ht.of_extremum hh
  obtain ⟨hsized, hextreme⟩ := extremum_spread_spec hh hne has
  exact ⟨hsized, hextreme.unique (extremes_val hh ρ as hne)⟩

variable [IsStrictOrderedRing K]

theorem sized_unit : ρ.Sized unit := by
  refine .theta (.num 1) ?_
  rw [val_one]
  exact one_pos

/-- **Rates are sizes** of the orders that have a value. -/
theorem sizing (hroots : HasRoots K) (ρ : Regime K) :
    Sizing ρ.Sized fun t => rate (ρ.val t) where
  isOrder h := h.isOrder
  evades h := h.evades
  ofLiteral h := h.ofLiteral
  unit := sized_unit
  size_unit := by simp [Magnitude.unit]
  product h := .product h
  of_product h := h.of_mem_product
  size_product h := by
    have hpos := fun a ha => (h.of_mem_product a ha).pos hroots
    rw [val_orderMul, rate_prod (by simpa using hpos), List.map_map]
    rfl
  power q h := h.power q
  of_power h := h.of_power
  size_power q h := by rw [val_orderPow, rate_ratPower hroots (h.pos hroots)]
  join h := by
    obtain ⟨hsized, hval⟩ := evaluate_spec (.inl rfl) h
    exact ⟨hsized, congrArg rate hval⟩
  meet h := by
    obtain ⟨hsized, hval⟩ := evaluate_spec (.inr rfl) h
    exact ⟨hsized, congrArg rate hval⟩

/-- The order of a quantity has its rate. -/
def Represents (ρ : Regime K) (o t : Term) : Prop := ρ.Sized o ∧ rate (ρ.val o) = rate (ρ.val t)

theorem represents_theta (ht : ρ.Valued t) (hpos : 0 < ρ.val t) : ρ.Represents (app .theta [t]) t :=
  ⟨.theta ht hpos, by rw [val_theta]⟩

theorem represents_unit (hroots : HasRoots K) (ht : ρ.Valued t) (hpos : 0 < ρ.val t)
    (hnumber : t.isNumber = true) : ρ.Represents unit t := by
  refine ⟨sized_unit, ?_⟩
  have hempty : ∀ h ∈ ([] : List Term), ρ.Holds h := nofun
  have hfixed : ρ.Fixed t := fixed_of_isFixed hroots hempty (isFixed_of_isNumber hnumber)
  obtain ⟨r, hr⟩ := hfixed.1 ht
  rw [← hr] at hpos ⊢
  rw [rate_real _ hpos]
  exact (sizing hroots ρ).size_unit

theorem represents_join (hroots : HasRoots K) (hne : as ≠ [])
    (has : ∀ a ∈ as, ρ.Represents (ofPositive a) a)
    (hx : IsExtremal .le (as.map fun a => rate (ρ.val a)) (rate (ρ.val t))) :
    ρ.Represents (join (ofPositiveList as)) t := by
  rw [ofPositiveList_eq_map]
  have hsized : ∀ u ∈ as.map ofPositive, ρ.Sized u :=
    List.forall_mem_map.2 fun a ha => (has a ha).1
  obtain ⟨hjoin, hextreme⟩ :=
    extremum_spread_spec (.inl rfl : Head.orderMax = .orderMax ∨ _) (by simpa using hne) hsized
  have hpos : ∀ y ∈ (as.map ofPositive).map ρ.val, 0 < y :=
    List.forall_mem_map.2 fun u hu => (hsized u hu).pos hroots
  have hrates := isExtremal_rate hpos hextreme
  have hmap : ((as.map ofPositive).map ρ.val).map rate = as.map fun a => rate (ρ.val a) := by
    rw [List.map_map, List.map_map]
    exact List.map_congr_left fun a ha => (has a ha).2
  rw [hmap] at hrates
  exact ⟨hjoin, hrates.unique hx⟩

theorem represents_times (hroots : HasRoots K) (hpos : ∀ a ∈ as, 0 < ρ.val a)
    (has : ∀ a ∈ as, ρ.Represents (ofPositive a) a) :
    ρ.Represents (times (ofPositiveList as)) (app .mul as) := by
  rw [ofPositiveList_eq_map]
  have hfactors : ∀ u ∈ as.map ofPositive, ρ.Sized u :=
    List.forall_mem_map.2 fun a ha => (has a ha).1
  obtain ⟨hsized, hrate⟩ := (sizing hroots ρ).times hfactors
  refine ⟨hsized, hrate.trans ?_⟩
  rw [val_mul, rate_prod (List.forall_mem_map.2 hpos), List.map_map, List.map_map]
  exact congrArg List.sum (List.map_congr_left fun a ha => (has a ha).2)

theorem represents_raise (hroots : HasRoots K) {b : Term} (hpos : 0 < ρ.val b)
    (hb : ρ.Represents (ofPositive b) b) (q : ℚ) :
    ρ.Represents (raise (ofPositive b) (num q)) (app .pow [b, num q]) := by
  obtain ⟨hsized, hrate⟩ := (sizing hroots ρ).raise hb.1 q
  refine ⟨hsized, hrate.trans ?_⟩
  rw [val_pow, rate_ratPower hroots hpos, hb.2]

theorem represents_ofPositive (hroots : HasRoots K) (ht : ρ.Valued t) (hpos : 0 < ρ.val t) {o : Term}
    (heq : ofPositive t = if t.isOrder then t else if t.isNumber then unit else o)
    (ho : ρ.Represents o t) : ρ.Represents (ofPositive t) t := by
  rw [heq, ht.isOrder, if_neg (by decide)]
  exact iteInduction (motive := fun o => ρ.Represents o t)
    (fun hnumber => represents_unit hroots ht hpos hnumber) fun _ => ho

/-- Parts that are all said to be positive are taken apart, and otherwise the quantity stands whole. -/
theorem represents_parts (ht : ρ.Valued t) (hpos : 0 < ρ.val t) (has : ∀ a ∈ as, ρ.Valued a)
    (hsigns : ∀ a ∈ as, ρ.SignsRight a)
    (ih : ∀ a ∈ as, ρ.SignsRight a → a.is .positive = true → ρ.Represents (ofPositive a) a) {o : Term}
    (ho : (∀ a ∈ as, 0 < ρ.val a) → (∀ a ∈ as, ρ.Represents (ofPositive a) a) → ρ.Represents o t) :
    ρ.Represents (if as.all (·.is .positive) then o else app .theta [t]) t := by
  refine iteInduction (motive := fun o => ρ.Represents o t) (fun hall => ?_)
    fun _ => represents_theta ht hpos
  have hall := List.all_eq_true.1 hall
  exact ho (fun a ha => (hsigns a ha).pos (has a ha) (hall a ha))
    fun a ha => ih a ha (hsigns a ha) (hall a ha)

/-- **The order of a positive quantity has its rate.** -/
theorem ofPositive_spec (hroots : HasRoots K) (ht : ρ.Valued t) (hsigns : ρ.SignsRight t)
    (hpositive : t.is .positive = true) : ρ.Represents (ofPositive t) t := by
  -- the heads that are not taken apart
  have hwhole : ∀ {u}, ρ.Valued u → ρ.SignsRight u → u.is .positive = true →
      ofPositive u = (if u.isOrder then u else if u.isNumber then unit else app .theta [u]) →
      ρ.Represents (ofPositive u) u := by
    intro u hu hsigns hpositive heq
    have hpos := hsigns.pos hu hpositive
    exact represents_ofPositive hroots hu hpos heq (represents_theta hu hpos)
  induction ht with
  | num q => exact hwhole (.num q) hsigns hpositive (by rw [ofPositive] <;> nofun)
  | var hv => exact hwhole (.var hv) hsigns hpositive (by rw [ofPositive] <;> nofun)
  | @add as has ih =>
    have hpos := hsigns.pos (.add has) hpositive
    refine represents_ofPositive hroots (.add has) hpos (by rw [ofPositive]) ?_
    refine represents_parts (.add has) hpos has (fun a ha => hsigns.of_mem ha) ih fun hparts hreps => ?_
    have hne : as ≠ [] := by
      rintro rfl
      simp [val_add] at hpos
    refine represents_join hroots hne hreps ?_
    have hvals : as.map ρ.val ≠ [] := by simpa using hne
    have hsum := isExtremal_rate_sum hvals (List.forall_mem_map.2 hparts)
    rwa [List.map_map, ← val_add] at hsum
  | mul has ih =>
    have hpos := hsigns.pos (.mul has) hpositive
    refine represents_ofPositive hroots (.mul has) hpos (by rw [ofPositive]) ?_
    exact represents_parts (.mul has) hpos has (fun a ha => hsigns.of_mem ha) ih
      fun hparts hreps => represents_times hroots hparts hreps
  | @pow b q hb hq ih =>
    have hpos := hsigns.pos (.pow hb hq) hpositive
    have hbase := hsigns.of_mem (List.mem_cons_self : b ∈ [b, num q])
    refine represents_ofPositive hroots (.pow hb hq) hpos (by rw [ofPositive]) ?_
    refine iteInduction (motive := fun o => ρ.Represents o _) (fun hparts => ?_)
      fun _ => represents_theta (.pow hb hq) hpos
    rw [Bool.and_eq_true, Bool.and_eq_true] at hparts
    exact represents_raise hroots (hbase.pos hb hparts.1.1) (ih hbase hparts.1.1) q
  | abs ha => exact hwhole (.abs ha) hsigns hpositive (by rw [ofPositive] <;> nofun)
  | max hne has ih =>
    have hpos := hsigns.pos (.max hne has) hpositive
    refine represents_ofPositive hroots (.max hne has) hpos (by rw [ofPositive]) ?_
    refine represents_parts (.max hne has) hpos has (fun a ha => hsigns.of_mem ha) ih
      fun hparts hreps => represents_join hroots hne hreps ?_
    have hmax := isExtremal_rate (h := .orderMax) (List.forall_mem_map.2 hparts) (isExtremal_max hne)
    rwa [List.map_map] at hmax
  | min hne has => exact hwhole (.min hne has) hsigns hpositive (by rw [ofPositive] <;> nofun)

end Regime
end Majorant
