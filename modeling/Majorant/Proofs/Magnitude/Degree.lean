import Majorant.Proofs.Comparison
import Majorant.Proofs.Magnitude.Logarithm

/-!
# Degrees of orders of magnitude

An assignment of exponents to the variables gives every order a degree.
-/

namespace Majorant
namespace Magnitude
open Term

mutual

/-- **The degree of an order**, for given exponents of the variables. -/
def degree (e : Variable → ℚ) : Term → ℚ
  | var v => e v
  | app .theta [var v] => e v
  | app .orderMul as => (degrees e as).sum
  | app .orderPow [b, num q] => q * degree e b
  | app .orderMax as => (degrees e as).max?.getD 0
  | app .orderMin as => (degrees e as).min?.getD 0
  | _ => 0

def degrees (e : Variable → ℚ) : List Term → List ℚ
  | [] => []
  | t :: ts => degree e t :: degrees e ts

end

theorem degrees_eq_map (e : Variable → ℚ) (ts : List Term) : degrees e ts = ts.map (degree e) := by
  induction ts with
  | nil => rfl
  | cons t ts ih => rw [degrees, ih, List.map_cons]

theorem degree_unit (e : Variable → ℚ) : degree e unit = 0 := rfl

theorem degree_orderMul (e : Variable → ℚ) (as : List Term) :
    degree e (app .orderMul as) = (as.map (degree e)).sum := by
  rw [degree, degrees_eq_map]

theorem degree_orderPow (e : Variable → ℚ) (b : Term) (q : ℚ) :
    degree e (app .orderPow [b, num q]) = q * degree e b := by
  rw [degree]

/-- How the arguments of an extremum compare with it. -/
def side : Head → Rel
  | .orderMin => .ge
  | _ => .le

theorem side_cases (h : Head) : side h = .le ∨ side h = .ge := by
  unfold side
  split
  · exact .inr rfl
  · exact .inl rfl

/-- The value is one of several, and the others compare with it in a given way. -/
def IsExtremal {M : Type} [LinearOrder M] (r : Rel) (ws : List M) (w : M) : Prop :=
  (∀ u ∈ ws, r.Compares u w) ∧ w ∈ ws

section Extreme

variable {M : Type} [LinearOrder M] {ws : List M}

theorem isExtremal_max? (hne : ws ≠ []) (d : M) : IsExtremal .le ws (ws.max?.getD d) := by
  obtain ⟨m, hm⟩ := Option.ne_none_iff_exists'.1 (mt List.max?_eq_none_iff.1 hne)
  rw [hm, Option.getD_some]
  exact (List.max?_eq_some_iff.1 hm).symm

theorem isExtremal_min? (hne : ws ≠ []) (d : M) : IsExtremal .ge ws (ws.min?.getD d) := by
  obtain ⟨m, hm⟩ := Option.ne_none_iff_exists'.1 (mt List.min?_eq_none_iff.1 hne)
  rw [hm, Option.getD_some]
  exact (List.min?_eq_some_iff.1 hm).symm

theorem compares_side_antisymm {h : Head} {u w : M} (huw : (side h).Compares u w)
    (hwu : (side h).Compares w u) : u = w := by
  rcases side_cases h with hside | hside <;> rw [hside] at huw hwu
  · exact le_antisymm huw hwu
  · exact le_antisymm hwu huw

theorem IsExtremal.unique {h : Head} {u w : M} (hu : IsExtremal (side h) ws u)
    (hw : IsExtremal (side h) ws w) : u = w :=
  compares_side_antisymm (hw.1 u hu.2) (hu.1 w hw.2)

theorem IsExtremal.of_eraseDups {r : Rel} {value : Term → M} {ts : List Term} {w : M}
    (hw : IsExtremal r (ts.eraseDups.map value) w) : IsExtremal r (ts.map value) w := by
  have hmem : ∀ x, x ∈ ts.eraseDups.map value ↔ x ∈ ts.map value := by
    simp only [List.mem_map, List.mem_eraseDups, implies_true]
  exact ⟨fun x hx => hw.1 x ((hmem x).2 hx), (hmem w).1 hw.2⟩

theorem isExtremal_singleton (h : Head) (w : M) : IsExtremal (side h) [w] w := by
  rcases side_cases h with hside | hside <;> simp [IsExtremal, hside, Rel.Compares]

/-- **A value under which an extremum is extreme** among its arguments. -/
def Extremes (h : Head) (value : Term → M) : Prop :=
  ∀ as : List Term, as ≠ [] → IsExtremal (side h) (as.map value) (value (app h as))

variable {h : Head} {value : Term → M} {t : Term} {ts : List Term}

theorem Extremes.extremum (hvalue : Extremes h value) (hne : ts ≠ []) :
    IsExtremal (side h) (ts.map value) (value (extremum h ts)) := by
  refine IsExtremal.of_eraseDups ?_
  unfold Magnitude.extremum
  split
  · next u heq =>
    rw [heq]
    exact isExtremal_singleton h (value u)
  · obtain ⟨u, hu⟩ := List.exists_mem_of_ne_nil ts hne
    exact hvalue _ (List.ne_nil_of_mem (List.mem_eraseDups.2 hu))

theorem mem_spread {u : Term} : u ∈ spread h ts ↔ ∃ t ∈ ts, u ∈ spread h [t] := by
  simp [spread]

theorem Extremes.spread_singleton (hvalue : Extremes h value) (ht : ∀ as, t = app h as → as ≠ []) :
    IsExtremal (side h) ((spread h [t]).map value) (value t) := by
  by_cases hnested : ∃ as, t = app h as
  · obtain ⟨as, rfl⟩ := hnested
    rw [spread_same]
    exact hvalue as (ht as rfl)
  · rw [spread_of_plain fun u hu bs heq => hnested ⟨bs, (List.mem_singleton.1 hu).symm.trans heq⟩]
    exact isExtremal_singleton h (value t)

theorem Extremes.of_spread (hvalue : Extremes h value)
    (hts : ∀ t ∈ ts, ∀ as, t = app h as → as ≠ []) {x : M}
    (hx : IsExtremal (side h) ((spread h ts).map value) x) : IsExtremal (side h) (ts.map value) x := by
  have hbound : ∀ t ∈ ts, (side h).Compares (value t) x := by
    intro t ht
    obtain ⟨u, hu, heq⟩ := List.mem_map.1 (hvalue.spread_singleton (hts t ht)).2
    rw [← heq]
    exact hx.1 _ (List.mem_map_of_mem (mem_spread.2 ⟨t, ht, hu⟩))
  refine ⟨List.forall_mem_map.2 hbound, ?_⟩
  -- the argument that is attained belongs to a term between it and the extreme value
  obtain ⟨u, hu, rfl⟩ := List.mem_map.1 hx.2
  obtain ⟨t, ht, hu⟩ := mem_spread.1 hu
  have hut := (hvalue.spread_singleton (hts t ht)).1 _ (List.mem_map_of_mem hu)
  exact List.mem_map.2 ⟨t, ht, compares_side_antisymm (hbound t ht) hut⟩

theorem spread_ne_nil (hne : ts ≠ []) (hts : ∀ t ∈ ts, ∀ as, t = app h as → as ≠ []) :
    spread h ts ≠ [] := by
  obtain ⟨t, ht⟩ := List.exists_mem_of_ne_nil ts hne
  suffices hpart : spread h [t] ≠ [] by
    obtain ⟨u, hu⟩ := List.exists_mem_of_ne_nil _ hpart
    exact List.ne_nil_of_mem (mem_spread.2 ⟨t, ht, hu⟩)
  by_cases hnested : ∃ as, t = app h as
  · obtain ⟨as, rfl⟩ := hnested
    rw [spread_same]
    exact hts _ ht as rfl
  · rw [spread_of_plain fun u hu bs heq => hnested ⟨bs, (List.mem_singleton.1 hu).symm.trans heq⟩]
    exact List.cons_ne_nil t []

/-- **Evaluating an extremum** gives the extreme value of its arguments. -/
theorem Extremes.extremum_spread (hvalue : Extremes h value) (hne : ts ≠ [])
    (hts : ∀ t ∈ ts, ∀ as, t = app h as → as ≠ []) :
    IsExtremal (side h) (ts.map value) (value (Magnitude.extremum h (spread h ts))) :=
  hvalue.of_spread hts (hvalue.extremum (spread_ne_nil hne hts))

end Extreme

theorem extremes_degree {h : Head} (hh : h = .orderMax ∨ h = .orderMin) (e : Variable → ℚ) :
    Extremes h (degree e) := by
  intro as hne
  have hmap : as.map (degree e) ≠ [] := by simpa using hne
  rcases hh with rfl | rfl <;> rw [degree, degrees_eq_map]
  · exact isExtremal_max? hmap 0
  · exact isExtremal_min? hmap 0

theorem degree_extremum_iff {h : Head} (hh : h = .orderMax ∨ h = .orderMin) {as : List Term}
    (hne : as ≠ []) (e : Variable → ℚ) (w : ℚ) :
    degree e (app h as) = w ↔ IsExtremal (side h) (as.map (degree e)) w :=
  have hextreme := extremes_degree hh e as hne
  ⟨fun heq => heq ▸ hextreme, fun hw => hextreme.unique hw⟩

/-- An extremum is one of its arguments, and lies on the right side of all of them. -/
def Attains (x : Term → ℚ) (h : Head) (as : List Term) : Prop :=
  IsExtremal (side h) (as.map (logarithm x)) (x (app h as))

namespace Composed

variable {N : Variable → Prop} {t : Term}

/-- **Degrees are logarithms** of the orders composed of the bases. -/
theorem logarithm_degree (ht : Composed N t) (e : Variable → ℚ) :
    logarithm (degree e) t = degree e t := by
  induction ht with
  | order => exact logarithm_of_isBase True.intro
  | theta => exact logarithm_of_isBase True.intro
  | unit => exact logarithm_unit
  | @product as has ih =>
    rw [logarithm_orderMul, degree_orderMul]
    exact congrArg List.sum (List.map_congr_left ih)
  | power _ q ih => rw [logarithm_orderPow, degree_orderPow, ih]
  | extremum hh => rcases hh with rfl | rfl <;> exact logarithm_of_isBase True.intro

theorem args_ne_nil {h : Head} {as : List Term} (ht : Composed N (app h as))
    (hh : h = .orderMax ∨ h = .orderMin) : as ≠ [] := by
  cases ht with
  | extremum _ hlength => exact List.ne_nil_of_length_pos (by omega)
  | _ => rcases hh with hh | hh <;> cases hh

theorem of_mem_args {h : Head} {as : List Term} (ht : Composed N (app h as))
    (hh : h = .orderMax ∨ h = .orderMin) : ∀ a ∈ as, Composed N a := by
  cases ht with
  | extremum _ _ _ _ has => exact has
  | _ => rcases hh with hh | hh <;> cases hh

theorem attains_degree {h : Head} {as : List Term} (ht : Composed N (app h as))
    (hh : h = .orderMax ∨ h = .orderMin) (e : Variable → ℚ) : Attains (degree e) h as := by
  have hmap : as.map (logarithm (degree e)) = as.map (degree e) :=
    List.map_congr_left fun a ha => (ht.of_mem_args hh a ha).logarithm_degree e
  unfold Attains
  rw [hmap]
  exact (degree_extremum_iff hh (ht.args_ne_nil hh) e _).1 rfl

end Composed

theorem mem_extremaList {h : Head} {ts : List Term} {m : Term} :
    m ∈ extremaList h ts ↔ ∃ t ∈ ts, m ∈ extrema h t := by
  induction ts with
  | nil => simp [extremaList]
  | cons t ts ih => rw [extremaList, List.mem_append, ih, List.exists_mem_cons_iff]

variable {g h : Head} {as : List Term} {m : Term}

theorem mem_extrema_orderMul (hh : h = .orderMax ∨ h = .orderMin) :
    m ∈ extrema h (app .orderMul as) ↔ ∃ a ∈ as, m ∈ extrema h a := by
  rw [← mem_extremaList]
  rcases hh with rfl | rfl <;> simp [extrema, entersExtrema]

theorem mem_extrema_orderPow {b e : Term} :
    m ∈ extrema h (app .orderPow [b, e]) ↔ m ∈ extrema h b := by
  rw [extrema]

theorem mem_extrema_extremum (hg : g = .orderMax ∨ g = .orderMin) :
    m ∈ extrema h (app g as) ↔ (g = h ∧ m = app g as) ∨ ∃ a ∈ as, m ∈ extrema h a := by
  rw [← mem_extremaList]
  by_cases hgh : g = h
  · rcases hg with rfl | rfl <;> simp [extrema, entersExtrema, hgh]
  · rcases hg with rfl | rfl <;> simp [extrema, entersExtrema, hgh]

/-- A property that passes to the arguments which a walk through the extrema enters, passes to the
extrema. -/
theorem of_mem_extrema {P : Term → Prop}
    (hargs : ∀ {g as}, P (app g as) → entersExtrema g = true → ∀ a ∈ as, P a)
    (hbase : ∀ {b cs}, P (app .orderPow (b :: cs)) → P b) {t : Term} (ht : P t)
    (hm : m ∈ extrema h t) : ∃ as, m = app h as ∧ P m := by
  induction hn : sizeOf t using Nat.strong_induction_on generalizing t with
  | _ n ih =>
  subst hn
  unfold extrema at hm
  split at hm
  · next b cs =>
    refine ih _ ?_ (hbase ht) hm rfl
    simp only [app.sizeOf_spec, List.cons.sizeOf_spec]
    omega
  · next g as _ =>
    rcases List.mem_append.1 hm with hm | hm
    · by_cases hgh : g = h
      · rw [if_pos hgh] at hm
        rw [List.mem_singleton.1 hm]
        exact ⟨as, by rw [hgh], ht⟩
      · rw [if_neg hgh] at hm
        cases hm
    · by_cases henters : entersExtrema g = true
      · rw [if_pos henters] at hm
        obtain ⟨a, ha, hm⟩ := mem_extremaList.1 hm
        refine ih _ ?_ (hargs ht henters a ha) hm rfl
        have := List.sizeOf_lt_of_mem ha
        simp only [app.sizeOf_spec]
        omega
      · rw [if_neg henters] at hm
        cases hm
  · cases hm

theorem Composed.of_mem_extrema {N : Variable → Prop} {t : Term} (ht : Composed N t)
    (hm : m ∈ extrema h t) : ∃ as, m = app h as ∧ Composed N m := by
  refine Magnitude.of_mem_extrema (P := Composed N) (fun hg henters => ?_) (fun hpow => ?_) ht hm
  · cases hg with
    | product has => exact has
    | extremum _ _ _ _ has => exact has
    | _ => cases henters
  · obtain ⟨_, _, heq, hb⟩ := hpow.of_power
    cases heq
    exact hb

def RespectsExtrema (x : Term → ℚ) (t : Term) : Prop :=
  ∀ h, h = .orderMax ∨ h = .orderMin → ∀ as, app h as ∈ extrema h t → Attains x h as

def atom (v : Variable) : Term := if v.kind = .order then var v else app .theta [var v]

theorem kind_ne_order_of_positive {v : Variable} (h : (var v).is .positive = true) :
    v.kind ≠ .order := by
  intro hkind
  rw [Term.is, facts_var, hkind] at h
  revert h
  decide

/-- **Logarithms that respect extrema are degrees.** -/
theorem Composed.degree_eq_logarithm {N : Variable → Prop} {t : Term} {x : Term → ℚ}
    (ht : Composed N t) (hx : RespectsExtrema x t) :
    degree (fun v => x (atom v)) t = logarithm x t := by
  induction ht with
  | order _ hv =>
    rw [logarithm_of_isBase (show IsBase (var _) from True.intro), degree, atom, if_pos hv]
  | theta _ hv =>
    rw [logarithm_of_isBase (show IsBase (app .theta [var _]) from True.intro), degree, atom,
      if_neg (kind_ne_order_of_positive hv)]
  | unit => exact logarithm_unit.symm
  | product _ ih =>
    rw [logarithm_orderMul, degree_orderMul]
    refine congrArg List.sum (List.map_congr_left fun a ha => ih a ha ?_)
    exact fun h hh as hm => hx h hh as ((mem_extrema_orderMul hh).2 ⟨a, ha, hm⟩)
  | power _ q ih =>
    rw [logarithm_orderPow, degree_orderPow, ih]
    exact fun h hh as hm => hx h hh as (mem_extrema_orderPow.2 hm)
  | @extremum g as hg hlength _ _ _ ih =>
    have hmap : as.map (degree fun v => x (atom v)) = as.map (logarithm x) :=
      List.map_congr_left fun a ha =>
        ih a ha fun h hh bs hm => hx h hh bs ((mem_extrema_extremum hg).2 (.inr ⟨a, ha, hm⟩))
    have hbase : logarithm x (app g as) = x (app g as) := by
      rcases hg with rfl | rfl <;> exact logarithm_of_isBase True.intro
    rw [hbase, degree_extremum_iff hg (List.ne_nil_of_length_pos (by omega)), hmap]
    exact hx g hg as ((mem_extrema_extremum hg).2 (.inl ⟨rfl, rfl⟩))

end Magnitude
end Majorant
