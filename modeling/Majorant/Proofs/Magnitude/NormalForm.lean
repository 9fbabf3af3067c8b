import Majorant.Proofs.Magnitude.Degree

/-!
# The normal form of orders of magnitude

Products gather like factors, powers are spread over products, and nested extrema are spread out.
-/

namespace Majorant
namespace Magnitude
open Term

theorem Composed.sizing_degree (N : Variable → Prop) (e : Variable → ℚ) :
    Sizing (Composed N) (degree e) where
  isOrder h := h.isOrder
  evades h := h.evades
  ofLiteral h := h.ofLiteral
  unit := .unit
  size_unit := degree_unit e
  product h := .product h
  of_product h := h.of_mem_product
  size_product _ := degree_orderMul e _
  power q h := h.power q
  of_power h := h.of_power
  size_power q _ := degree_orderPow e _ q
  join h := by
    rw [h.join_eq]
    exact ⟨h, rfl⟩
  meet h := by
    rw [h.meet_eq]
    exact ⟨h, rfl⟩

/-- A factor of a product: neither the unit nor a product itself. -/
def IsFactor (t : Term) : Prop := t ≠ unit ∧ ∀ as, t ≠ app .orderMul as

/-- **Orders in normal form.**  Extrema occur only if `X` holds. -/
inductive Normal (X : Prop) : Term → Prop
  | order {v : Variable} (hv : v.kind = .order) : Normal X (var v)
  | theta {v : Variable} (hv : (var v).is .positive = true) : Normal X (app .theta [var v])
  | unit : Normal X unit
  | product {as : List Term} (hlength : 2 ≤ as.length)
      (hbases : (as.map fun a => (baseExponent a).1).Nodup) (hfactors : ∀ a ∈ as, IsFactor a)
      (has : ∀ a ∈ as, Normal X a) : Normal X (app .orderMul as)
  | power {b : Term} {q : ℚ} (hb : Normal X b) (hbase : IsBase b) (hzero : q ≠ 0) (hone : q ≠ 1) :
      Normal X (app .orderPow [b, num q])
  | extremum {h : Head} {as : List Term} (hX : X) (hh : h = .orderMax ∨ h = .orderMin)
      (hlength : 2 ≤ as.length) (hdistinct : as.Nodup) (hplain : ∀ a ∈ as, ∀ bs, a ≠ app h bs)
      (has : ∀ a ∈ as, Normal X a) : Normal X (app h as)

theorem IsBase.ne_unit {t : Term} (h : IsBase t) : t ≠ unit := by
  rintro rfl
  exact h

theorem IsBase.ne_orderMul {t : Term} (h : IsBase t) : ∀ as, t ≠ app .orderMul as := by
  rintro as rfl
  exact h

theorem IsBase.ne_orderPow {t : Term} (h : IsBase t) : ∀ cs, t ≠ app .orderPow cs := by
  rintro cs rfl
  exact h

theorem IsBase.isFactor {t : Term} (h : IsBase t) : IsFactor t := ⟨h.ne_unit, h.ne_orderMul⟩

theorem baseExponent_of_isBase {t : Term} (h : IsBase t) : baseExponent t = (t, one) := by
  unfold baseExponent
  split
  · exact absurd rfl (h.ne_orderPow _)
  · rfl

namespace Normal

variable {X : Prop} {t b : Term} {ts as : List Term} {h : Head} {q : ℚ}

theorem composed (ht : Normal X t) : Composed (fun _ => True) t := by
  induction ht with
  | order hv => exact .order True.intro hv
  | theta hv => exact .theta True.intro hv
  | unit => exact .unit
  | product _ _ _ _ ih => exact .product ih
  | power _ _ _ _ ih => exact .power ih _
  | extremum _ hh hlength hdistinct hplain _ ih => exact .extremum hh hlength hdistinct hplain ih

theorem of_args (hh : h = .orderMul ∨ h = .orderMax ∨ h = .orderMin) (ht : Normal X (app h as)) :
    ∀ a ∈ as, Normal X a ∧ ∀ bs, a ≠ app h bs := by
  cases ht with
  | theta => rcases hh with hh | hh | hh <;> cases hh
  | unit => rcases hh with hh | hh | hh <;> cases hh
  | power => rcases hh with hh | hh | hh <;> cases hh
  | product _ _ hfactors has => exact fun a ha => ⟨has a ha, (hfactors a ha).2⟩
  | extremum _ _ _ _ hplain has => exact fun a ha => ⟨has a ha, hplain a ha⟩

theorem two_le_length (hh : h = .orderMul ∨ h = .orderMax ∨ h = .orderMin)
    (ht : Normal X (app h as)) : 2 ≤ as.length := by
  cases ht with
  | theta => rcases hh with hh | hh | hh <;> cases hh
  | unit => rcases hh with hh | hh | hh <;> cases hh
  | power => rcases hh with hh | hh | hh <;> cases hh
  | product hlength => exact hlength
  | extremum _ _ hlength => exact hlength

theorem spread (hh : h = .orderMul ∨ h = .orderMax ∨ h = .orderMin) (hts : ∀ t ∈ ts, Normal X t) :
    ∀ u ∈ spread h ts, Normal X u ∧ ∀ bs, u ≠ app h bs := by
  intro u hu
  obtain ⟨t, ht, hu⟩ := mem_spread.1 hu
  by_cases hnested : ∃ as, t = app h as
  · obtain ⟨as, rfl⟩ := hnested
    rw [spread_same] at hu
    exact (hts _ ht).of_args hh u hu
  · rw [spread_of_plain fun u hu bs heq => hnested ⟨bs, (List.mem_singleton.1 hu).symm.trans heq⟩] at hu
    rw [List.mem_singleton.1 hu]
    exact ⟨hts t ht, not_exists.1 hnested⟩

theorem rawPower (hb : Normal X b) (hbase : IsBase b) (q : ℚ) : Normal X (rawPower b (num q)) := by
  unfold Magnitude.rawPower
  by_cases hzero : num q = zero
  · rw [if_pos hzero]
    exact .unit
  by_cases hone : num q = one
  · rw [if_neg hzero, if_pos hone]
    exact hb
  · rw [if_neg hzero, if_neg hone, if_neg hbase.ne_unit]
    exact .power hb hbase (fun hq => hzero (by rw [hq]; rfl)) fun hq => hone (by rw [hq]; rfl)

theorem isFactor_rawPower (hbase : IsBase b) (hq : q ≠ 0) :
    IsFactor (Magnitude.rawPower b (num q)) ∧
      baseExponent (Magnitude.rawPower b (num q)) = (b, num q) := by
  unfold Magnitude.rawPower
  have hzero : num q ≠ zero := fun heq => hq (by simpa [zero] using heq)
  by_cases hone : num q = one
  · rw [if_neg hzero, if_pos hone, hone]
    exact ⟨hbase.isFactor, baseExponent_of_isBase hbase⟩
  · rw [if_neg hzero, if_neg hone, if_neg hbase.ne_unit]
    exact ⟨⟨by simp [Magnitude.unit], nofun⟩, rfl⟩

theorem exists_rawPower (ht : Normal X t) (hfactor : IsFactor t) :
    ∃ b q, Normal X b ∧ IsBase b ∧ q ≠ 0 ∧ t = Magnitude.rawPower b (num q) := by
  have hself : IsBase t → ∃ b q, Normal X b ∧ IsBase b ∧ q ≠ 0 ∧ t = Magnitude.rawPower b (num q) :=
    fun hbase => ⟨t, 1, ht, hbase, one_ne_zero, rfl⟩
  cases ht with
  | order => exact hself True.intro
  | theta => exact hself True.intro
  | unit => exact absurd rfl hfactor.1
  | product => exact absurd rfl (hfactor.2 _)
  | extremum _ hh => rcases hh with rfl | rfl <;> exact hself True.intro
  | @power b q hb hbase hzero hone =>
    refine ⟨b, q, hb, hbase, hzero, ?_⟩
    unfold Magnitude.rawPower
    rw [if_neg (by simpa [zero] using hzero), if_neg (by simpa [one] using hone),
      if_neg hbase.ne_unit]

theorem rawTimes (hts : ∀ t ∈ ts, Normal X t) (hfactors : ∀ t ∈ ts, IsFactor t)
    (hbases : (ts.map fun t => (baseExponent t).1).Nodup) : Normal X (rawTimes ts) := by
  match ts with
  | [] => exact .unit
  | [t] => exact hts t (List.mem_singleton_self t)
  | t :: u :: us => exact .product (by simp) hbases hfactors hts

/-- Factors gathered by base: bases in normal form with numbers for exponents, each base once. -/
structure Gathered (X : Prop) (ps : List (Term × Term)) : Prop where
  nodup : (ps.map (·.1)).Nodup
  base : ∀ p ∈ ps, Normal X p.1 ∧ IsBase p.1
  numeric : ∀ p ∈ ps, ∃ q, p.2 = num q

theorem gather {ps : List (Term × Term)} (hps : Gathered X ps) (ht : Normal X t)
    (hmul : ∀ as, t ≠ app .orderMul as) : Gathered X (gather ps t) := by
  by_cases hunit : t = Magnitude.unit
  · rw [Magnitude.gather, if_pos hunit]
    exact hps
  obtain ⟨b, q, hb, hbase, hq, rfl⟩ := ht.exists_rawPower ⟨hunit, hmul⟩
  rw [Sizing.gather_eq hunit (isFactor_rawPower hbase hq).2]
  refine ⟨nodup_putEntry hps.nodup, forall_mem_putEntry hps.base ⟨hb, hbase⟩ fun _ _ => ⟨hb, hbase⟩,
    forall_mem_putEntry hps.numeric ⟨q, rfl⟩ ?_⟩
  rintro _ ⟨p, rfl⟩
  exact ⟨p + q, sum_num_num p q⟩

theorem foldl_gather {ps : List (Term × Term)} (hps : Gathered X ps)
    (hts : ∀ t ∈ ts, Normal X t ∧ ∀ as, t ≠ app .orderMul as) :
    Gathered X (ts.foldl Magnitude.gather ps) := by
  induction ts generalizing ps with
  | nil => exact hps
  | cons t ts ih =>
    obtain ⟨ht, hrest⟩ := List.forall_mem_cons.1 hts
    exact ih (gather hps ht.1 ht.2) hrest

/-- **Products of orders in normal form** are in normal form. -/
theorem times (hts : ∀ t ∈ ts, Normal X t) : Normal X (times ts) := by
  have hps : Gathered X ((Magnitude.spread .orderMul ts).foldl Magnitude.gather []) :=
    foldl_gather ⟨List.nodup_nil, nofun, nofun⟩ (spread (.inl rfl) hts)
  unfold Magnitude.times
  dsimp only
  generalize (Magnitude.spread .orderMul ts).foldl Magnitude.gather [] = ps at hps
  have hpart : ∀ p ∈ ps.filter (·.2 ≠ zero), Normal X (Magnitude.rawPower p.1 p.2) ∧
      IsFactor (Magnitude.rawPower p.1 p.2) ∧
        (baseExponent (Magnitude.rawPower p.1 p.2)).1 = p.1 := by
    intro p hp
    obtain ⟨hmem, hne⟩ := List.mem_filter.1 hp
    obtain ⟨hb, hbase⟩ := hps.base p hmem
    obtain ⟨q, hq⟩ := hps.numeric p hmem
    have hzero : q ≠ 0 := by
      rintro rfl
      exact of_decide_eq_true hne hq
    rw [hq]
    exact ⟨hb.rawPower hbase q, (isFactor_rawPower hbase hzero).1,
      by rw [(isFactor_rawPower hbase hzero).2]⟩
  refine rawTimes (List.forall_mem_map.2 fun p hp => (hpart p hp).1)
    (List.forall_mem_map.2 fun p hp => (hpart p hp).2.1) ?_
  have hbases : ((ps.filter (·.2 ≠ zero)).map fun p => Magnitude.rawPower p.1 p.2).map
      (fun t => (baseExponent t).1) = (ps.filter (·.2 ≠ zero)).map (·.1) := by
    rw [List.map_map]
    exact List.map_congr_left fun p hp => (hpart p hp).2.2
  rw [hbases]
  exact hps.nodup.sublist (List.filter_sublist.map _)

theorem foldl_gather_eq {ps : List (Term × Term)} (hts : ∀ t ∈ ts, Normal X t)
    (hfactors : ∀ t ∈ ts, IsFactor t)
    (hnodup : (ps.map (·.1) ++ ts.map fun t => (baseExponent t).1).Nodup) :
    ts.foldl Magnitude.gather ps = ps ++ ts.map baseExponent := by
  induction ts generalizing ps with
  | nil => simp
  | cons t ts ih =>
    obtain ⟨hfactor, hfactors⟩ := List.forall_mem_cons.1 hfactors
    have hnew : (baseExponent t).1 ∉ ps.map (·.1) := by
      intro hmem
      exact (List.nodup_append.1 hnodup).2.2 _ hmem _ List.mem_cons_self rfl
    have hstep : Magnitude.gather ps t = ps ++ [baseExponent t] := by
      rw [Sizing.gather_eq hfactor.1 (Prod.eta (baseExponent t)).symm, putEntry_of_notMem hnew]
    rw [List.foldl_cons, hstep, ih (List.forall_mem_cons.1 hts).2 hfactors, List.append_assoc]
    · rfl
    · rw [List.map_append, List.append_assoc]
      exact hnodup

/-- **A product in normal form** is left alone. -/
theorem times_eq (ht : Normal X (app .orderMul as)) : Magnitude.times as = app .orderMul as := by
  cases ht with
  | extremum _ hh => rcases hh with hh | hh <;> cases hh
  | product hlength hbases hfactors has =>
    have hspread : Magnitude.spread .orderMul as = as := spread_of_plain fun a ha => (hfactors a ha).2
    have hgather : as.foldl Magnitude.gather [] = as.map baseExponent :=
      foldl_gather_eq has hfactors hbases
    have hpart : ∀ a ∈ as, (baseExponent a).2 ≠ zero ∧
        Magnitude.rawPower (baseExponent a).1 (baseExponent a).2 = a := by
      intro a ha
      obtain ⟨b, q, hb, hbase, hq, heq⟩ := (has a ha).exists_rawPower (hfactors a ha)
      rw [heq, (isFactor_rawPower hbase hq).2]
      exact ⟨by simpa [zero] using hq, rfl⟩
    have hfilter : ((as.map baseExponent).filter (·.2 ≠ zero)) = as.map baseExponent :=
      List.filter_eq_self.2 (List.forall_mem_map.2 fun a ha => decide_eq_true (hpart a ha).1)
    have hparts : (as.map baseExponent).map (fun p => Magnitude.rawPower p.1 p.2) = as := by
      rw [List.map_map]
      exact (List.map_congr_left fun a ha => (hpart a ha).2).trans (List.map_id' as)
    unfold Magnitude.times
    dsimp only
    rw [hspread, hgather, hfilter, hparts]
    match as, hlength with
    | _ :: _ :: _, _ => rfl

theorem refresh_eq (ht : Normal X t) (n : ℕ) : refreshWith (raiseAux n) t = t := by
  have hcomposed := ht.composed
  cases ht with
  | order => rfl
  | theta => rfl
  | unit => rfl
  | product hlength hbases hfactors has => exact times_eq (.product hlength hbases hfactors has)
  | power _ hbase => exact Sizing.raiseAux_of_plain hbase.ne_orderPow hbase.ne_orderMul n _
  | extremum _ hh =>
    rcases hh with rfl | rfl
    · exact hcomposed.join_eq
    · exact hcomposed.meet_eq

/-- A power of a factor: only a factor that is a power itself is touched. -/
theorem raiseAux_of_isFactor (ht : Normal X t) (hfactor : IsFactor t) (hzero : q ≠ 0) (hone : q ≠ 1)
    (n : ℕ) : Normal X (raiseAux (n + 1) t (num q)) := by
  obtain ⟨b, p, hb, hbase, hp, heq⟩ := ht.exists_rawPower hfactor
  by_cases hone' : p = 1
  · have hself : t = b := by rw [heq, hone']; rfl
    rw [hself, Sizing.raiseAux_of_plain hbase.ne_orderPow hbase.ne_orderMul]
    exact .power hb hbase hzero hone
  · have hpower : t = app .orderPow [b, num p] := by
      rw [heq, Magnitude.rawPower, if_neg (by simpa [zero] using hp), if_neg (by simpa [one] using hone'),
        if_neg hbase.ne_unit]
    have hraw := hb.rawPower hbase (q * p)
    rw [hpower, raiseAux, product_num_num, hraw.refresh_eq, hraw.refresh_eq]
    exact hraw

/-- **Powers of orders in normal form** are in normal form. -/
theorem raise (ht : Normal X t) (q : ℚ) : Normal X (Magnitude.raise t (num q)) := by
  by_cases htrivial : num q = zero ∨ num q = one ∨ t = Magnitude.unit
  · rw [Sizing.raise_eq_rawPower htrivial, Magnitude.rawPower]
    by_cases hzero : num q = zero
    · rw [if_pos hzero]
      exact .unit
    by_cases hone : num q = one
    · rw [if_neg hzero, if_pos hone]
      exact ht
    · rw [if_neg hzero, if_neg hone, if_pos ((htrivial.resolve_left hzero).resolve_left hone)]
      exact .unit
  rw [not_or, not_or] at htrivial
  obtain ⟨hzero, hone, hunit⟩ := htrivial
  have hq : q ≠ 0 ∧ q ≠ 1 := ⟨by simpa [zero] using hzero, by simpa [one] using hone⟩
  obtain ⟨n, hn⟩ : ∃ n, 2 * t.size = n + 2 := by
    cases t <;> simp only [size, mul_add] <;> exact ⟨_, Nat.add_comm _ _⟩
  rw [Sizing.raise_eq_raiseAux hzero hone hunit, hn]
  by_cases hmul : ∃ as, t = app .orderMul as
  · obtain ⟨as, rfl⟩ := hmul
    rw [raiseAux]
    refine times (List.forall_mem_map.2 fun a ha => ?_)
    cases ht with
    | product _ _ hfactors has =>
      rw [raiseFactorWith, (has a ha).refresh_eq, Magnitude.rawPower, if_neg hzero, if_neg hone, if_neg (hfactors a ha).1]
      exact (has a ha).raiseAux_of_isFactor (hfactors a ha) hq.1 hq.2 n
    | extremum _ hh => rcases hh with hh | hh <;> cases hh
  · exact ht.raiseAux_of_isFactor ⟨hunit, not_exists.1 hmul⟩ hq.1 hq.2 _

theorem extremum_of_plain (hX : X) (hh : h = .orderMax ∨ h = .orderMin) (hne : ts ≠ [])
    (hts : ∀ t ∈ ts, Normal X t ∧ ∀ bs, t ≠ app h bs) : Normal X (Magnitude.extremum h ts) := by
  have hmem : ∀ {u}, u ∈ ts.eraseDups ↔ u ∈ ts := List.mem_eraseDups
  unfold Magnitude.extremum
  split
  · next u heq => exact (hts u (hmem.1 (by rw [heq]; exact List.mem_singleton_self u))).1
  · next hsingle =>
    refine .extremum hX hh ?_ (nodup_eraseDups ts) (fun u hu => (hts u (hmem.1 hu)).2)
      fun u hu => (hts u (hmem.1 hu)).1
    obtain ⟨u, hu⟩ := List.exists_mem_of_ne_nil ts hne
    have hu := hmem.2 hu
    match hlist : ts.eraseDups with
    | [] => simp [hlist] at hu
    | [u] => exact absurd hlist (hsingle u)
    | _ :: _ :: _ => simp

theorem nested_ne_nil (hh : h = .orderMax ∨ h = .orderMin) (hts : ∀ t ∈ ts, Normal X t) :
    ∀ t ∈ ts, ∀ as, t = app h as → as ≠ [] := by
  rintro _ ht as rfl
  have hlength := (hts _ ht).two_le_length (.inr hh)
  exact List.ne_nil_of_length_pos (by omega)

/-- **Extrema of orders in normal form**, nested ones spread out, are in normal form. -/
theorem extremum_spread (hX : X) (hh : h = .orderMax ∨ h = .orderMin) (hne : ts ≠ [])
    (hts : ∀ t ∈ ts, Normal X t) : Normal X (Magnitude.extremum h (Magnitude.spread h ts)) :=
  extremum_of_plain hX hh (spread_ne_nil hne (nested_ne_nil hh hts)) (spread (.inr hh) hts)

theorem degree_extremum_spread (hh : h = .orderMax ∨ h = .orderMin) (hne : ts ≠ [])
    (hts : ∀ t ∈ ts, Normal X t) (e : Variable → ℚ) :
    IsExtremal (side h) (ts.map (degree e))
      (degree e (Magnitude.extremum h (Magnitude.spread h ts))) :=
  (extremes_degree hh e).extremum_spread hne (nested_ne_nil hh hts)

theorem theta_of_positive {v : Variable} (hv : (var v).is .positive = true) :
    Magnitude.theta (var v) = pure (app .theta [var v]) := by
  have horder : (var v).isOrder = false := by simp [isOrder, kind_ne_order_of_positive hv]
  have hpositive : ofPositive (var v) = app .theta [var v] := by
    unfold ofPositive
    rw [horder]
    rfl
  have htheta : Magnitude.theta (var v) =
      if (var v).isOrder then pure (var v)
      else if (var v).is .positive then pure (ofPositive (var v))
      else warn (var v).text := rfl
  rw [htheta, horder, hv, hpositive]
  rfl

theorem theta_eq (ht : Normal X t) : Magnitude.theta t = pure t :=
  theta_of_isOrder ht.composed.isOrder ht.composed.evades

theorem extremal_eq (name : String) (hne : ts ≠ []) (hts : ∀ t ∈ ts, Normal X t) :
    extremal h name ts = pure (Magnitude.extremum h ts) := by
  have hmap : ts.mapM Magnitude.theta = pure ts := by
    have hmap := Outcome.mapM_eq_pure (f := Magnitude.theta) (g := id) fun t ht => (hts t ht).theta_eq
    rwa [List.map_id] at hmap
  unfold extremal
  rw [hmap, pure_bind]
  cases ts with
  | nil => exact absurd rfl hne
  | cons => rfl

theorem settle_extremum (hh : h = .orderMax ∨ h = .orderMin) (hne : ts ≠ [])
    (hts : ∀ t ∈ ts, Normal X t) :
    Evaluation.settle (app h ts) = pure (Magnitude.extremum h (Magnitude.spread h ts)) := by
  have hspread := spread (.inr hh) hts
  have hne := spread_ne_nil hne (nested_ne_nil hh hts)
  rcases hh with rfl | rfl
  · exact extremal_eq "OrderMax" hne fun u hu => (hspread u hu).1
  · exact extremal_eq "OrderMin" hne fun u hu => (hspread u hu).1

/-- **Evaluating an order in normal form** leaves it alone. -/
theorem settle_eq (ht : Normal X t) : Evaluation.settle t = pure t := by
  have hcomposed := ht.composed
  cases ht with
  | order => rfl
  | theta hv => exact theta_of_positive hv
  | unit => rfl
  | product hlength hbases hfactors has =>
    have htimes := times_eq (.product hlength hbases hfactors has)
    exact ((Composed.sizing_degree _ 0).multiplyGathered_eq hcomposed.of_mem_product).trans (by rw [htimes])
  | @power b q hb hbase hzero hone =>
    refine ((Composed.sizing_degree _ 0).toPowerSpread_eq hb.composed _).trans ?_
    rw [Sizing.raise_of_plain hbase.ne_orderPow hbase.ne_orderMul (by simpa [zero] using hzero)
      (by simpa [one] using hone) hbase.ne_unit]
  | extremum hX hh hlength hdistinct hplain has =>
    rw [settle_extremum hh (List.ne_nil_of_length_pos (by omega)) has, spread_of_plain hplain,
      Composed.extremum_of_distinct hlength hdistinct]

end Normal

def factors (t : Term) : List Term :=
  match t with
  | app .orderMul as => as
  | t => if t = unit then [] else [t]

theorem degree_atom (e : Variable → ℚ) (v : Variable) : degree e (atom v) = e v := by
  unfold atom
  split <;> rw [degree]

namespace Normal

variable {X : Prop} {t u : Term}

theorem factors_eq (ht : IsFactor t) : factors t = [t] := by
  unfold factors
  split
  · exact absurd rfl (ht.2 _)
  · exact if_neg ht.1

theorem factors_spec (ht : Normal X t) :
    ((factors t).map fun a => (baseExponent a).1).Nodup ∧ (∀ a ∈ factors t, IsFactor a) ∧
      ∀ a ∈ factors t, Normal X a := by
  have hself : Normal X t → IsFactor t → ((factors t).map fun a => (baseExponent a).1).Nodup ∧
      (∀ a ∈ factors t, IsFactor a) ∧ ∀ a ∈ factors t, Normal X a := by
    intro ht hfactor
    rw [factors_eq hfactor]
    exact ⟨List.nodup_singleton _, List.forall_mem_singleton.2 hfactor, List.forall_mem_singleton.2 ht⟩
  by_cases hmul : ∃ as, t = app .orderMul as
  · obtain ⟨as, rfl⟩ := hmul
    cases ht with
    | product _ hbases hfactors has => exact ⟨hbases, hfactors, has⟩
    | extremum _ hh => rcases hh with hh | hh <;> cases hh
  by_cases hunit : t = Magnitude.unit
  · rw [hunit]
    exact ⟨List.nodup_nil, nofun, nofun⟩
  · exact hself ht ⟨hunit, not_exists.1 hmul⟩

theorem degree_eq_sum (e : Variable → ℚ) (t : Term) : degree e t = ((factors t).map (degree e)).sum := by
  unfold factors
  split
  · exact degree_orderMul e _
  · by_cases hunit : t = Magnitude.unit
    · rw [if_pos hunit, hunit]
      rfl
    · rw [if_neg hunit]
      simp

theorem exists_atom {b : Term} (hb : Normal False b) (hbase : IsBase b) : ∃ v, b = atom v := by
  cases hb with
  | @order v hv => exact ⟨v, by rw [atom, if_pos hv]⟩
  | @theta v hv =>
    exact ⟨v, by rw [atom, if_neg (kind_ne_order_of_positive hv)]⟩
  | unit => exact hbase.elim
  | product => exact hbase.elim
  | power => exact hbase.elim
  | extremum hX => exact hX.elim

/-- **The factors of an order without extrema** are powers of variables, each of them once: the exponent
is the degree where only that variable counts. -/
theorem factor_spec (ht : Normal False t) {a : Term} (ha : a ∈ factors t) :
    ∃ v q, q ≠ 0 ∧ a = Magnitude.rawPower (atom v) (num q) ∧ (∀ e, degree e a = q * e v) ∧
      degree (fun w => if w = v then 1 else 0) t = q := by
  obtain ⟨hbases, hfactors, hnormal⟩ := ht.factors_spec
  have hpower : ∀ c ∈ factors t, ∃ v q, q ≠ 0 ∧ c = Magnitude.rawPower (atom v) (num q) ∧
      baseExponent c = (atom v, num q) ∧ ∀ e, degree e c = q * e v := by
    intro c hc
    obtain ⟨b, q, hb, hbase, hq, rfl⟩ := (hnormal c hc).exists_rawPower (hfactors c hc)
    obtain ⟨v, rfl⟩ := hb.exists_atom hbase
    refine ⟨v, q, hq, rfl, (isFactor_rawPower hbase hq).2, fun e => ?_⟩
    rw [((Composed.sizing_degree _ e).rawPower hb.composed q).2, degree_atom, smul_eq_mul]
  obtain ⟨v, q, hq, heq, hbase, hdegree⟩ := hpower a ha
  refine ⟨v, q, hq, heq, hdegree, ?_⟩
  rw [degree_eq_sum, List.sum_map_eq_nsmul_single a, hdegree, if_pos rfl, mul_one,
    List.count_eq_one_of_mem (hbases.of_map _) ha, one_nsmul]
  -- another factor has another base, hence another variable
  intro c hne hc
  obtain ⟨w, p, -, -, hbase', hdegree'⟩ := hpower c hc
  have hvw : w ≠ v := by
    rintro rfl
    exact hne (List.inj_on_of_nodup_map hbases hc ha (by rw [hbase, hbase']))
  rw [hdegree', if_neg hvw, mul_zero]

theorem mem_factors_of_degree (ht : Normal False t) (hu : Normal False u)
    (hdegree : ∀ e, degree e t = degree e u) {a : Term} (ha : a ∈ factors t) : a ∈ factors u := by
  obtain ⟨v, q, hq, heq, -, hcoeff⟩ := ht.factor_spec ha
  rw [hdegree] at hcoeff
  -- the degree comes from some factor of the other order, which is a power of the same variable
  obtain ⟨c, hc, hne⟩ : ∃ c ∈ factors u, degree (fun w => if w = v then (1 : ℚ) else 0) c ≠ 0 := by
    by_contra hnone
    simp only [not_exists, not_and, not_not] at hnone
    rw [degree_eq_sum, List.sum_eq_zero (List.forall_mem_map.2 hnone)] at hcoeff
    exact hq hcoeff.symm
  obtain ⟨w, p, hp, heq', hdegree', hcoeff'⟩ := hu.factor_spec hc
  have hwv : w = v := by
    by_contra hwv
    rw [hdegree', if_neg hwv, mul_zero] at hne
    exact hne rfl
  subst hwv
  rw [heq, ← hcoeff, hcoeff', ← heq']
  exact hc

/-- **Orders without extrema** have the same degrees exactly if they have the same factors, in some
order. -/
theorem degree_eq_iff_perm (ht : Normal False t) (hu : Normal False u) :
    (∀ e, degree e t = degree e u) ↔ (factors t).Perm (factors u) := by
  have hnodup : ∀ {t}, Normal False t → (factors t).Nodup := fun ht => (ht.factors_spec).1.of_map _
  constructor
  · intro hdegree
    refine (List.perm_ext_iff_of_nodup (hnodup ht) (hnodup hu)).2 fun a => ⟨?_, ?_⟩
    · exact ht.mem_factors_of_degree hu hdegree
    · exact hu.mem_factors_of_degree ht fun e => (hdegree e).symm
  · intro hperm e
    rw [degree_eq_sum, degree_eq_sum]
    exact (hperm.map _).sum_eq

end Normal
end Magnitude
end Majorant
