import Majorant.Magnitude.Monomial
import Majorant.Proofs.Outcome
import Majorant.Proofs.Term.Sum
import Mathlib.Algebra.BigOperators.Group.List.Lemmas
import Mathlib.Algebra.Module.BigOperators
import Mathlib.Algebra.Order.Ring.Rat
import Mathlib.Tactic.Module

/-!
# Sizes of orders of magnitude

A size takes products of orders to sums and powers to multiples, in any vector space over the rational
numbers.  The operations on orders keep it, as long as evaluating an extremum does.
-/

namespace Majorant

namespace Term

theorem sum_num_num (p q : Rat) : sum [num p, num q] = num (p + q) := by
  have hconst : constantTerm [num p, num q] = p + q := by simp [constantTerm, constantOf]
  have hsum : sum [num p, num q] = ofSummands (if constantTerm [num p, num q] = 0 then []
      else [num (constantTerm [num p, num q])]) := rfl
  rw [hsum, hconst]
  by_cases h : p + q = 0
  · rw [if_pos h, h]
    rfl
  · rw [if_neg h]
    rfl

theorem product_num_num (p q : Rat) : product [num p, num q] = num (p * q) := by
  by_cases hp : p = 1 <;> by_cases hq : q = 1 <;>
    simp [product, stepBound, sizeList, size, productAux, factors, one, hp, hq]

end Term

namespace Magnitude
open Term

variable {Λ : Type} [AddCommGroup Λ] [Module ℚ Λ]

/-- The size of a product of powers whose bases have given sizes. -/
def weigh (x : Term → Λ) (ms : List (Term × ℚ)) : Λ := (ms.map fun m => m.2 • x m.1).sum

theorem addExponent_eq (ms : List (Term × ℚ)) (m : Term × ℚ) :
    addExponent ms m = putEntry m.1 (· + m.2) m.2 ms := by
  unfold addExponent putEntry
  congr 1
  apply List.map_congr_left
  intro p _
  by_cases hp : p.1 = m.1 <;> simp [hp]

theorem nodup_foldl_addExponent {ms : List (Term × ℚ)} (h : (keys ms).Nodup) (ns : List (Term × ℚ)) :
    (keys (ns.foldl addExponent ms)).Nodup := by
  induction ns generalizing ms with
  | nil => exact h
  | cons n ns ih =>
    refine ih ?_
    rw [addExponent_eq]
    exact nodup_putEntry h

theorem weigh_foldl_addExponent (x : Term → Λ) {ms : List (Term × ℚ)} (h : (keys ms).Nodup)
    (ns : List (Term × ℚ)) : weigh x (ns.foldl addExponent ms) = weigh x ms + weigh x ns := by
  induction ns generalizing ms with
  | nil => simp [weigh]
  | cons n ns ih =>
    have hadd : weigh x (addExponent ms n) = weigh x ms + n.2 • x n.1 := by
      rw [addExponent_eq]
      exact sum_map_putEntry h rfl fun c _ => add_smul _ _ _
    have hkeys : (keys (addExponent ms n)).Nodup := by
      rw [addExponent_eq]
      exact nodup_putEntry h
    rw [List.foldl_cons, ih hkeys, hadd, add_assoc]
    simp [weigh]

theorem mem_keys_foldl_addExponent {ms ns : List (Term × ℚ)} {k : Term}
    (hk : k ∈ keys (ns.foldl addExponent ms)) : k ∈ keys ms ∨ k ∈ keys ns := by
  induction ns generalizing ms with
  | nil => exact .inl hk
  | cons n ns ih =>
    rcases ih hk with hk | hk
    · rw [addExponent_eq] at hk
      rcases mem_keys_putEntry.1 hk with hk | rfl
      · exact .inl hk
      · exact .inr List.mem_cons_self
    · exact .inr (List.mem_cons_of_mem _ hk)

theorem keys_map_mul (ms : List (Term × ℚ)) (q : ℚ) :
    keys (ms.map fun m => (m.1, m.2 * q)) = keys ms := by
  simp [keys]

theorem weigh_map_mul (x : Term → Λ) (ms : List (Term × ℚ)) (q : ℚ) :
    weigh x (ms.map fun m => (m.1, m.2 * q)) = q • weigh x ms := by
  rw [weigh, weigh, List.smul_sum, List.map_map, List.map_map]
  congr 1
  apply List.map_congr_left
  intro m _
  simp only [Function.comp_apply, mul_comm m.2 q, mul_smul]

mutual

theorem nodup_monomials (t : Term) : (keys (monomials t)).Nodup := by
  unfold monomials
  by_cases ht : t = unit
  · rw [if_pos ht]
    exact List.nodup_nil
  · rw [if_neg ht]
    split
    · exact nodup_monomialsList _
    · rw [keys_map_mul]
      exact nodup_monomials _
    · exact List.nodup_singleton t

theorem nodup_monomialsList (ts : List Term) : (keys (monomialsList ts)).Nodup := by
  cases ts with
  | nil => exact List.nodup_nil
  | cons t ts => exact nodup_foldl_addExponent (nodup_monomials t) _

end

@[simp]
theorem monomials_unit : monomials unit = [] := by
  unfold monomials
  exact if_pos rfl

theorem monomials_orderMul (as : List Term) : monomials (app .orderMul as) = monomialsList as := by
  rw [monomials, if_neg (by simp [unit])]

theorem monomials_orderPow (b : Term) (q : ℚ) :
    monomials (app .orderPow [b, num q]) = (monomials b).map fun m => (m.1, m.2 * q) := by
  rw [monomials, if_neg (by simp [unit])]

theorem weigh_monomialsList (x : Term → Λ) (ts : List Term) :
    weigh x (monomialsList ts) = (ts.map fun t => weigh x (monomials t)).sum := by
  induction ts with
  | nil => simp [monomialsList, weigh]
  | cons t ts ih =>
    rw [monomialsList, weigh_foldl_addExponent x (nodup_monomials t), ih, List.map_cons, List.sum_cons]

theorem mem_keys_monomialsList {ts : List Term} {k : Term} (hk : k ∈ keys (monomialsList ts)) :
    ∃ t ∈ ts, k ∈ keys (monomials t) := by
  induction ts with
  | nil => cases hk
  | cons t ts ih =>
    rw [List.exists_mem_cons_iff]
    exact (mem_keys_foldl_addExponent hk).imp_right ih

theorem ofPositiveList_eq_map (ts : List Term) : ofPositiveList ts = ts.map ofPositive := by
  induction ts with
  | nil => rfl
  | cons t ts ih => rw [ofPositiveList, ih, List.map_cons]

theorem spread_cons (h : Head) (t : Term) (ts : List Term) :
    spread h (t :: ts) = spread h [t] ++ spread h ts := by
  simp only [spread, List.flatMap_cons, List.flatMap_nil, List.append_nil]

theorem spread_same (h : Head) (as : List Term) : spread h [app h as] = as := by
  simp [spread]

theorem spread_of_plain {h : Head} {as : List Term} (hplain : ∀ a ∈ as, ∀ bs, a ≠ app h bs) :
    spread h as = as := by
  induction as with
  | nil => rfl
  | cons a as ih =>
    rw [spread_cons, ih fun b hb => hplain b (List.mem_cons_of_mem a hb)]
    cases a with
    | app g bs =>
      have hg : g ≠ h := fun heq => hplain (app g bs) List.mem_cons_self bs (by rw [heq])
      simp [spread, hg]
    | _ => rfl

/-- **A class of orders with sizes**: it is closed under products and powers, whose sizes are sums and
multiples, and evaluating an extremum keeps its size. -/
structure Sizing (P : Term → Prop) (size : Term → Λ) : Prop where
  isOrder : ∀ {t}, P t → t.isOrder = true
  evades : ∀ {t}, P t → t.evades = false
  ofLiteral : ∀ {t}, P t → Term.ofLiteral t = pure t
  unit : P unit
  size_unit : size Magnitude.unit = 0
  product : ∀ {as}, (∀ a ∈ as, P a) → P (app .orderMul as)
  of_product : ∀ {as}, P (app .orderMul as) → ∀ a ∈ as, P a
  size_product : ∀ {as}, P (app .orderMul as) → size (app .orderMul as) = (as.map size).sum
  power : ∀ {b} (q : ℚ), P b → P (app .orderPow [b, num q])
  of_power : ∀ {cs}, P (app .orderPow cs) → ∃ b q, cs = [b, num q] ∧ P b
  size_power : ∀ {b} (q : ℚ), P b → size (app .orderPow [b, num q]) = q • size b
  join : ∀ {as}, P (app .orderMax as) → P (join as) ∧ size (join as) = size (app .orderMax as)
  meet : ∀ {as}, P (app .orderMin as) → P (meet as) ∧ size (meet as) = size (app .orderMin as)

theorem theta_of_isOrder {t : Term} (h : t.isOrder = true) (hevades : t.evades = false) :
    theta t = pure t := by
  have heq : theta t = Term.ofLiteral t >>= fun t =>
      if t.evades then .fail .unanswerable
      else if t.isOrder then pure t
      else if t.is .positive then pure (ofPositive t)
      else warn t.text := by
    cases t with
    | lit l => cases h
    | _ => rfl
  have hliteral : Term.ofLiteral t = pure t := by
    cases t with
    | lit l => cases h
    | _ => rfl
  rw [heq, hliteral, pure_bind, hevades, h]
  rfl

namespace Sizing

variable {P : Term → Prop} {size : Term → Λ} {a b t : Term} {ts as : List Term} {q : ℚ}

theorem rawTimes (S : Sizing P size) (h : ∀ t ∈ ts, P t) :
    P (rawTimes ts) ∧ size (rawTimes ts) = (ts.map size).sum := by
  unfold Magnitude.rawTimes
  split
  · exact ⟨S.unit, S.size_unit⟩
  · exact ⟨h _ List.mem_cons_self, by simp⟩
  · exact ⟨S.product h, S.size_product (S.product h)⟩

theorem rawPower (S : Sizing P size) (h : P b) (q : ℚ) :
    P (rawPower b (num q)) ∧ size (rawPower b (num q)) = q • size b := by
  unfold Magnitude.rawPower
  by_cases hzero : num q = zero
  · rw [if_pos hzero]
    cases hzero
    exact ⟨S.unit, by rw [S.size_unit, zero_smul]⟩
  rw [if_neg hzero]
  by_cases hone : num q = one
  · rw [if_pos hone]
    cases hone
    exact ⟨h, (one_smul ℚ _).symm⟩
  rw [if_neg hone]
  by_cases hunit : b = Magnitude.unit
  · rw [if_pos hunit, hunit, S.size_unit, smul_zero]
    exact ⟨S.unit, rfl⟩
  · rw [if_neg hunit]
    exact ⟨S.power q h, S.size_power q h⟩

theorem spread (S : Sizing P size) (h : ∀ t ∈ ts, P t) :
    (∀ t ∈ spread .orderMul ts, P t) ∧ ((spread .orderMul ts).map size).sum = (ts.map size).sum := by
  induction ts with
  | nil => exact ⟨h, rfl⟩
  | cons t ts ih =>
    obtain ⟨ht, hts⟩ := List.forall_mem_cons.1 h
    obtain ⟨hparts, hsum⟩ := ih hts
    obtain ⟨hpart, hsize⟩ : (∀ u ∈ Magnitude.spread .orderMul [t], P u) ∧
        ((Magnitude.spread .orderMul [t]).map size).sum = size t := by
      by_cases hmul : ∃ as, t = app .orderMul as
      · obtain ⟨as, rfl⟩ := hmul
        rw [spread_same]
        exact ⟨S.of_product ht, (S.size_product ht).symm⟩
      · rw [spread_of_plain fun u hu bs heq => hmul ⟨bs, (List.mem_singleton.1 hu).symm.trans heq⟩]
        exact ⟨List.forall_mem_singleton.2 ht, by simp⟩
    rw [spread_cons]
    refine ⟨fun u hu => (List.mem_append.1 hu).elim (hpart u) (hparts u), ?_⟩
    rw [List.map_append, List.sum_append, hsize, hsum, List.map_cons, List.sum_cons]

/-- Factors gathered by base: bases of the class with numbers for exponents, each base once. -/
structure Powers (P : Term → Prop) (size : Term → Λ) (ps : List (Term × Term)) (total : Λ) : Prop where
  nodup : (ps.map (·.1)).Nodup
  base : ∀ p ∈ ps, P p.1
  numeric : ∀ p ∈ ps, ∃ q, p.2 = num q
  total_eq : (ps.map fun p => p.2.constantOf • size p.1).sum = total

theorem baseExponent (S : Sizing P size) (h : P t) :
    ∃ c q, baseExponent t = (c, num q) ∧ P c ∧ q • size c = size t := by
  unfold Magnitude.baseExponent
  split
  · next c e =>
    obtain ⟨_, q, heq, hc⟩ := S.of_power h
    cases heq
    exact ⟨c, q, rfl, hc, (S.size_power q hc).symm⟩
  · exact ⟨t, 1, rfl, h, one_smul ℚ _⟩

theorem gather_eq {ps : List (Term × Term)} {c e : Term} (hunit : t ≠ Magnitude.unit)
    (hbase : Magnitude.baseExponent t = (c, e)) :
    gather ps t = putEntry c (fun f => sum [f, e]) e ps := by
  rw [gather, if_neg hunit, hbase]
  rfl

theorem gather (S : Sizing P size) {ps : List (Term × Term)} {w : Λ} (hps : Powers P size ps w)
    (h : P t) : Powers P size (gather ps t) (w + size t) := by
  by_cases hunit : t = Magnitude.unit
  · rw [Magnitude.gather, if_pos hunit, hunit, S.size_unit, add_zero]
    exact hps
  obtain ⟨c, q, hbase, hc, hsize⟩ := S.baseExponent h
  rw [gather_eq hunit hbase]
  refine ⟨nodup_putEntry hps.nodup, forall_mem_putEntry hps.base hc fun _ _ => hc,
    forall_mem_putEntry hps.numeric ⟨q, rfl⟩ ?_, ?_⟩
  · rintro _ ⟨p, rfl⟩
    exact ⟨p + q, sum_num_num p q⟩
  · rw [← hps.total_eq]
    refine sum_map_putEntry hps.nodup hsize fun e he => ?_
    obtain ⟨p, hp⟩ := hps.numeric _ he
    simp only at hp
    rw [hp, sum_num_num, ← hsize]
    simp only [constantOf]
    rw [add_smul]

theorem foldl_gather (S : Sizing P size) {ps : List (Term × Term)} {w : Λ} (hps : Powers P size ps w)
    (h : ∀ t ∈ ts, P t) : Powers P size (ts.foldl Magnitude.gather ps) (w + (ts.map size).sum) := by
  induction ts generalizing ps w with
  | nil => simpa using hps
  | cons t ts ih =>
    obtain ⟨ht, hts⟩ := List.forall_mem_cons.1 h
    have hrest := ih (S.gather hps ht) hts
    rwa [List.map_cons, List.sum_cons, ← add_assoc]

theorem gathered (S : Sizing P size) (h : ∀ t ∈ ts, P t) :
    Powers P size ((Magnitude.spread .orderMul ts).foldl Magnitude.gather []) (ts.map size).sum := by
  obtain ⟨hparts, hsum⟩ := S.spread h
  have hnil : Powers P size [] 0 := ⟨List.nodup_nil, nofun, nofun, rfl⟩
  have hfold := S.foldl_gather hnil hparts
  rwa [zero_add, hsum] at hfold

/-- **Products**: the size is the sum of those of the factors. -/
theorem times (S : Sizing P size) (h : ∀ t ∈ ts, P t) :
    P (times ts) ∧ size (times ts) = (ts.map size).sum := by
  have hps := S.gathered h
  unfold Magnitude.times
  dsimp only
  generalize (Magnitude.spread .orderMul ts).foldl Magnitude.gather [] = ps at hps
  have hkept : ∀ p ∈ ps.filter (·.2 ≠ zero), P (Magnitude.rawPower p.1 p.2) ∧
      size (Magnitude.rawPower p.1 p.2) = p.2.constantOf • size p.1 := by
    intro p hp
    have hmem : p ∈ ps := (List.mem_filter.1 hp).1
    obtain ⟨q, hq⟩ := hps.numeric p hmem
    rw [hq]
    exact S.rawPower (hps.base p hmem) q
  have hfactors : ∀ t ∈ (ps.filter (·.2 ≠ zero)).map fun p => Magnitude.rawPower p.1 p.2, P t := by
    intro t ht
    obtain ⟨p, hp, rfl⟩ := List.mem_map.1 ht
    exact (hkept p hp).1
  refine ⟨(S.rawTimes hfactors).1, (S.rawTimes hfactors).2.trans ?_⟩
  calc (((ps.filter (·.2 ≠ zero)).map fun p => Magnitude.rawPower p.1 p.2).map size).sum
      = ((ps.filter (·.2 ≠ zero)).map fun p => p.2.constantOf • size p.1).sum := by
        rw [List.map_map]
        exact congrArg List.sum (List.map_congr_left fun p hp => (hkept p hp).2)
    _ = (ps.map fun p => p.2.constantOf • size p.1).sum := by
        refine sum_map_filter fun p _ hp => ?_
        have hzero : p.2 = zero := by simpa using hp
        rw [hzero]
        exact zero_smul ℚ _
    _ = (ts.map size).sum := hps.total_eq

theorem raise_eq_rawPower (htrivial : num q = zero ∨ num q = one ∨ b = Magnitude.unit) :
    Magnitude.raise b (num q) = Magnitude.rawPower b (num q) := by
  unfold Magnitude.raise Magnitude.rawPower
  by_cases hzero : num q = zero
  · rw [if_pos hzero, if_pos hzero]
  rw [if_neg hzero, if_neg hzero]
  by_cases hone : num q = one
  · rw [if_pos hone, if_pos hone]
  have hunit : b = Magnitude.unit := (htrivial.resolve_left hzero).resolve_left hone
  rw [if_neg hone, if_neg hone, if_pos hunit, if_pos hunit]

theorem raise_eq_raiseAux (hzero : num q ≠ zero) (hone : num q ≠ one) (hunit : b ≠ Magnitude.unit) :
    Magnitude.raise b (num q) = Magnitude.raiseAux (2 * b.size) b (num q) := by
  rw [Magnitude.raise, if_neg hzero, if_neg hone, if_neg hunit]

theorem raiseAux_of_plain (hpow : ∀ cs, b ≠ app .orderPow cs) (hmul : ∀ cs, b ≠ app .orderMul cs)
    (n : ℕ) (e : Term) : Magnitude.raiseAux n b e = app .orderPow [b, e] := by
  cases n with
  | zero => rfl
  | succ n =>
    unfold Magnitude.raiseAux
    split
    · exact absurd rfl (hpow _)
    · exact absurd rfl (hmul _)
    · rfl

theorem raise_of_plain (hpow : ∀ cs, b ≠ app .orderPow cs) (hmul : ∀ cs, b ≠ app .orderMul cs)
    (hzero : num q ≠ zero) (hone : num q ≠ one) (hunit : b ≠ Magnitude.unit) :
    Magnitude.raise b (num q) = app .orderPow [b, num q] := by
  rw [raise_eq_raiseAux hzero hone hunit, raiseAux_of_plain hpow hmul]

theorem refreshWith (S : Sizing P size) {raise : Term → Term → Term}
    (hraise : ∀ b q, P b → P (raise b (num q)) ∧ size (raise b (num q)) = q • size b) (h : P t) :
    P (refreshWith raise t) ∧ size (refreshWith raise t) = size t := by
  unfold Magnitude.refreshWith
  split
  · exact S.join h
  · exact S.meet h
  · rw [S.size_product h]
    exact S.times (S.of_product h)
  · obtain ⟨_, q, heq, hd⟩ := S.of_power h
    cases heq
    rw [S.size_power q hd]
    exact hraise _ q hd
  · exact ⟨h, rfl⟩

theorem raiseFactorWith (S : Sizing P size) {raise : Term → Term → Term}
    (hraise : ∀ b q, P b → P (raise b (num q)) ∧ size (raise b (num q)) = q • size b) (h : P t) (q : ℚ) :
    P (raiseFactorWith raise t (num q)) ∧ size (raiseFactorWith raise t (num q)) = q • size t := by
  obtain ⟨hbefore, hsize⟩ := S.refreshWith hraise h
  obtain ⟨hraw, hsize'⟩ := S.rawPower hbefore q
  rw [← hsize, ← hsize']
  exact S.refreshWith hraise hraw

theorem raiseAux (S : Sizing P size) (n : ℕ) : ∀ b q, P b →
    P (raiseAux n b (num q)) ∧ size (raiseAux n b (num q)) = q • size b := by
  induction n with
  | zero => exact fun b q h => ⟨S.power q h, S.size_power q h⟩
  | succ n ih =>
    intro b q h
    unfold Magnitude.raiseAux
    split
    · obtain ⟨c, p, heq, hc⟩ := S.of_power h
      cases heq
      rw [product_num_num, S.size_power p hc, ← mul_smul]
      obtain ⟨hraw, hsize⟩ := S.rawPower hc (q * p)
      obtain ⟨honce, hsize'⟩ := S.refreshWith ih hraw
      rw [← hsize, ← hsize']
      exact S.refreshWith ih honce
    · have hfactor := fun a ha => S.raiseFactorWith ih (S.of_product h a ha) q
      obtain ⟨htimes, hsize⟩ := S.times (List.forall_mem_map.2 fun a ha => (hfactor a ha).1)
      refine ⟨htimes, hsize.trans ?_⟩
      rw [S.size_product h, List.smul_sum, List.map_map, List.map_map]
      exact congrArg List.sum (List.map_congr_left fun a ha => (hfactor a ha).2)
    · exact ⟨S.power q h, S.size_power q h⟩

/-- **Powers**: the size is a multiple of that of the base. -/
theorem raise (S : Sizing P size) (h : P b) (q : ℚ) :
    P (raise b (num q)) ∧ size (raise b (num q)) = q • size b := by
  by_cases htrivial : num q = zero ∨ num q = one ∨ b = Magnitude.unit
  · rw [raise_eq_rawPower htrivial]
    exact S.rawPower h q
  · rw [not_or, not_or] at htrivial
    rw [raise_eq_raiseAux htrivial.1 htrivial.2.1 htrivial.2.2]
    exact S.raiseAux _ b q h

/-- **A size is the total** of the sizes of the bases, which are of the class. -/
theorem eq_weigh (S : Sizing P size) (h : P t) :
    (∀ k ∈ keys (monomials t), P k) ∧ weigh size (monomials t) = size t := by
  induction hn : sizeOf t using Nat.strong_induction_on generalizing t with
  | _ n ih =>
  subst hn
  by_cases hunit : t = Magnitude.unit
  · rw [hunit, monomials_unit, S.size_unit]
    exact ⟨nofun, rfl⟩
  by_cases hmul : ∃ as, t = app .orderMul as
  · obtain ⟨as, rfl⟩ := hmul
    have hpart : ∀ a ∈ as, (∀ k ∈ keys (monomials a), P k) ∧ weigh size (monomials a) = size a := by
      intro a ha
      refine ih _ ?_ (S.of_product h a ha) rfl
      have := List.sizeOf_lt_of_mem ha
      simp only [app.sizeOf_spec]
      omega
    rw [monomials_orderMul, weigh_monomialsList, S.size_product h]
    refine ⟨fun k hk => ?_, congrArg List.sum (List.map_congr_left fun a ha => (hpart a ha).2)⟩
    obtain ⟨a, ha, hk⟩ := mem_keys_monomialsList hk
    exact (hpart a ha).1 k hk
  by_cases hpow : ∃ cs, t = app .orderPow cs
  · obtain ⟨cs, rfl⟩ := hpow
    obtain ⟨b, q, rfl, hb⟩ := S.of_power h
    obtain ⟨hkeys, hweigh⟩ := ih (sizeOf b) (by
      simp only [app.sizeOf_spec, List.cons.sizeOf_spec]
      omega) hb rfl
    rw [monomials_orderPow, keys_map_mul, weigh_map_mul, S.size_power q hb, hweigh]
    exact ⟨hkeys, rfl⟩
  · have hself : monomials t = [(t, 1)] := by
      unfold monomials
      rw [if_neg hunit]
      split
      · exact absurd ⟨_, rfl⟩ hmul
      · exact absurd ⟨_, rfl⟩ hpow
      · rfl
    rw [hself]
    exact ⟨fun k hk => List.mem_singleton.1 hk ▸ h, by simp [weigh]⟩

theorem theta_eq (S : Sizing P size) (h : P t) : theta t = pure t :=
  theta_of_isOrder (S.isOrder h) (S.evades h)

theorem multiplyGathered_eq (S : Sizing P size) (h : ∀ t ∈ ts, P t) :
    multiplyGathered ts = pure (Magnitude.times ts) := by
  have hbases : ((Magnitude.spread .orderMul ts).foldl Magnitude.gather []).all (·.1.isOrder) = true :=
    List.all_eq_true.2 fun p hp => S.isOrder ((S.gathered h).base p hp)
  unfold multiplyGathered
  exact if_pos hbases

theorem toPowerSpread_eq (S : Sizing P size) (h : P b) (e : Term) :
    toPowerSpread b e = pure (Magnitude.raise b e) := by
  unfold toPowerSpread
  split
  · next as =>
    have hall : as.all (·.isOrder) = true :=
      List.all_eq_true.2 fun a ha => S.isOrder (S.of_product h a ha)
    exact if_pos hall
  · rfl

theorem pow_eq (S : Sizing P size) (h : P b) (ht : Term.ofLiteral t = pure (num q)) :
    Operation.pow b t = Evaluation.settle (Magnitude.rawPower b (num q)) := by
  have hraw : toPower [b, t] = pure (Magnitude.rawPower b (num q)) := by
    simp only [toPower]
    rw [S.ofLiteral h, pure_bind, ht, pure_bind, S.isOrder h]
    rfl
  rw [Operation.pow, if_pos (S.isOrder h), hraw, pure_bind]

theorem reciprocal_eq (S : Sizing P size) (h : P b) :
    Operation.reciprocal b = pure (Magnitude.raise b (num (-1))) := by
  have hpow : Operation.reciprocal b = Operation.pow b (num (-1)) := by
    cases b with
    | lit l => cases S.isOrder h
    | num q => cases S.isOrder h
    | _ => rfl
  rw [hpow, S.pow_eq h rfl]
  unfold Magnitude.rawPower
  rw [if_neg (by decide), if_neg (by decide)]
  by_cases hunit : b = Magnitude.unit
  · rw [if_pos hunit, hunit]
    rfl
  · rw [if_neg hunit]
    exact S.toPowerSpread_eq h _

theorem multiply_settle_eq (S : Sizing P size) {s : Term} (ha : P a) (hb : P b) (hs : theta s = pure a)
    (ht : theta t = pure b) :
    (multiply [s, t] >>= Evaluation.settle) = pure (Magnitude.times [a, b]) := by
  have hmap : [s, t].mapM theta = pure [a, b] := by
    rw [List.mapM_cons, List.mapM_cons, List.mapM_nil, hs, ht]
    rfl
  unfold multiply
  rw [hmap, pure_bind, pure_bind]
  exact S.multiplyGathered_eq (List.forall_mem_cons.2 ⟨ha, List.forall_mem_singleton.2 hb⟩)

end Sizing

def quotient (a b : Term) : Term := times [a, raise b (num (-1))]

namespace Sizing

variable {P : Term → Prop} {size : Term → Λ} {a b : Term}

theorem div_eq (S : Sizing P size) (ha : P a) (hb : P b) :
    Operation.div a b = pure (quotient a b) := by
  have hraised := (S.raise hb (-1)).1
  unfold Operation.div
  rw [if_pos (S.isOrder ha), S.reciprocal_eq hb, pure_bind]
  exact S.multiply_settle_eq ha hraised (S.theta_eq ha) (S.theta_eq hraised)

theorem quotient (S : Sizing P size) (ha : P a) (hb : P b) :
    P (quotient a b) ∧ size (quotient a b) = size a - size b := by
  obtain ⟨hraised, hsize⟩ := S.raise hb (-1)
  obtain ⟨hquotient, htotal⟩ :=
    S.times (List.forall_mem_cons.2 ⟨ha, List.forall_mem_singleton.2 hraised⟩)
  refine ⟨hquotient, htotal.trans ?_⟩
  simp only [List.map_cons, List.map_nil, List.sum_cons, List.sum_nil, add_zero, hsize]
  module

end Sizing

end Magnitude
end Majorant
