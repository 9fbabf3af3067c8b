import Majorant.Proof.State
import Majorant.Proofs.Comparison
import Majorant.Proofs.Real.Value

/-!
# Truth of statements at a valuation

A comparison holds at a valuation if both sides denote numbers that compare as it says, and the declaration of
a variable holds if the value of the variable is of the declared kind.
-/

namespace Majorant

namespace Kind

def Contains : Kind → ℝ → Prop
  | int, x | posInt, x | nonnegInt, x | nonzeroInt, x => ∃ n : ℤ, x = n
  | rat, x | posRat, x | nonnegRat, x | nonzeroRat, x => ∃ q : ℚ, x = q
  | real, _ | posReal, _ | nonnegReal, _ | nonzeroReal, _ | complex, _ => True
  | prop, _ | order, _ => False

/-- The signs of a kind. -/
def SignFits : Kind → ℝ → Prop
  | posInt, x | posRat, x | posReal, x => 0 < x
  | nonnegInt, x | nonnegRat, x | nonnegReal, x => 0 ≤ x
  | nonzeroInt, x | nonzeroRat, x | nonzeroReal, x => x ≠ 0
  | _, _ => True

def Admits (k : Kind) (x : ℝ) : Prop := k.Contains x ∧ k.SignFits x

end Kind

/-- **A statement holds at a valuation.** -/
def Term.HoldsAt (ρ : Valuation) : Term → Prop
  | .truth b => b = true
  | .app (.rel r) [a, b] => a.Denotes ρ ∧ b.Denotes ρ ∧ r.Compares (a.val ρ) (b.val ρ)
  | .app .declared [.var v] => v.kind.Admits (ρ v)
  | _ => False

namespace Term

variable {ρ : Valuation}

theorem not_holdsAt_bot : ¬ bot.HoldsAt ρ := by simp [bot, HoldsAt]

theorem holdsAt_rel {r : Rel} {a b : Term} :
    (app (.rel r) [a, b]).HoldsAt ρ ↔
      a.Denotes ρ ∧ b.Denotes ρ ∧ r.Compares (a.val ρ) (b.val ρ) := by
  simp only [HoldsAt]

theorem holdsAt_negate {r : Rel} {a b : Term} (ha : a.Denotes ρ) (hb : b.Denotes ρ) :
    (app (.rel r.negate) [a, b]).HoldsAt ρ ↔ ¬ (app (.rel r) [a, b]).HoldsAt ρ := by
  rw [holdsAt_rel, holdsAt_rel, Rel.compares_negate]
  tauto

theorem isOrder_of_denotes {t : Term} (h : t.Denotes ρ) : t.isOrder = false := by
  cases t with
  | var v =>
    rw [denotes_var] at h
    cases hk : v.kind <;> simp_all [isOrder, Kind.isNumeric]
  | app g as =>
    rw [denotes_app] at h
    cases g <;> simp_all [isOrder, Head.AppliesTo]
  | _ => rfl

mutual

theorem evades_of_denotes : (t : Term) → t.Denotes ρ → t.evades = false
  | app g as, h => by
    rw [denotes_app] at h
    have hlist := evadesList_of_denotes as h.1
    cases g <;> simp_all [evades, Head.AppliesTo]
  | lit _, _ | num _, _ | special _, _ | truth _, _ | var _, _ => by simp [evades]

theorem evadesList_of_denotes : (ts : List Term) → (∀ t ∈ ts, t.Denotes ρ) → evadesList ts = false
  | [], _ => by simp [evadesList]
  | t :: ts, h => by
    have ht := evades_of_denotes t (h t (by simp))
    have hts := evadesList_of_denotes ts fun u hu => h u (List.mem_cons_of_mem t hu)
    simp [evadesList, ht, hts]

end

theorem ofLiteral_of_denotes {t : Term} (h : t.Denotes ρ) :
    ∃ u, ofLiteral t = pure u ∧ u.Denotes ρ ∧ u.val ρ = t.val ρ := by
  cases t with
  | lit l =>
    cases l with
    | int n => exact ⟨num n, rfl, denotes_num _, by simp [val]⟩
    | ratio q => exact ⟨num q, rfl, denotes_num _, by simp [val]⟩
    | bool b => simp [Denotes] at h
    | float q => simp [Denotes] at h
    | absent => simp [Denotes] at h
  | _ => exact ⟨_, rfl, h, rfl⟩

theorem isQuantity_of_denotes {t : Term} (h : t.Denotes ρ) :
    (t.isQuantity || (Operation.written? t).isSome) = true := by
  cases t with
  | lit l => cases l <;> simp_all [Denotes, Operation.written?]
  | app g as =>
    rw [denotes_app] at h
    cases g <;> simp_all [isQuantity, Head.isQuantity, Head.AppliesTo]
  | _ => simp_all [isQuantity, Denotes]

end Term

namespace Operation
open Term

variable {ρ : Valuation}

theorem written?_of_denotes {t : Term} {q : Rat} (h : t.Denotes ρ) (hq : written? t = some q) :
    (∃ n : ℤ, t = lit (.int n) ∧ q = n) ∨ t = lit (.ratio q) := by
  cases t with
  | lit l =>
    cases l with
    | int n => exact .inl ⟨n, rfl, by simpa [written?] using hq.symm⟩
    | ratio r =>
      right
      simpa [written?] using hq
    | bool b => simp [Denotes] at h
    | float r => simp [Denotes] at h
    | absent => simp [written?] at hq
  | _ => simp [written?] at hq

theorem writtenResult_of_denotes {a b : Term} {p q r : Rat} (ha : a.Denotes ρ) (hb : b.Denotes ρ)
    (hp : written? a = some p) (hq : written? b = some q)
    (hr : p.den = 1 → q.den = 1 → r.den = 1) :
    (writtenResult a b r).Denotes ρ ∧ (writtenResult a b r).val ρ = r := by
  have hratio : (lit (.ratio r)).Denotes ρ ∧ (lit (.ratio r)).val ρ = (r : ℝ) := by
    simp [Denotes, val]
  rcases written?_of_denotes ha hp with ⟨m, rfl, rfl⟩ | rfl
  · rcases written?_of_denotes hb hq with ⟨n, rfl, rfl⟩ | rfl
    · have hden : r.den = 1 := hr (Rat.den_intCast m) (Rat.den_intCast n)
      have hnum : ((r.num : ℚ) : ℝ) = (r : ℝ) := by rw [Rat.coe_int_num_of_den_eq_one hden]
      refine ⟨by simp [writtenResult, Denotes], ?_⟩
      rw [← hnum]
      simp [writtenResult, val]
    · exact hratio
  · rcases written?_of_denotes hb hq with ⟨n, rfl, rfl⟩ | rfl
    · exact hratio
    · exact hratio

theorem den_neg_eq_one {p : Rat} (hp : p.den = 1) : (-p).den = 1 := by
  rwa [Rat.neg_den]

theorem den_sub_eq_one {p q : Rat} (hp : p.den = 1) (hq : q.den = 1) : (p - q).den = 1 := by
  rw [← Rat.coe_int_num_of_den_eq_one hp, ← Rat.coe_int_num_of_den_eq_one hq, ← Int.cast_sub]
  exact Rat.den_intCast _

theorem neg_of_denotes {t : Term} (h : t.Denotes ρ) :
    ∃ u, neg t = pure u ∧ u.Denotes ρ ∧ u.val ρ = -t.val ρ := by
  unfold neg
  cases hq : written? t with
  | some q =>
    have hval : t.val ρ = q := by
      rcases written?_of_denotes h hq with ⟨n, rfl, rfl⟩ | rfl <;> simp [val]
    have hres := writtenResult_of_denotes (r := -q) h h hq hq fun hp _ => den_neg_eq_one hp
    refine ⟨_, rfl, hres.1, ?_⟩
    rw [hres.2, hval, Rat.cast_neg]
  | none =>
    have hquantity : t.isQuantity = true := by simpa [hq] using isQuantity_of_denotes h
    refine ⟨t.neg, ?_, inherited_denotes.neg h, val_neg h⟩
    simp [isOrder_of_denotes h, hquantity, evades_of_denotes t h]

theorem addAll_of_denotes {a b : Term} (ha : a.Denotes ρ) (hb : b.Denotes ρ) :
    ∃ d, Evaluation.addAll [a, b] = pure d ∧ d.Denotes ρ ∧ d.val ρ = a.val ρ + b.val ρ := by
  obtain ⟨a', ha', hda, hva⟩ := ofLiteral_of_denotes ha
  obtain ⟨b', hb', hdb, hvb⟩ := ofLiteral_of_denotes hb
  have hall : ∀ t ∈ [a', b'], t.Denotes ρ := by
    intro t ht
    rcases List.mem_cons.1 ht with rfl | ht
    · exact hda
    · rwa [List.mem_singleton.1 ht]
  have hmap : [a, b].mapM ofLiteral = (pure [a', b'] : Outcome (List Term)) := by
    rw [List.mapM_cons, List.mapM_cons, ha', hb']
    rfl
  refine ⟨sum [a', b'], ?_, inherited_denotes.sum hall, ?_⟩
  · unfold Evaluation.addAll
    rw [hmap, Outcome.pure_eq, Outcome.bind_eq, Outcome.ret_andThen, evadesList_of_denotes _ hall]
    rfl
  · rw [val_sum hall]
    simp [hva, hvb]

theorem sub_of_denotes {a b : Term} (ha : a.Denotes ρ) (hb : b.Denotes ρ) :
    ∃ d, sub a b = pure d ∧ d.Denotes ρ ∧ d.val ρ = a.val ρ - b.val ρ := by
  -- a difference of terms that are not both written is the sum with the opposite
  have hsum : ∃ d, (do
      let b ← neg b
      Evaluation.addAll [a, b]) = pure d ∧ d.Denotes ρ ∧ d.val ρ = a.val ρ - b.val ρ := by
    obtain ⟨b', hb', hdb, hvb⟩ := neg_of_denotes hb
    obtain ⟨d, hd, hdd, hvd⟩ := addAll_of_denotes ha hdb
    refine ⟨d, ?_, hdd, ?_⟩
    · rw [hb', Outcome.pure_eq, Outcome.bind_eq, Outcome.ret_andThen, hd]
    · rw [hvd, hvb, sub_eq_add_neg]
  have hplain : (a.isOrder || orderOnRight a b) = false := by
    simp [orderOnRight, isOrder_of_denotes ha, isOrder_of_denotes hb]
  have hquantities : ((a.isQuantity || (written? a).isSome) &&
      (b.isQuantity || (written? b).isSome)) = true := by
    rw [isQuantity_of_denotes ha, isQuantity_of_denotes hb]
    rfl
  unfold sub
  split
  · next p q hp hq =>
    have hvals : a.val ρ = p ∧ b.val ρ = q := by
      constructor
      · rcases written?_of_denotes ha hp with ⟨n, rfl, rfl⟩ | rfl <;> simp [val]
      · rcases written?_of_denotes hb hq with ⟨n, rfl, rfl⟩ | rfl <;> simp [val]
    have hres := writtenResult_of_denotes (r := p - q) ha hb hp hq den_sub_eq_one
    refine ⟨_, rfl, hres.1, ?_⟩
    rw [hres.2, hvals.1, hvals.2, Rat.cast_sub]
  · rw [hplain, hquantities]
    exact hsum

end Operation
end Majorant
