import Majorant.Proofs.Entry
import Majorant.Term.Sum

/-!
# What sums inherit

Sums are put together from the summands of their terms: like terms are gathered by the part without
coefficient, and each part stands once.
-/

namespace Majorant
namespace Term

theorem args_induction {P : Term → Prop} (step : ∀ t, (∀ a ∈ t.args, P a) → P t) : ∀ t, P t
  | app h as => step _ fun a ha =>
    have : sizeOf a < sizeOf as := List.sizeOf_lt_of_mem ha
    args_induction step a
  | lit l => step _ nofun
  | num q => step _ nofun
  | special s => step _ nofun
  | truth b => step _ nofun
  | var v => step _ nofun
termination_by t => sizeOf t
decreasing_by
  simp only [app.sizeOf_spec]
  omega

theorem mem_freeVariablesList {as : List Term} {v : Variable} :
    v ∈ freeVariablesList as ↔ ∃ a ∈ as, v ∈ a.freeVariables := by
  induction as with
  | nil => simp [freeVariablesList]
  | cons a as ih => simp [freeVariablesList, ih]

def keys (cs : List (Term × Rat)) : List Term := cs.map (·.1)

theorem gatherSummand_eq (cs : List (Term × Rat)) (t : Term) :
    gatherSummand cs t = putEntry t.splitCoeff.2 (· + t.splitCoeff.1) t.splitCoeff.1 cs := rfl

theorem nodup_gatherSummand {cs : List (Term × Rat)} (h : (keys cs).Nodup) (t : Term) :
    (keys (gatherSummand cs t)).Nodup := by
  rw [gatherSummand_eq]
  exact nodup_putEntry h

theorem nodup_foldl_gatherSummand {cs : List (Term × Rat)} (h : (keys cs).Nodup) (ts : List Term) :
    (keys (ts.foldl gatherSummand cs)).Nodup := by
  induction ts generalizing cs with
  | nil => exact h
  | cons t ts ih => exact ih (nodup_gatherSummand h t)

theorem mem_keys_foldl_gatherSummand {cs : List (Term × Rat)} {ts : List Term} {k : Term}
    (hk : k ∈ keys (ts.foldl gatherSummand cs)) :
    k ∈ keys cs ∨ ∃ t ∈ ts, k = t.splitCoeff.2 := by
  induction ts generalizing cs with
  | nil => exact .inl hk
  | cons t ts ih =>
    rcases ih hk with hk | ⟨s, hs, rfl⟩
    · rw [gatherSummand_eq] at hk
      rcases mem_keys_putEntry.1 hk with hk | hk
      · exact .inl hk
      · exact .inr ⟨t, by simp, hk⟩
    · exact .inr ⟨s, by simp [hs], rfl⟩

theorem mem_sortArgs {ts : List Term} {t : Term} : t ∈ sortArgs ts ↔ t ∈ ts :=
  (sortBy_perm _ ts).mem_iff

theorem nodup_gathered (ts : List Term) : (keys (gathered ts)).Nodup := by
  unfold gathered
  have hall : (keys ((ts.filter isSymbolic).foldl gatherSummand [])).Nodup :=
    nodup_foldl_gatherSummand (show (keys []).Nodup from List.nodup_nil) _
  exact hall.sublist (List.filter_sublist.map _)

theorem ne_zero_of_mem_gathered {ts : List Term} {p : Term × Rat} (hp : p ∈ gathered ts) :
    p.2 ≠ 0 := by
  simpa using (List.mem_filter.1 hp).2

theorem exists_of_mem_gathered {ts : List Term} {p : Term × Rat} (hp : p ∈ gathered ts) :
    ∃ t ∈ ts, t.isSymbolic = true ∧ p.1 = t.splitCoeff.2 := by
  have hkey : p.1 ∈ keys ((ts.filter isSymbolic).foldl gatherSummand []) :=
    List.mem_map.2 ⟨p, (List.mem_filter.1 hp).1, rfl⟩
  rcases mem_keys_foldl_gatherSummand hkey with hnil | ⟨t, ht, heq⟩
  · cases hnil
  · exact ⟨t, (List.mem_filter.1 ht).1, (List.mem_filter.1 ht).2, heq⟩

theorem mem_summands_sumFinite {P : Term → Prop} {ts : List Term} (hnum : ∀ q, P (num q))
    (hterm : ∀ p ∈ gathered ts, P (scaleSummand p.2 p.1)) {s : Term}
    (hs : s ∈ if constantTerm ts = 0 then sortArgs ((gathered ts).map fun p => scaleSummand p.2 p.1)
      else num (constantTerm ts) :: sortArgs ((gathered ts).map fun p => scaleSummand p.2 p.1)) :
    P s := by
  have hterms : ∀ s ∈ sortArgs ((gathered ts).map fun p => scaleSummand p.2 p.1), P s := by
    intro s hs
    obtain ⟨p, hp, rfl⟩ := List.mem_map.1 (mem_sortArgs.1 hs)
    exact hterm p hp
  split at hs
  · exact hterms s hs
  · rcases List.mem_cons.1 hs with rfl | hs
    · exact hnum _
    · exact hterms s hs

/-- A property of values on the number line that a sum and a product have exactly when all of their
parts have it. -/
structure Inherited (P : Term → Prop) : Prop where
  num : ∀ q, P (num q)
  add : ∀ as, P (app .add as) ↔ ∀ a ∈ as, P a
  mul : ∀ as, P (app .mul as) ↔ ∀ a ∈ as, P a
  finite : ∀ s, ¬ P (special s)

namespace Inherited

variable {P : Term → Prop} {t : Term} {ts : List Term}

theorem splitCoeff (hP : Inherited P) (h : P t) : P t.splitCoeff.2 := by
  unfold Term.splitCoeff
  split
  · exact hP.num 1
  · rw [hP.mul] at h
    split
    · exact hP.num 1
    · exact h _ (by simp)
    · rw [hP.mul]
      intro a ha
      exact h a (List.mem_cons_of_mem _ ha)
  · exact h

theorem withCoeff (hP : Inherited P) (c : Rat) (h : ∀ t ∈ ts, P t) : P (withCoeff c ts) := by
  unfold Term.withCoeff
  split
  · split
    · exact hP.num 1
    · exact h _ (by simp)
    · exact (hP.mul ts).2 h
  · split
    · exact hP.num c
    · rw [hP.mul]
      intro a ha
      rcases List.mem_cons.1 ha with rfl | ha
      · exact hP.num c
      · exact h a ha

theorem scaleSummand (hP : Inherited P) (c : Rat) (h : P t) : P (scaleSummand c t) := by
  unfold Term.scaleSummand
  split
  · exact hP.num _
  · rw [hP.mul] at h
    exact hP.withCoeff _ fun a ha => h a (List.mem_cons_of_mem _ ha)
  · rw [hP.mul] at h
    exact hP.withCoeff c h
  · exact hP.withCoeff c fun a ha => by rwa [List.mem_singleton.1 ha]

theorem mem_summands (hP : Inherited P) (h : P t) {s : Term} (hs : s ∈ t.summands) : P s := by
  unfold Term.summands at hs
  split at hs
  · exact (hP.add _).1 h s hs
  · rwa [List.mem_singleton.1 hs]

theorem mem_flatMap_summands (hP : Inherited P) (h : ∀ t ∈ ts, P t) {s : Term}
    (hs : s ∈ ts.flatMap summands) : P s := by
  obtain ⟨t, ht, hs⟩ := List.mem_flatMap.1 hs
  exact hP.mem_summands (h t ht) hs

theorem ofSummands (hP : Inherited P) (h : ∀ t ∈ ts, P t) : P (ofSummands ts) := by
  unfold Term.ofSummands
  split
  · exact hP.num 0
  · exact h _ (by simp)
  · exact (hP.add ts).2 h

theorem sumFinite (hP : Inherited P) (h : ∀ t ∈ ts, P t) : P (sumFinite ts) := by
  apply hP.ofSummands
  refine fun s hs => mem_summands_sumFinite hP.num (fun p hp => ?_) hs
  obtain ⟨t, ht, -, heq⟩ := exists_of_mem_gathered hp
  rw [heq]
  exact hP.scaleSummand p.2 (hP.splitCoeff (h t ht))

theorem any_isSpecial_eq_false (hP : Inherited P) (h : ∀ t ∈ ts, P t) :
    ts.any isSpecial = false := by
  rw [List.any_eq_false]
  intro t ht
  cases t with
  | special s => exact absurd (h _ ht) (hP.finite s)
  | _ => simp [isSpecial]

theorem sum_eq_sumFinite (hP : Inherited P) (h : ∀ t ∈ ts, P t) :
    Term.sum ts = Term.sumFinite (ts.flatMap summands) := by
  unfold Term.sum
  dsimp only
  rw [hP.any_isSpecial_eq_false fun s hs => hP.mem_flatMap_summands h hs]
  rfl

theorem sum (hP : Inherited P) (h : ∀ t ∈ ts, P t) : P (sum ts) := by
  rw [hP.sum_eq_sumFinite h]
  exact hP.sumFinite fun s hs => hP.mem_flatMap_summands h hs

theorem scale (hP : Inherited P) (c : Rat) (h : P t) : P (scale c t) := by
  unfold Term.scale
  split
  · exact h
  · split
    · exact h
    · exact absurd h (hP.finite _)
    · exact absurd h (hP.finite _)
    · exact absurd h (hP.finite _)
    · next as _ =>
      split
      · exact hP.num 0
      · split
        · rw [hP.add] at h
          apply hP.sum
          intro s hs
          obtain ⟨a, ha, rfl⟩ := List.mem_map.1 hs
          exact hP.scaleSummand c (h a ha)
        · exact hP.withCoeff c fun a ha => by rwa [List.mem_singleton.1 ha]
    · split
      · exact hP.num 0
      · exact hP.scaleSummand c h

theorem neg (hP : Inherited P) (h : P t) : P t.neg := hP.scale (-1) h

theorem pair (hP : Inherited P) {a b : Term} (ha : P a) (hb : P b) : ∀ t ∈ [a, b.neg], P t := by
  intro t ht
  rcases List.mem_cons.1 ht with rfl | ht
  · exact ha
  · rw [List.mem_singleton.1 ht]
    exact hP.neg hb

theorem sub (hP : Inherited P) {a b : Term} (ha : P a) (hb : P b) : P (sub a b) :=
  hP.sum (hP.pair ha hb)

end Inherited
end Term
end Majorant
