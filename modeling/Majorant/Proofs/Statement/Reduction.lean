import Majorant.Proofs.Statement.Connective
import Majorant.Proofs.Statement.Cover
import Majorant.Statement.Reduction

/-!
# Reduced forms say the same

The minimal form of a statement is read off its truth table.
-/

namespace Majorant
namespace World
open Term Statement

variable {M : Type} [LinearOrder M] {w : World M} {t u a : Term} {ts ls indep : List Term}

theorem mem_atomsList : a ∈ atomsList ts ↔ ∃ t ∈ ts, a ∈ atoms t := by
  induction ts with
  | nil => simp [atomsList]
  | cons t ts ih => simp [atomsList, ih]

theorem atoms_of_marker {h : Head} (hh : marker h = true) : atoms (app h ts) = [app h ts] := by
  cases h <;> first | rfl | cases hh

theorem interprets_of_mem_atoms {M : Type} {w : World M} (h : w.Interprets t) (ha : a ∈ atoms t) : w.Interprets a := by
  induction h with
  | truth c =>
    rw [List.mem_singleton.1 ha]
    exact .truth c
  | var v =>
    rw [List.mem_singleton.1 ha]
    exact .var v
  | rel hclear =>
    rw [List.mem_singleton.1 ha]
    exact .rel hclear
  | and _ ih | or _ ih =>
    obtain ⟨t, ht, ha⟩ := mem_atomsList.1 ha
    exact ih t ht ha
  | not _ ih =>
    obtain ⟨t, ht, ha⟩ := mem_atomsList.1 ha
    rw [List.mem_singleton.1 ht] at ha
    exact ih ha
  | marker hh ts =>
    rw [atoms_of_marker hh, List.mem_singleton] at ha
    rw [ha]
    exact .marker hh ts

theorem allHold_eq_all (value : Term → Bool) (ts : List Term) :
    allHold value ts = ts.all (holdsUnder value) := by
  induction ts with
  | nil => rfl
  | cons t ts ih => rw [allHold, ih, List.all_cons]

theorem someHold_eq_any (value : Term → Bool) (ts : List Term) :
    someHold value ts = ts.any (holdsUnder value) := by
  induction ts with
  | nil => rfl
  | cons t ts ih => rw [someHold, ih, List.any_cons]

theorem holdsUnder_iff {value : Term → Bool} (h : w.Interprets t)
    (hvalue : ∀ a ∈ atoms t, (∀ c, a ≠ truth c) → (value a = true ↔ w.Holds a)) :
    holdsUnder value t = true ↔ w.Holds t := by
  induction h with
  | truth c => simp [holdsUnder]
  | var v => exact hvalue _ (List.mem_singleton_self _) nofun
  | rel => exact hvalue _ (List.mem_singleton_self _) nofun
  | and _ ih =>
    rw [holdsUnder, allHold_eq_all, List.all_eq_true, holds_and]
    exact forall₂_congr fun t ht => ih t ht fun a ha => hvalue a (mem_atomsList.2 ⟨t, ht, ha⟩)
  | or _ ih =>
    rw [holdsUnder, someHold_eq_any, List.any_eq_true, holds_or]
    exact exists_congr fun t => and_congr_right fun ht =>
      ih t ht fun a ha => hvalue a (mem_atomsList.2 ⟨t, ht, ha⟩)
  | @not t _ ih =>
    have hiff := ih fun a ha => hvalue a (mem_atomsList.2 ⟨t, List.mem_singleton_self t, ha⟩)
    rw [holdsUnder, allHold_eq_all, holds_not, ← hiff]
    simp
  | @marker g hh ts =>
    have hself : app g ts ∈ atoms (app g ts) := by
      rw [atoms_of_marker hh]
      exact List.mem_singleton_self _
    have hunder : holdsUnder value (app g ts) = value (app g ts) := by
      cases g <;> first | rfl | cases hh
    rw [hunder]
    exact hvalue _ hself nofun

/-- One more atom, unless it is constant or one that is there says the same or the opposite. -/
def addIndependent (acc : List Term) (a : Term) : List Term :=
  let known := acc.contains a || (a.isRel && acc.contains (negated a))
  let constant := match a with | truth _ => true | _ => false
  if known || constant then acc else acc ++ [a]

def Known (indep : List Term) (a : Term) : Prop :=
  (∃ c, a = truth c) ∨ a ∈ indep ∨ (a.isRel = true ∧ negated a ∈ indep)

theorem Known.mono {acc : List Term} (h : Known acc a) (hsub : acc ⊆ indep) : Known indep a := by
  rcases h with h | h | ⟨hrel, h⟩
  · exact .inl h
  · exact .inr (.inl (hsub h))
  · exact .inr (.inr ⟨hrel, hsub h⟩)

theorem addIndependent_spec (acc : List Term) (a : Term) :
    acc ⊆ addIndependent acc a ∧ addIndependent acc a ⊆ acc ++ [a] ∧ Known (addIndependent acc a) a := by
  refine iteInduction (motive := fun l => acc ⊆ l ∧ l ⊆ acc ++ [a] ∧ Known l a) (fun hcond => ?_) fun _ => ?_
  · refine ⟨List.Subset.refl acc, List.subset_append_left acc [a], ?_⟩
    rcases Bool.or_eq_true_iff.1 hcond with hknown | hconstant
    · rcases Bool.or_eq_true_iff.1 hknown with hmem | hnegated
      · exact .inr (.inl (List.contains_iff_mem.1 hmem))
      · obtain ⟨hrel, hmem⟩ := Bool.and_eq_true_iff.1 hnegated
        exact .inr (.inr ⟨hrel, List.contains_iff_mem.1 hmem⟩)
    · cases a with
      | truth c => exact .inl ⟨c, rfl⟩
      | _ => cases hconstant
  · exact ⟨List.subset_append_left acc [a], List.Subset.refl _,
      .inr (.inl (List.mem_append_right acc (List.mem_singleton_self a)))⟩

theorem foldl_addIndependent (as acc : List Term) :
    acc ⊆ as.foldl addIndependent acc ∧ as.foldl addIndependent acc ⊆ acc ++ as ∧
      ∀ a ∈ as, Known (as.foldl addIndependent acc) a := by
  induction as generalizing acc with
  | nil => simp
  | cons a as ih =>
    obtain ⟨hsub, hsubset, hknown⟩ := addIndependent_spec acc a
    obtain ⟨hsub', hsubset', hknown'⟩ := ih (addIndependent acc a)
    rw [List.foldl_cons]
    refine ⟨List.Subset.trans hsub hsub', ?_, ?_⟩
    · intro b hb
      rcases List.mem_append.1 (hsubset' hb) with hb | hb
      · rw [List.append_cons]
        exact List.mem_append_left as (hsubset hb)
      · exact List.mem_append_right acc (List.mem_cons_of_mem a hb)
    · exact List.forall_mem_cons.2 ⟨hknown.mono hsub', hknown'⟩

/-- **Independent atoms** are atoms, and with them all atoms are known. -/
theorem orderedAtoms_spec (t : Term) :
    orderedAtoms (independentAtoms t) ⊆ atoms t ∧
      ∀ a ∈ atoms t, Known (orderedAtoms (independentAtoms t)) a := by
  have hmem : ∀ a, a ∈ orderedAtoms (independentAtoms t) ↔ a ∈ independentAtoms t := by
    intro a
    rw [orderedAtoms, List.mem_append, mem_ordered, mem_ordered, List.mem_filter, List.mem_filter]
    cases a.isRel <;> simp
  have heq : independentAtoms t = (atoms t).foldl addIndependent [] := rfl
  obtain ⟨-, hsub, hknown⟩ := foldl_addIndependent (atoms t) []
  rw [← heq] at hsub hknown
  exact ⟨fun a ha => hsub ((hmem a).1 ha), fun a ha => (hknown a ha).mono fun b hb => (hmem b).2 hb⟩

noncomputable def truthOf (w : World M) (t : Term) : Bool := @decide (w.Holds t) (Classical.propDecidable _)

theorem truthOf_eq_true : w.truthOf t = true ↔ w.Holds t := by
  exact @decide_eq_true_iff _ (Classical.propDecidable _)

theorem find?_zip_map (f : Term → Bool) (indep : List Term) (a : Term) :
    (indep.zip (indep.map f)).find? (·.1 == a) = if a ∈ indep then some (a, f a) else none := by
  induction indep with
  | nil => rfl
  | cons b indep ih =>
    rw [List.map_cons, List.zip_cons_cons, List.find?_cons]
    by_cases hb : b = a
    · simp [hb]
    · have hbeq : (b == a) = false := by simpa using hb
      simp only [hbeq, ih, List.mem_cons, Ne.symm hb, false_or]

theorem atomValue_iff (ha : w.Interprets a) (hknown : Known indep a) (hconstant : ∀ c, a ≠ truth c) :
    atomValue indep (indep.map w.truthOf) a = true ↔ w.Holds a := by
  unfold atomValue
  rw [find?_zip_map, find?_zip_map]
  by_cases hmem : a ∈ indep
  · rw [if_pos hmem]
    exact truthOf_eq_true
  · rw [if_neg hmem]
    rcases hknown with ⟨c, rfl⟩ | h | ⟨hrel, h⟩
    · exact absurd rfl (hconstant c)
    · exact absurd h hmem
    · rw [if_pos h]
      dsimp only
      rw [Bool.not_eq_true', ← Bool.not_eq_true, truthOf_eq_true, (says_negated ha hrel).2, not_not]

theorem holdsUnder_truthOf (h : w.Interprets t) (hknown : ∀ a ∈ atoms t, Known indep a) :
    holdsUnder (atomValue indep (indep.map w.truthOf)) t = true ↔ w.Holds t :=
  holdsUnder_iff h fun a ha => atomValue_iff (interprets_of_mem_atoms h ha) (hknown a ha)

theorem says_literal {b flip : Bool} {l : Option Term} (ha : w.Interprets a)
    (hl : (if b != flip then pure (some a) else some <$> Statement.not a : Outcome _).result = .ok l) :
    ∃ l', l = some l' ∧ w.Says l' (w.truthOf a = (b != flip)) := by
  cases hsign : b != flip with
  | true =>
    rw [hsign] at hl
    cases hl
    exact ⟨a, rfl, ha, truthOf_eq_true.symm⟩
  | false =>
    rw [hsign, if_neg (by decide), map_eq_pure_bind] at hl
    obtain ⟨l', hl', hl⟩ := Outcome.result_bind_eq_ok.1 hl
    cases hl
    refine ⟨l', rfl, (says_not ha hl').congr ?_⟩
    rw [← truthOf_eq_true, Bool.not_eq_true]

/-- **The literals of a cube** hold, or all fail if they are turned around, where the cube covers the
assignment. -/
theorem literals_spec {flip : Bool} {c : Minimal.Cube} (hindep : ∀ a ∈ indep, w.Interprets a)
    (hls : (literals flip indep c).result = .ok ls) :
    (∀ l ∈ ls, w.Interprets l) ∧ ((∀ l ∈ ls, (w.Holds l ↔ flip = false)) ↔
      Minimal.covers c (Minimal.ofAssignment (indep.map w.truthOf)) = true) := by
  induction indep generalizing c ls with
  | nil =>
    cases hls
    simp [Minimal.covers, Minimal.ofAssignment]
  | cons a indep ih =>
    obtain ⟨ha, hindep⟩ := List.forall_mem_cons.1 hindep
    cases c with
    | nil =>
      cases hls
      simp [Minimal.covers]
    | cons v c =>
      unfold literals at hls
      rw [List.zip_cons_cons, List.filterMapM_cons] at hls
      obtain ⟨l, hl, hls⟩ := Outcome.result_bind_eq_ok.1 hls
      rw [List.map_cons, Minimal.covers_cons, Bool.and_eq_true]
      cases v with
      | none =>
        cases hl
        obtain ⟨hmeans, hiff⟩ := ih hindep hls
        exact ⟨hmeans, by rw [hiff]; simp⟩
      | some b =>
        -- the literal of this atom, and those of the other ones
        obtain ⟨l', rfl, hliteral⟩ := says_literal ha hl
        obtain ⟨ls', hls', hls⟩ := Outcome.result_bind_eq_ok.1 hls
        cases hls
        obtain ⟨hmeans, hiff⟩ := ih hindep hls'
        refine ⟨List.forall_mem_cons.2 ⟨hliteral.1, hmeans⟩, ?_⟩
        rw [List.forall_mem_cons, hiff, hliteral.2]
        refine and_congr_left fun _ => ?_
        cases w.truthOf a <;> cases b <;> cases flip <;> simp

theorem says_cubes {cubes : List Minimal.Cube} (hindep : ∀ a ∈ indep, w.Interprets a)
    (hu : (do disj (← cubes.mapM fun c => do conj (← literals false indep c))).result = .ok u) :
    w.Says u (Minimal.Covered cubes (indep.map w.truthOf)) := by
  obtain ⟨ds, hds, hu⟩ := Outcome.result_bind_eq_ok.1 hu
  have hcube : ∀ c ∈ cubes, ∀ d, (do conj (← literals false indep c)).result = .ok d →
      w.Says d (Minimal.covers c (Minimal.ofAssignment (indep.map w.truthOf)) = true) := by
    intro c _ d hd
    obtain ⟨ls, hls, hd⟩ := Outcome.result_bind_eq_ok.1 hd
    obtain ⟨hmeans, hiff⟩ := literals_spec hindep hls
    refine (says_conj hmeans hd).congr ?_
    rw [← hiff]
    simp
  obtain ⟨hmeans, -, hexists⟩ := says_mapM hcube hds
  exact (says_disj hmeans hu).congr hexists

theorem says_cocubes {cubes : List Minimal.Cube} (hindep : ∀ a ∈ indep, w.Interprets a)
    (hu : (do conj (← cubes.mapM fun c => do disj (← literals true indep c))).result = .ok u) :
    w.Says u (¬ Minimal.Covered cubes (indep.map w.truthOf)) := by
  obtain ⟨ds, hds, hu⟩ := Outcome.result_bind_eq_ok.1 hu
  have hcube : ∀ c ∈ cubes, ∀ d, (do disj (← literals true indep c)).result = .ok d →
      w.Says d (¬ Minimal.covers c (Minimal.ofAssignment (indep.map w.truthOf)) = true) := by
    intro c _ d hd
    obtain ⟨ls, hls, hd⟩ := Outcome.result_bind_eq_ok.1 hd
    obtain ⟨hmeans, hiff⟩ := literals_spec hindep hls
    refine (says_disj hmeans hd).congr ?_
    rw [← hiff]
    simp
  obtain ⟨hmeans, hforall, -⟩ := says_mapM hcube hds
  refine (says_conj hmeans hu).congr (hforall.trans ?_)
  simp [Minimal.Covered]

theorem says_minimal (h : w.Interprets t) (hu : (minimal t).result = .ok u) : w.Says u (w.Holds t) := by
  obtain ⟨hsub, hknown⟩ := orderedAtoms_spec t
  have hindep : ∀ a ∈ orderedAtoms (independentAtoms t), w.Interprets a :=
    fun a ha => interprets_of_mem_atoms h (hsub ha)
  have htable := holdsUnder_truthOf h hknown
  unfold minimal at hu
  split at hu
  case h_4 =>
    cases hu
    exact says_self h
  -- the rows that hold are covered, or the rows that fail are excluded
  all_goals
    dsimp only at hu
    split at hu
    · exact (says_cubes hindep hu).congr ((Minimal.covered_table _ _ (List.length_map _)).trans htable)
    · refine (says_cocubes hindep hu).congr ?_
      rw [Minimal.covered_table _ _ (List.length_map _), Bool.not_eq_true', Bool.not_eq_false, htable]

def Reduces (w : World M) (t : Term) : Prop :=
  ∀ u, (reduceComparison t).result = .ok u → w.Says u (w.Holds t)

def isArithmetic : Term → Bool
  | app (.rel _) [a, b] => !a.isOrder && !b.isOrder && !a.evades && !b.evades
  | _ => false

theorem reduces_of_not_isArithmetic (h : w.Interprets t) (hplain : isArithmetic t = false) : w.Reduces t := by
  intro u hu
  by_cases hrel : t.isRel = true
  · have hcanonical := says_canonical h hrel
    have htwice := says_canonical hcanonical.1 (isRel_canonical hrel)
    obtain ⟨r, a, b, rfl⟩ := exists_of_isRel hrel
    have hplain' : (!a.isOrder && !b.isOrder && !a.evades && !b.evades) = false := hplain
    unfold reduceComparison at hu
    dsimp only at hu
    rw [hplain'] at hu
    split at hu
    · cases hu
      exact says_self h
    · rw [if_neg (by simp)] at hu
      obtain ⟨solved, hsolved, hu⟩ := Outcome.result_bind_eq_ok.1 hu
      have hnone : solved = none := by
        cases hsolved
        rfl
      subst hnone
      cases hu
      exact iteInduction (motive := fun u => w.Says u _) (fun _ => htwice.congr hcanonical.2)
        fun _ => says_self h
  · have hself : reduceComparison t = pure t := by
      unfold reduceComparison
      split
      · exact absurd rfl hrel
      · rfl
    rw [hself] at hu
    cases hu
    exact says_self h

theorem reduceAtomsList_eq_mapM (ts : List Term) : reduceAtomsList ts = ts.mapM reduceAtoms := by
  induction ts with
  | nil => rfl
  | cons t ts ih => rw [reduceAtomsList, ih, List.mapM_cons]

/-- **Reducing the comparisons** of a statement keeps what it says. -/
theorem says_reduceAtoms (h : w.Interprets t) (hreduces : ∀ c ∈ atoms t, w.Reduces c)
    (hu : (reduceAtoms t).result = .ok u) : w.Says u (w.Holds t) := by
  induction h generalizing u with
  | truth | var | rel => exact hreduces _ (List.mem_singleton_self _) u hu
  | and _ ih =>
    rw [reduceAtoms, reduceAtomsList_eq_mapM] at hu
    obtain ⟨ms, hms, hu⟩ := Outcome.result_bind_eq_ok.1 hu
    obtain ⟨hmeans, hforall, -⟩ := says_mapM (fun t ht m hm =>
      ih t ht (fun c hc => hreduces c (mem_atomsList.2 ⟨t, ht, hc⟩)) hm) hms
    rw [holds_and]
    exact (says_conj hmeans hu).congr hforall
  | or _ ih =>
    rw [reduceAtoms, reduceAtomsList_eq_mapM] at hu
    obtain ⟨ms, hms, hu⟩ := Outcome.result_bind_eq_ok.1 hu
    obtain ⟨hmeans, -, hexists⟩ := says_mapM (fun t ht m hm =>
      ih t ht (fun c hc => hreduces c (mem_atomsList.2 ⟨t, ht, hc⟩)) hm) hms
    rw [holds_or]
    exact (says_disj hmeans hu).congr hexists
  | @not t _ ih =>
    rw [reduceAtoms] at hu
    obtain ⟨m, hm, hu⟩ := Outcome.result_bind_eq_ok.1 hu
    obtain ⟨hmeans, hiff⟩ :=
      ih (fun c hc => hreduces c (mem_atomsList.2 ⟨t, List.mem_singleton_self t, hc⟩)) hm
    rw [holds_not]
    exact (says_not hmeans hu).congr (not_congr hiff)
  | @marker g hh ts =>
    have heq : reduceAtoms (app g ts) = reduceComparison (app g ts) := by
      cases g <;> first | rfl | cases hh
    rw [heq] at hu
    refine hreduces _ ?_ u hu
    rw [atoms_of_marker hh]
    exact List.mem_singleton_self _

/-- **Minimal forms over reduced comparisons** say the same, if arithmetic does. -/
theorem says_minimalReduced (h : w.Interprets t)
    (hreduces : ∀ c ∈ atoms t, isArithmetic c = true → w.Reduces c)
    (hu : (minimalReduced t).result = .ok u) : w.Says u (w.Holds t) := by
  obtain ⟨m, hm, hu⟩ := Outcome.result_bind_eq_ok.1 hu
  have hall : ∀ c ∈ atoms t, w.Reduces c := by
    intro c hc
    cases harith : isArithmetic c with
    | true => exact hreduces c hc harith
    | false => exact reduces_of_not_isArithmetic (interprets_of_mem_atoms h hc) harith
  obtain ⟨hmeans, hiff⟩ := says_reduceAtoms h hall hm
  exact (says_minimal hmeans hu).congr hiff

end World
end Majorant
