import Mathlib.Data.Fintype.Option
import Majorant.Proofs.Statement.Chart

/-!
# Prime implicants cover what the rows cover

Merging cubes keeps the assignments that they cover, and so does the selection that the reduced chart
makes.
-/

namespace Majorant
namespace Minimal

variable {a b c : Cube} {x : List Bool} {cs primes rows : List Cube} {n i : ℕ}

/-- Some cube covers the assignment. -/
def Covered (cs : List Cube) (x : List Bool) : Prop := ∃ c ∈ cs, covers c (ofAssignment x) = true

theorem covers_cons (p : Option Bool) (c : Cube) (y : Bool) (x : List Bool) :
    covers (p :: c) (ofAssignment (y :: x)) = ((p.isNone || p == some y) && covers c (ofAssignment x)) :=
  rfl

theorem fits_of_ne : ∀ p q : Option Bool, p ≠ q → ∀ y : Bool,
    (p.isNone || p == some y) = true ∨ (q.isNone || q == some y) = true := by
  decide

theorem covers_merge (h : difference? a b = some i) :
    covers (a.set i none) (ofAssignment x) = true ↔
      covers a (ofAssignment x) = true ∨ covers b (ofAssignment x) = true := by
  induction a generalizing b i x with
  | nil => cases b <;> cases h
  | cons p a ih =>
    cases b with
    | nil => cases h
    | cons q b =>
      cases x with
      | nil => cases i <;> simp [covers, ofAssignment]
      | cons y x =>
        unfold difference? at h
        split at h
        · next hpq =>
          obtain ⟨j, hj, rfl⟩ := Option.map_eq_some_iff.1 h
          subst hpq
          rw [List.set_cons_succ, covers_cons, covers_cons, covers_cons, Bool.and_eq_true, ih hj,
            Bool.and_eq_true, Bool.and_eq_true, ← and_or_left]
        · next hpq =>
          split at h
          · next hab =>
            cases h
            subst hab
            rw [List.set_cons_zero, covers_cons, covers_cons, covers_cons]
            simp only [Bool.and_eq_true]
            rw [← or_and_right, and_congr_left_iff]
            exact fun _ => iff_of_true rfl (fits_of_ne p q hpq y)
          · cases h

theorem mem_merges {m : Cube × Cube × Cube} (h : m ∈ merges cs) :
    m.1 ∈ cs ∧ m.2.1 ∈ cs ∧ (covers m.2.2 (ofAssignment x) = true ↔
      covers m.1 (ofAssignment x) = true ∨ covers m.2.1 (ofAssignment x) = true) := by
  unfold merges at h
  simp only [List.mem_flatMap, List.mem_filterMap, List.mem_filter] at h
  obtain ⟨k, -, a, ⟨ha, -⟩, b, ⟨hb, -⟩, hm⟩ := h
  obtain ⟨i, hi, rfl⟩ := Option.map_eq_some_iff.1 hm
  exact ⟨ha, hb, covers_merge hi⟩

theorem covered_round (cs : List Cube) (x : List Bool) :
    Covered ((merges cs).map (·.2.2)).eraseDups x ∨
        Covered (cs.filter fun c => !((merges cs).any fun m => m.1 == c || m.2.1 == c)) x ↔
      Covered cs x := by
  constructor
  · rintro (⟨c, hc, hx⟩ | ⟨c, hc, hx⟩)
    · obtain ⟨m, hm, rfl⟩ := List.mem_map.1 (List.mem_eraseDups.1 hc)
      obtain ⟨hfst, hsnd, hiff⟩ := mem_merges (x := x) hm
      rcases hiff.1 hx with hx | hx
      · exact ⟨m.1, hfst, hx⟩
      · exact ⟨m.2.1, hsnd, hx⟩
    · exact ⟨c, List.mem_of_mem_filter hc, hx⟩
  · rintro ⟨c, hc, hx⟩
    by_cases hmerges : (merges cs).any (fun m => m.1 == c || m.2.1 == c) = true
    · obtain ⟨m, hm, hc⟩ := List.any_eq_true.1 hmerges
      obtain ⟨-, -, hiff⟩ := mem_merges (x := x) hm
      refine .inl ⟨m.2.2, List.mem_eraseDups.2 (List.mem_map_of_mem hm), hiff.2 ?_⟩
      simp only [Bool.or_eq_true, beq_iff_eq] at hc
      rcases hc with rfl | rfl
      · exact .inl hx
      · exact .inr hx
    · exact .inr ⟨c, List.mem_filter.2 ⟨hc, by simpa using hmerges⟩, hx⟩

theorem covered_append (cs ds : List Cube) (x : List Bool) :
    Covered (cs ++ ds) x ↔ Covered cs x ∨ Covered ds x := by
  simp only [Covered, List.mem_append, or_and_right, exists_or]

/-- **Prime implicants** cover the assignments that the cubes cover, for any number of rounds. -/
theorem covered_implicants (fuel : ℕ) (cs : List Cube) (x : List Bool) :
    Covered (implicants fuel cs) x ↔ Covered cs x := by
  induction fuel generalizing cs with
  | zero => rfl
  | succ fuel ih =>
    rw [← covered_round cs x]
    unfold implicants
    dsimp only
    split
    · next hempty =>
      rw [List.isEmpty_iff.1 hempty]
      simp [Covered]
    · rw [covered_append, ih]

theorem mem_cover {p : Cube} : p ∈ cover primes rows ↔ rows ≠ [] ∧ ∃ k, primes[k]? = some p ∧
    ((Chart.ofCubes primes rows).settle primes.length
      (rows.length * primes.length + primes.length + 4)).cols.getD k 0 ≠ 0 := by
  have heq : cover primes rows = if rows.isEmpty then [] else
      (primes.zip ((Chart.ofCubes primes rows).settle primes.length
        (rows.length * primes.length + primes.length + 4)).cols).filterMap
          fun x => if x.2 ≠ 0 then some x.1 else none := rfl
  rw [heq]
  cases rows with
  | nil => simp
  | cons a rows =>
    simp only [List.isEmpty_cons, Bool.false_eq_true, if_false, List.mem_filterMap, Prod.exists,
      Option.ite_none_right_eq_some, Option.some.injEq, ne_eq, reduceCtorEq, not_false_eq_true, true_and]
    constructor
    · rintro ⟨q, n, hmem, hn, rfl⟩
      obtain ⟨k, hk⟩ := List.mem_iff_getElem?.1 hmem
      obtain ⟨hprime, hcol⟩ := List.getElem?_zip_eq_some.1 hk
      refine ⟨k, hprime, ?_⟩
      rwa [List.getD_eq_getElem?_getD, hcol]
    · rintro ⟨k, hprime, hcol⟩
      rw [List.getD_eq_getElem?_getD] at hcol
      obtain ⟨n, hn⟩ : ∃ n, ((Chart.ofCubes primes (a :: rows)).settle primes.length
          ((a :: rows).length * primes.length + primes.length + 4)).cols[k]? = some n := by
        rw [← Option.isSome_iff_exists]
        by_contra hnone
        rw [Option.not_isSome_iff_eq_none.1 hnone] at hcol
        exact hcol rfl
      rw [hn] at hcol
      exact ⟨p, n, List.mem_of_getElem? (List.getElem?_zip_eq_some.2 ⟨hprime, hn⟩), hcol, rfl⟩

/-- **The cubes selected** cover every row that some cube covers. -/
theorem covered_cover {a : Cube} (ha : a ∈ rows) (hcovered : ∃ p ∈ primes, covers p a = true) :
    ∃ p ∈ cover primes rows, covers p a = true := by
  have hfollows := Chart.follows_settle (Chart.counted_ofCubes primes rows) primes.length
    (rows.length * primes.length + primes.length + 4)
  generalize hfinal : (Chart.ofCubes primes rows).settle primes.length
    (rows.length * primes.length + primes.length + 4) = final at hfollows
  have hhits : (Chart.ofCubes primes rows).Hits fun k => final.cols.getD k 0 ≠ 0 := by
    refine hfollows.refines _ fun r ⟨k, hk⟩ => ⟨k, ?_, hk⟩
    exact hfollows.counted.column_live.2 ⟨r, hk⟩
  obtain ⟨r, hr⟩ := List.mem_iff_getElem?.1 ha
  obtain ⟨p, hp, hcovers⟩ := hcovered
  obtain ⟨k, hk⟩ := List.mem_iff_getElem?.1 hp
  obtain ⟨l, hl, hentry⟩ := hhits r ⟨k, Chart.entry_ofCubes.2 ⟨p, a, hk, hr, hcovers⟩⟩
  obtain ⟨q, a', hq, ha', hcovers⟩ := Chart.entry_ofCubes.1 hentry
  rw [hr] at ha'
  cases ha'
  exact ⟨q, mem_cover.2 ⟨List.ne_nil_of_mem ha, l, hq, hfinal ▸ hl⟩, hcovers⟩

theorem cover_subset (primes rows : List Cube) : cover primes rows ⊆ primes := by
  intro p hp
  obtain ⟨-, k, hk, -⟩ := mem_cover.1 hp
  exact List.mem_of_getElem? hk

theorem mem_assignments : x ∈ assignments n ↔ x.length = n := by
  induction n generalizing x with
  | zero => simp [assignments]
  | succ n ih =>
    cases x with
    | nil => simp [assignments]
    | cons y x => cases y <;> simp [assignments, ih]

theorem covers_ofAssignment {y : List Bool} (h : y.length = x.length) :
    covers (ofAssignment y) (ofAssignment x) = true ↔ y = x := by
  induction y generalizing x with
  | nil =>
    cases x with
    | nil => simp [covers, ofAssignment]
    | cons => cases h
  | cons b y ih =>
    cases x with
    | nil => cases h
    | cons b' x =>
      have hcons : ofAssignment (b :: y) = some b :: ofAssignment y := rfl
      rw [hcons, covers_cons, Bool.and_eq_true, ih (Nat.succ.inj h)]
      simp

/-- **The cubes selected for a truth table** cover the assignments that it holds of. -/
theorem covered_table (p : List Bool → Bool) (fuel : ℕ) (hx : x.length = n) :
    Covered (cover (implicants fuel (((assignments n).filter p).map ofAssignment))
      (((assignments n).filter p).map ofAssignment)) x ↔ p x = true := by
  have hrows : Covered (((assignments n).filter p).map ofAssignment) x ↔ p x = true := by
    constructor
    · rintro ⟨c, hc, hcovers⟩
      obtain ⟨y, hy, rfl⟩ := List.mem_map.1 hc
      obtain ⟨hy, hp⟩ := List.mem_filter.1 hy
      rw [covers_ofAssignment (by rw [mem_assignments.1 hy, hx])] at hcovers
      rwa [← hcovers]
    · intro hp
      exact ⟨ofAssignment x,
        List.mem_map_of_mem (List.mem_filter.2 ⟨mem_assignments.2 hx, hp⟩), (covers_ofAssignment rfl).2 rfl⟩
  constructor
  · rintro ⟨c, hc, hcovers⟩
    rw [← hrows, ← covered_implicants fuel]
    exact ⟨c, cover_subset _ _ hc, hcovers⟩
  · intro hp
    have hmem := List.mem_map_of_mem (f := ofAssignment)
      (List.mem_filter.2 ⟨mem_assignments.2 hx, hp⟩)
    exact covered_cover hmem ((covered_implicants fuel _ x).2 (hrows.2 hp))

end Minimal
end Majorant
