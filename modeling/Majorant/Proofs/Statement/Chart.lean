import Mathlib.Algebra.BigOperators.Group.Finset.Piecewise
import Mathlib.Data.Finset.Card
import Mathlib.Data.List.GetD
import Mathlib.Tactic.Tauto
import Majorant.Statement.Minimal

/-!
# Charts of prime implicants

A chart says which cubes (columns) cover which rows.
-/

namespace Majorant
namespace Minimal
namespace Chart

variable {c c' : Chart} {primes rows : List Cube} {m n r s k l : ℕ}

theorem entry_eq : c.entry r k = (c.table[r]?.getD [])[k]?.getD false := by
  rw [entry, List.getD_eq_getElem?_getD, List.getD_eq_getElem?_getD]

theorem getD_column : (c.column k).getD r false = c.entry r k := by
  rw [entry_eq, column, List.getD_eq_getElem?_getD, List.getElem?_map]
  cases c.table[r]? <;> simp

theorem entry_strikeRow : (c.strikeRow s).entry r k = (c.entry r k && r != s) := by
  rw [entry_eq, entry_eq]
  dsimp only [strikeRow]
  rw [List.getElem?_set, List.getD_eq_getElem?_getD]
  by_cases hrs : s = r
  · subst hrs
    by_cases hs : s < c.table.length
    · rw [if_pos rfl, if_pos hs, Option.getD_some, List.getElem?_map]
      cases (c.table[s]?.getD [])[k]? <;> simp
    · simp [hs]
  · simp [hrs, Ne.symm hrs]

theorem entry_strikeColumn : (c.strikeColumn l).entry r k = (c.entry r k && k != l) := by
  rw [entry_eq, entry_eq]
  dsimp only [strikeColumn]
  rw [List.getElem?_map]
  cases hrow : c.table[r]? with
  | none => simp
  | some row =>
    rw [Option.map_some, Option.getD_some, Option.getD_some, List.getElem?_set]
    by_cases hkl : l = k
    · subst hkl
      by_cases hl : l < row.length <;> simp [hl]
    · simp [hkl, Ne.symm hkl]

theorem entry_clearEntry : (c.clearEntry s l).entry r k = (c.entry r k && !(r == s && k == l)) := by
  rw [entry_eq, entry_eq]
  dsimp only [clearEntry]
  rw [List.getElem?_modify]
  cases hrow : c.table[r]? with
  | none => simp
  | some row =>
    by_cases hrs : s = r
    · subst hrs
      rw [Option.map_eq_map, Option.map_some, if_pos rfl, Option.getD_some, Option.getD_some,
        List.getElem?_set]
      by_cases hkl : l = k
      · subst hkl
        by_cases hl : l < row.length <;> simp [hl]
      · simp [hkl, Ne.symm hkl]
    · simp [hrs, Ne.symm hrs]

/-- The columns hit every row that has an entry. -/
def Hits (c : Chart) (K : ℕ → Prop) : Prop :=
  ∀ r, (∃ k, c.entry r k = true) → ∃ k, K k ∧ c.entry r k = true

/-- Columns that hit the rows of the second chart hit those of the first. -/
def Refines (c c' : Chart) : Prop := ∀ K, c'.Hits K → c.Hits K

theorem Refines.refl (c : Chart) : Refines c c := fun _ h => h

theorem Refines.trans {c'' : Chart} (h : Refines c c') (h' : Refines c' c'') : Refines c c'' :=
  fun K hK => h K (h' K hK)

theorem refines_of_live (hsub : ∀ r k, c'.entry r k = true → c.entry r k = true)
    (hlive : ∀ r, (∃ k, c.entry r k = true) → ∃ k, c'.entry r k = true) : Refines c c' := by
  intro K hK r hr
  obtain ⟨k, hk, hentry⟩ := hK r (hlive r hr)
  exact ⟨k, hk, hsub r k hentry⟩

theorem refines_strikeColumn (hkl : k ≠ l) (h : ∀ r, c.entry r l = true → c.entry r k = true) :
    Refines c (c.strikeColumn l) := by
  refine refines_of_live ?_ ?_
  · intro r j hj
    rw [entry_strikeColumn, Bool.and_eq_true] at hj
    exact hj.1
  · rintro r ⟨j, hj⟩
    by_cases hjl : j = l
    · refine ⟨k, ?_⟩
      rw [entry_strikeColumn, h r (hjl ▸ hj)]
      simpa using hkl
    · refine ⟨j, ?_⟩
      rw [entry_strikeColumn, hj]
      simpa using hjl

theorem refines_clearEntry (hkl : k ≠ l) (h : c.entry s k = true) : Refines c (c.clearEntry s l) := by
  refine refines_of_live ?_ ?_
  · intro r j hj
    rw [entry_clearEntry, Bool.and_eq_true] at hj
    exact hj.1
  · rintro r ⟨j, hj⟩
    by_cases hstruck : r = s ∧ j = l
    · refine ⟨k, ?_⟩
      rw [entry_clearEntry, hstruck.1, h]
      simpa using hkl
    · refine ⟨j, ?_⟩
      rw [entry_clearEntry, hj]
      simpa [imp_iff_not_or] using hstruck

theorem refines_strikeRow (hrs : r ≠ s) (hlive : ∃ k, c.entry r k = true)
    (h : ∀ k, c.entry r k = true → c.entry s k = true) : Refines c (c.strikeRow s) := by
  have hkeep : ∀ t j, t ≠ s → ((c.strikeRow s).entry t j = true ↔ c.entry t j = true) := by
    intro t j hts
    rw [entry_strikeRow]
    simp [hts]
  intro K hK t ht
  by_cases hts : t = s
  · obtain ⟨k, hk⟩ := hlive
    obtain ⟨j, hj, hentry⟩ := hK r ⟨k, (hkeep r k hrs).2 hk⟩
    exact ⟨j, hj, hts ▸ h j ((hkeep r j hrs).1 hentry)⟩
  · obtain ⟨j, hj⟩ := ht
    obtain ⟨k, hk, hentry⟩ := hK t ⟨j, (hkeep t j hts).2 hj⟩
    exact ⟨k, hk, (hkeep t k hts).1 hentry⟩

def inRow (n : ℕ) (c : Chart) (r : ℕ) : Finset ℕ := (Finset.range n).filter fun k => c.entry r k = true

def inColumn (m : ℕ) (c : Chart) (k : ℕ) : Finset ℕ := (Finset.range m).filter fun r => c.entry r k = true

/-- **The numbers of entries are right.** -/
structure Counted (m n : ℕ) (c : Chart) : Prop where
  widths : ∀ row ∈ c.table, row.length = n
  bound : ∀ r k, c.entry r k = true → r < m ∧ k < n
  rows_eq : ∀ r, c.rows.getD r 0 = (c.inRow n r).card
  cols_eq : ∀ k, c.cols.getD k 0 = (c.inColumn m k).card

theorem mem_inRow (h : Counted m n c) : k ∈ c.inRow n r ↔ c.entry r k = true := by
  rw [inRow, Finset.mem_filter, Finset.mem_range]
  exact and_iff_right_of_imp fun hentry => (h.bound r k hentry).2

theorem mem_inColumn (h : Counted m n c) : r ∈ c.inColumn m k ↔ c.entry r k = true := by
  rw [inColumn, Finset.mem_filter, Finset.mem_range]
  exact and_iff_right_of_imp fun hentry => (h.bound r k hentry).1

theorem Counted.row_live (h : Counted m n c) : c.rows.getD r 0 ≠ 0 ↔ ∃ k, c.entry r k = true := by
  rw [h.rows_eq, Finset.card_ne_zero]
  exact exists_congr fun k => mem_inRow h

theorem Counted.column_live (h : Counted m n c) : c.cols.getD k 0 ≠ 0 ↔ ∃ r, c.entry r k = true := by
  rw [h.cols_eq, Finset.card_ne_zero]
  exact exists_congr fun r => mem_inColumn h

theorem getD_modify (xs : List ℕ) (i j : ℕ) :
    (xs.modify i (· - 1)).getD j 0 = xs.getD j 0 - if i = j then 1 else 0 := by
  rw [List.getD_eq_getElem?_getD, List.getD_eq_getElem?_getD, List.getElem?_modify]
  cases xs[j]? <;> by_cases hij : i = j <;> simp [hij]

theorem getD_foldl_modify (hit xs : List ℕ) (j : ℕ) :
    (hit.foldl (fun xs k => xs.modify k (· - 1)) xs).getD j 0 = xs.getD j 0 - hit.count j := by
  induction hit generalizing xs with
  | nil => rfl
  | cons k hit ih =>
    rw [List.foldl_cons, ih, getD_modify, List.count_cons]
    simp only [beq_iff_eq]
    omega

theorem count_marked (bs : List Bool) (i j : ℕ) :
    ((bs.zipIdx i).filterMap fun (b, k) => if b then some k else none).count j =
      if i ≤ j ∧ bs.getD (j - i) false = true then 1 else 0 := by
  induction bs generalizing i with
  | nil => simp
  | cons b bs ih =>
    have hhead : ((if b = true then some i else none : Option ℕ).toList).count j =
        if i = j ∧ b = true then 1 else 0 := by
      cases b <;> simp [List.count_singleton]
    have hsplit : (((b :: bs).zipIdx i).filterMap fun (b, k) => if b then some k else none) =
        (if b = true then some i else none : Option ℕ).toList ++
          ((bs.zipIdx (i + 1)).filterMap fun (b, k) => if b then some k else none) := by
      cases b <;> rfl
    rw [hsplit, List.count_append, hhead, ih]
    rcases lt_trichotomy i j with hij | rfl | hij
    · obtain ⟨d, rfl⟩ := Nat.exists_eq_add_of_lt hij
      have hne : i ≠ i + d + 1 := by omega
      have hle : i + 1 ≤ i + d + 1 := by omega
      have hle' : i ≤ i + d + 1 := by omega
      have hd : i + d + 1 - (i + 1) = d := by omega
      have hd' : i + d + 1 - i = d + 1 := by omega
      rw [hd, hd', List.getD_cons_succ]
      simp [hne, hle, hle']
    · simp
    · rw [if_neg (by omega), if_neg (by omega), if_neg (by omega)]

theorem card_filter_ne {p q : ℕ → Bool} {n a : ℕ} (ha : p a = true → a < n)
    (hq : ∀ x, q x = (p x && x != a)) :
    ((Finset.range n).filter fun x => q x = true).card =
      ((Finset.range n).filter fun x => p x = true).card - if p a = true then 1 else 0 := by
  have herase : ((Finset.range n).filter fun x => q x = true) =
      ((Finset.range n).filter fun x => p x = true).erase a := by
    ext x
    simp only [Finset.mem_filter, Finset.mem_erase, hq, Bool.and_eq_true, bne_iff_ne]
    tauto
  have hmem : a ∈ ((Finset.range n).filter fun x => p x = true) ↔ p a = true := by
    rw [Finset.mem_filter, Finset.mem_range]
    exact and_iff_right_of_imp ha
  rw [herase, Finset.card_erase_eq_ite]
  simp only [hmem]
  by_cases hp : p a = true
  · rw [if_pos hp, if_pos hp]
  · rw [if_neg hp, if_neg hp, Nat.sub_zero]

theorem getD_set_zero (xs : List ℕ) (i j : ℕ) :
    (xs.set i 0).getD j 0 = if i = j then 0 else xs.getD j 0 := by
  rw [List.getD_eq_getElem?_getD, List.getD_eq_getElem?_getD, List.getElem?_set]
  by_cases hij : i = j
  · subst hij
    by_cases hlen : i < xs.length <;> simp [hlen]
  · simp [hij]

theorem rows_strikeRow : (c.strikeRow s).rows.getD r 0 = if s = r then 0 else c.rows.getD r 0 :=
  getD_set_zero c.rows s r

theorem cols_strikeRow :
    (c.strikeRow s).cols.getD k 0 = c.cols.getD k 0 - if c.entry s k = true then 1 else 0 := by
  refine (getD_foldl_modify _ c.cols k).trans ?_
  rw [count_marked]
  simp [entry]

theorem cols_strikeColumn : (c.strikeColumn l).cols.getD k 0 = if l = k then 0 else c.cols.getD k 0 :=
  getD_set_zero c.cols l k

theorem rows_strikeColumn :
    (c.strikeColumn l).rows.getD r 0 = c.rows.getD r 0 - if c.entry r l = true then 1 else 0 := by
  refine (getD_foldl_modify _ c.rows r).trans ?_
  rw [count_marked, ← getD_column]
  simp

theorem inRow_congr (h : ∀ k, c'.entry r k = c.entry r k) : c'.inRow n r = c.inRow n r := by
  unfold inRow
  simp only [h]

theorem inColumn_congr (h : ∀ r, c'.entry r k = c.entry r k) : c'.inColumn m k = c.inColumn m k := by
  unfold inColumn
  simp only [h]

theorem Counted.strikeRow (h : Counted m n c) (s : ℕ) : Counted m n (c.strikeRow s) where
  widths := by
    intro row hrow
    dsimp only [Chart.strikeRow] at hrow
    obtain ⟨r, hr⟩ := List.mem_iff_getElem?.1 hrow
    rw [List.getElem?_set] at hr
    by_cases hsr : s = r
    · rw [if_pos hsr] at hr
      obtain ⟨hs, hr⟩ := Option.ite_none_right_eq_some.1 hr
      cases hr
      rw [List.length_map, List.getD_eq_getElem?_getD, List.getElem?_eq_getElem hs]
      exact h.widths _ (List.getElem_mem hs)
    · rw [if_neg hsr] at hr
      exact h.widths row (List.mem_of_getElem? hr)
  bound := by
    intro r k hentry
    rw [entry_strikeRow, Bool.and_eq_true] at hentry
    exact h.bound r k hentry.1
  rows_eq := by
    intro r
    rw [rows_strikeRow]
    by_cases hsr : s = r
    · rw [if_pos hsr, inRow]
      simp [entry_strikeRow, hsr]
    · rw [if_neg hsr, h.rows_eq]
      refine congrArg Finset.card (inRow_congr fun k => ?_).symm
      rw [entry_strikeRow]
      simp [Ne.symm hsr]
  cols_eq := by
    intro k
    rw [cols_strikeRow, h.cols_eq]
    exact (card_filter_ne (p := fun r => c.entry r k) (fun hentry => (h.bound s k hentry).1)
      fun r => entry_strikeRow).symm

theorem Counted.strikeColumn (h : Counted m n c) (l : ℕ) : Counted m n (c.strikeColumn l) where
  widths := by
    intro row hrow
    obtain ⟨row', hrow', rfl⟩ := List.mem_map.1 hrow
    rw [List.length_set]
    exact h.widths row' hrow'
  bound := by
    intro r k hentry
    rw [entry_strikeColumn, Bool.and_eq_true] at hentry
    exact h.bound r k hentry.1
  rows_eq := by
    intro r
    rw [rows_strikeColumn, h.rows_eq]
    exact (card_filter_ne (p := fun k => c.entry r k) (fun hentry => (h.bound r l hentry).2)
      fun k => entry_strikeColumn).symm
  cols_eq := by
    intro k
    rw [cols_strikeColumn]
    by_cases hlk : l = k
    · rw [if_pos hlk, inColumn]
      simp [entry_strikeColumn, hlk]
    · rw [if_neg hlk, h.cols_eq]
      refine congrArg Finset.card (inColumn_congr fun r => ?_).symm
      rw [entry_strikeColumn]
      simp [Ne.symm hlk]

def dropEntry (c : Chart) (s l : ℕ) : Chart :=
  { c.clearEntry s l with rows := c.rows.modify s (· - 1), cols := c.cols.modify l (· - 1) }

theorem entry_dropEntry : (c.dropEntry s l).entry r k = (c.entry r k && !(r == s && k == l)) :=
  entry_clearEntry

theorem Counted.dropEntry (h : Counted m n c) (hsl : c.entry s l = true) :
    Counted m n (c.dropEntry s l) where
  widths := by
    intro row hrow
    obtain ⟨r, hr⟩ := List.mem_iff_getElem?.1 hrow
    dsimp only [Chart.dropEntry, Chart.clearEntry] at hr
    rw [List.getElem?_modify] at hr
    obtain ⟨row', hrow', rfl⟩ := Option.map_eq_some_iff.1 hr
    have hlength := h.widths row' (List.mem_of_getElem? hrow')
    by_cases hsr : s = r
    · rw [if_pos hsr, List.length_set, hlength]
    · rw [if_neg hsr, hlength]
  bound := by
    intro r k hentry
    rw [entry_dropEntry, Bool.and_eq_true] at hentry
    exact h.bound r k hentry.1
  rows_eq := by
    intro r
    refine (getD_modify c.rows s r).trans ?_
    rw [h.rows_eq]
    by_cases hsr : s = r
    · subst hsr
      have hcard := card_filter_ne (p := fun k => c.entry s k) (q := fun k => (c.dropEntry s l).entry s k)
        (a := l) (fun hentry => (h.bound s l hentry).2) fun k => by simp [entry_dropEntry, bne]
      rw [if_pos rfl, inRow, inRow, hcard, if_pos hsl]
    · rw [if_neg hsr, Nat.sub_zero]
      refine congrArg Finset.card (inRow_congr fun k => ?_).symm
      simp [entry_dropEntry, Ne.symm hsr]
  cols_eq := by
    intro k
    refine (getD_modify c.cols l k).trans ?_
    rw [h.cols_eq]
    by_cases hlk : l = k
    · subst hlk
      have hcard := card_filter_ne (p := fun r => c.entry r l) (q := fun r => (c.dropEntry s l).entry r l)
        (a := s) (fun hentry => (h.bound s l hentry).1) fun r => by simp [entry_dropEntry, bne]
      rw [if_pos rfl, inColumn, inColumn, hcard, if_pos hsl]
    · rw [if_neg hlk, Nat.sub_zero]
      refine congrArg Finset.card (inColumn_congr fun r => ?_).symm
      simp [entry_dropEntry, Ne.symm hlk]

theorem le_of_dominates {as bs : List Bool} (h : dominates as bs = true) (hlength : as.length = bs.length)
    (i : ℕ) (hi : bs.getD i false = true) : as.getD i false = true := by
  induction as generalizing bs i with
  | nil =>
    cases bs with
    | nil => exact hi
    | cons b bs => cases hlength
  | cons a as ih =>
    cases bs with
    | nil => cases hlength
    | cons b bs =>
      have hsplit : ((a || !b) && dominates as bs) = true := h
      obtain ⟨hhead, htail⟩ := Bool.and_eq_true_iff.1 hsplit
      cases i with
      | zero =>
        rw [List.getD_cons_zero] at hi ⊢
        simpa [hi] using hhead
      | succ i => exact ih htail (Nat.succ.inj hlength) i hi

/-- A chart that is right and whose selections suffice for another one. -/
structure Follows (m n : ℕ) (c c' : Chart) : Prop where
  counted : Counted m n c'
  refines : Refines c c'

theorem Follows.trans {c'' : Chart} (h : Follows m n c c') (h' : Follows m n c' c'') :
    Follows m n c c'' := ⟨h'.counted, h.refines.trans h'.refines⟩

theorem follows_self (h : Counted m n c) : Follows m n c c := ⟨h, .refl c⟩

theorem Counted.length_row (h : Counted m n c) (hlive : c.rows.getD r 0 ≠ 0) :
    (c.table.getD r []).length = n := by
  obtain ⟨k, hk⟩ := h.row_live.1 hlive
  rw [entry_eq] at hk
  rw [List.getD_eq_getElem?_getD]
  cases hrow : c.table[r]? with
  | none =>
    rw [hrow] at hk
    cases hk
  | some row => exact h.widths row (List.mem_of_getElem? hrow)

/-- **Rows**: of two comparable ones the larger is struck. -/
theorem follows_reduceRows (h : Counted m n c) : Follows m n c c.reduceRows.1 := by
  unfold reduceRows
  refine List.foldlRecOn (motive := fun acc : Chart × Bool => Follows m n c acc.1) _ _ (follows_self h) ?_
  intro acc hacc r _
  split
  · exact hacc
  · refine List.foldlRecOn (motive := fun acc : Chart × Bool => Follows m n c acc.1) _ _ hacc ?_
    intro acc hacc s _
    dsimp only
    split
    · next hcond =>
      simp only [Bool.and_eq_true, decide_eq_true_eq] at hcond
      obtain ⟨⟨⟨hrs, halive⟩, hle⟩, hdominates⟩ := hcond
      have hcounted := hacc.counted
      have hlengths : (acc.1.table.getD s []).length = (acc.1.table.getD r []).length := by
        rw [hcounted.length_row halive, hcounted.length_row (r := s) (by omega)]
      exact hacc.trans ⟨hcounted.strikeRow s, refines_strikeRow hrs (hcounted.row_live.1 halive)
        (le_of_dominates hdominates hlengths)⟩
    · exact hacc

/-- **Columns**: of two comparable ones the smaller is struck. -/
theorem follows_reduceColumns (h : Counted m n c) (width : ℕ) : Follows m n c (c.reduceColumns width).1 := by
  -- a column is as it was at the start, or it has been struck
  let Inv : Chart × Bool → Prop := fun acc => Follows m n c acc.1 ∧
    ∀ k, acc.1.cols.getD k 0 ≠ 0 → ∀ r, acc.1.entry r k = c.entry r k
  unfold reduceColumns
  refine (List.foldlRecOn (motive := Inv) _ _ ⟨follows_self h, fun _ _ _ => rfl⟩ ?_).1
  intro acc hacc k _
  split
  · exact hacc
  · refine List.foldlRecOn (motive := Inv) _ _ hacc ?_
    rintro acc ⟨hfollows, hsame⟩ l _
    dsimp only
    split
    · next hcond =>
      simp only [Bool.and_eq_true, decide_eq_true_eq] at hcond
      obtain ⟨⟨⟨hkl, hlive⟩, hle⟩, hdominates⟩ := hcond
      refine ⟨hfollows.trans ⟨hfollows.counted.strikeColumn l, refines_strikeColumn hkl ?_⟩, ?_⟩
      · intro r hr
        rw [hsame l hlive] at hr
        rw [hsame k (by omega), ← getD_column]
        refine le_of_dominates hdominates (by simp [column]) r ?_
        rwa [getD_column]
      · intro j hj r
        rw [cols_strikeColumn] at hj
        by_cases hlj : l = j
        · rw [if_pos hlj] at hj
          exact absurd rfl hj
        · rw [if_neg hlj] at hj
          rw [entry_strikeColumn, hsame j hj]
          simp [Ne.symm hlj]
    · exact ⟨hfollows, hsame⟩

/-- **A column is chosen**: the rows that it hits need no other one. -/
theorem follows_choose (h : Counted m n c) (width k : ℕ) : Follows m n c (c.choose width k).1 := by
  let Inv : Chart × Bool → Prop := fun acc => Follows m n c acc.1 ∧ ∀ r, acc.1.entry r k = c.entry r k
  unfold choose
  refine (List.foldlRecOn (motive := Inv) _ _ ⟨follows_self h, fun _ => rfl⟩ ?_).1
  intro acc hacc l _
  split
  · exact hacc
  · next hlk =>
    refine List.foldlRecOn (motive := Inv) _ _ hacc ?_
    rintro acc ⟨hfollows, hsame⟩ ⟨b, r⟩ hmem
    dsimp only
    split
    · next hcond =>
      obtain ⟨hb, hentry⟩ := Bool.and_eq_true_iff.1 hcond
      have hr : c.entry r k = true := by
        rw [← getD_column, List.getD_eq_getElem?_getD, List.mem_zipIdx_iff_getElem?.1 hmem]
        exact hb
      refine ⟨hfollows.trans ⟨hfollows.counted.dropEntry hentry, ?_⟩, ?_⟩
      · exact refines_clearEntry (Ne.symm hlk) (by rw [hsame, hr])
      · intro t
        refine (entry_dropEntry (c := acc.1) (s := r) (l := l)).trans ?_
        rw [hsame]
        simp [Ne.symm hlk]
    · exact ⟨hfollows, hsame⟩

/-- **Reductions**: a selection for the chart that is left suffices. -/
theorem follows_settle (h : Counted m n c) (width fuel : ℕ) : Follows m n c (c.settle width fuel) := by
  induction fuel generalizing c with
  | zero => exact follows_self h
  | succ fuel ih =>
    have hrows := follows_reduceRows h
    have hcolumns := hrows.trans (follows_reduceColumns hrows.counted width)
    unfold settle
    dsimp only
    split
    · exact hcolumns.trans (ih hcolumns.counted)
    · split
      · have hchoose := hcolumns.trans (follows_choose hcolumns.counted width
          (c.reduceRows.1.reduceColumns width).1.largestColumn.2)
        split
        · exact hchoose.trans (ih hchoose.counted)
        · exact hchoose
      · exact hcolumns

theorem length_filter_id (bs : List Bool) :
    (bs.filter id).length = ((Finset.range bs.length).filter fun k => bs.getD k false = true).card := by
  induction bs with
  | nil => rfl
  | cons b bs ih =>
    rw [Finset.card_filter, List.length_cons, Finset.sum_range_succ', ← Finset.card_filter]
    simp only [List.getD_cons_succ, List.getD_cons_zero]
    rw [← ih]
    cases b <;> rfl

def ofCubes (primes rows : List Cube) : Chart :=
  let table := rows.map fun a => primes.map (covers · a)
  { table := table,
    rows := table.map fun r => (r.filter id).length,
    cols := (List.range primes.length).map fun k => (table.filter (·.getD k false)).length }

theorem entry_ofCubes : (ofCubes primes rows).entry r k = true ↔
    ∃ p a, primes[k]? = some p ∧ rows[r]? = some a ∧ covers p a = true := by
  rw [entry_eq, ofCubes, List.getElem?_map]
  cases hrow : rows[r]? with
  | none => simp
  | some a =>
    rw [Option.map_some, Option.getD_some, List.getElem?_map]
    cases hprime : primes[k]? <;> simp

theorem counted_ofCubes (primes rows : List Cube) :
    Counted rows.length primes.length (ofCubes primes rows) where
  widths := by
    intro row hrow
    obtain ⟨a, -, rfl⟩ := List.mem_map.1 hrow
    exact List.length_map _
  bound := by
    intro r k hentry
    obtain ⟨p, a, hp, ha, -⟩ := entry_ofCubes.1 hentry
    exact ⟨(List.getElem?_eq_some_iff.1 ha).1, (List.getElem?_eq_some_iff.1 hp).1⟩
  rows_eq := by
    intro r
    have hcount : (ofCubes primes rows).rows.getD r 0 =
        (((ofCubes primes rows).table.getD r []).filter id).length :=
      List.getD_map _ [] fun row : List Bool => (row.filter id).length
    rw [hcount, length_filter_id, inRow]
    by_cases hr : r < rows.length
    · have hlength : ((ofCubes primes rows).table.getD r []).length = primes.length := by
        simp [ofCubes, hr]
      rw [hlength]
      rfl
    · have hempty : (ofCubes primes rows).table.getD r [] = [] := by
        simp [ofCubes, hr]
      simp only [entry, hempty]
      simp
  cols_eq := by
    intro k
    have hcolumn : ((ofCubes primes rows).table.filter (·.getD k false)).length =
        ((ofCubes primes rows).inColumn rows.length k).card := by
      have hlength : ((ofCubes primes rows).column k).length = rows.length := by
        simp [column, ofCubes]
      have hcount := length_filter_id ((ofCubes primes rows).column k)
      rw [hlength, column, List.filter_map, List.length_map] at hcount
      refine hcount.trans ?_
      rw [inColumn]
      simp only [← getD_column]
      rfl
    by_cases hk : k < primes.length
    · rw [← hcolumn]
      simp [ofCubes, hk]
    · have hempty : (ofCubes primes rows).inColumn rows.length k = ∅ := by
        refine Finset.filter_eq_empty_iff.2 fun r _ hentry => ?_
        obtain ⟨p, -, hp, -⟩ := entry_ofCubes.1 hentry
        exact hk (List.getElem?_eq_some_iff.1 hp).1
      rw [hempty]
      simp [ofCubes, hk]

end Chart
end Minimal
end Majorant
