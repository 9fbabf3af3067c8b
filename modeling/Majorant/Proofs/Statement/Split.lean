import Majorant.Proofs.Magnitude.Degree
import Majorant.Proofs.Statement.Connective
import Majorant.Statement.Split

/-!
# Statements say the same as their parts

The conjuncts of a statement hold together exactly if the statement does, and one of its disjuncts holds
exactly if it does, provided that the comparisons at hand are made into statements which say the same.
-/

namespace Majorant

namespace Magnitude

section Extreme

variable {K : Type} [LinearOrder K] {xs : List K} {s r : Rel} {x y : K}

theorem isExtremal_foldl {op : K → K → K} (hs : s = .le ∨ s = .ge)
    (hbound : ∀ x y, s.Compares x (op x y) ∧ s.Compares y (op x y))
    (hchoice : ∀ x y, op x y = x ∨ op x y = y) (ys : List K) (x : K) :
    IsExtremal s (x :: ys) (ys.foldl op x) := by
  have htrans : ∀ {u v z : K}, s.Compares u v → s.Compares v z → s.Compares u z := by
    intro u v z huv hvz
    rcases hs with rfl | rfl
    · exact le_trans huv hvz
    · exact le_trans hvz huv
  induction ys generalizing x with
  | nil =>
    refine ⟨List.forall_mem_singleton.2 ?_, List.mem_singleton_self x⟩
    rcases hs with rfl | rfl <;> exact le_refl x
  | cons y ys ih =>
    obtain ⟨hall, hmem⟩ := ih (op x y)
    obtain ⟨hfirst, hrest⟩ := List.forall_mem_cons.1 hall
    obtain ⟨hx, hy⟩ := hbound x y
    refine ⟨List.forall_mem_cons.2 ⟨htrans hx hfirst,
      List.forall_mem_cons.2 ⟨htrans hy hfirst, hrest⟩⟩, ?_⟩
    rw [List.foldl_cons]
    rcases List.mem_cons.1 hmem with heq | hmem
    · rw [heq]
      rcases hchoice x y with hxy | hxy <;> rw [hxy] <;> simp
    · exact List.mem_cons_of_mem _ (List.mem_cons_of_mem _ hmem)

end Extreme

theorem isExtremal_greatestOf {xs : List ℝ} (hne : xs ≠ []) : IsExtremal .le xs (greatestOf xs) := by
  cases xs with
  | nil => exact absurd rfl hne
  | cons x xs =>
    exact isExtremal_foldl (.inl rfl) (fun x y => ⟨le_max_left x y, le_max_right x y⟩) max_choice xs x

theorem isExtremal_leastOf {xs : List ℝ} (hne : xs ≠ []) : IsExtremal .ge xs (leastOf xs) := by
  cases xs with
  | nil => exact absurd rfl hne
  | cons x xs =>
    exact isExtremal_foldl (.inr rfl) (fun x y => ⟨min_le_left x y, min_le_right x y⟩) min_choice xs x

end Magnitude

namespace World
open Term Magnitude Statement

variable {M : Type} [LinearOrder M] {w : World M} {a b c t : Term} {as bs ts : List Term} {r s : Rel}

/-- **Sizes treat orders of magnitude as such**: an extremum of orders has the extreme size, and the
magnitudes of several frequencies interact if one of them is the largest of the others. -/
structure Measures (w : World M) : Prop where
  extreme : ∀ {h : Head} {as : List Term}, h = .orderMax ∨ h = .orderMin → as ≠ [] →
    IsExtremal (side h) (as.map w.size) (w.size (app h as))
  interaction : ∀ as : List Term, w.marks (app .littlewoodPaley as) ↔
    ∃ i a, as[i]? = some a ∧ IsExtremal .le ((as.eraseIdx i).map w.size) (w.size a)

def parts : Term → List Term
  | app .max as | app .min as | app .orderMax as | app .orderMin as => as
  | _ => []

/-- The comparisons of two terms are made into statements that say the same. -/
def Settles (w : World M) (a b : Term) : Prop :=
  ∀ r, ∃ c, (relate r a b).result = .ok c ∧ w.Says c (w.Relates r a b)

/-- An order of magnitude; if it is an extremum, it is one of orders. -/
structure IsScale (t : Term) : Prop where
  isOrder : t.isOrder = true
  evades : t.evades = false
  parts : ∀ u ∈ parts t, u.isOrder = true
  nonempty : ∀ {h as}, h = .orderMax ∨ h = .orderMin → t = app h as → as ≠ []

/-- **The two sides of a comparison are numbers or orders of magnitude.**  Of numbers it is assumed that
their comparisons, and those of the arguments if they are extrema, say what they should. -/
inductive Weighs (w : World M) (a b : Term) : Prop
  | numbers (numbers : w.Numbers a b)
      (plain : ∀ c ∈ (a :: parts a) ++ (b :: parts b), Operation.isWritten c = false)
      (settles : ∀ c ∈ a :: parts a, ∀ d ∈ b :: parts b, w.Settles c d)
  | orders (left : IsScale a) (right : IsScale b)

theorem leadingMinus_of_isOrder (h : t.isOrder = true) : t.leadingMinus = false := by
  unfold isOrder at h
  split at h <;> first | simp [leadingMinus] | cases h

theorem not_denotes_of_isOrder {ρ : Valuation} (h : t.isOrder = true) : ¬ t.Denotes ρ := by
  intro hdenotes
  rw [isOrder_of_denotes hdenotes] at h
  cases h

theorem relates_of_isOrder_left (h : a.isOrder = true) :
    w.Relates r a b ↔ r.Compares (w.size a) (w.size b) := by
  have hno : ¬ w.Numbers a b := fun hn => not_denotes_of_isOrder h hn.1
  simp [Relates, hno]

/-- **Comparisons of orders say what they should.** -/
theorem settles_of_isOrder (ha : a.isOrder = true) (hb : b.isOrder = true)
    (hevadesA : a.evades = false) (hevadesB : b.evades = false) : w.Settles a b := by
  intro r
  rcases relate_of_isOrder (r := r) ha hb hevadesA hevadesB with heq | ⟨rfl, hr, heq⟩
  · refine ⟨_, by rw [heq, Outcome.result_pure], ?_, holds_rel⟩
    exact .rel (.inr ⟨leadingMinus_of_isOrder ha, leadingMinus_of_isOrder hb⟩)
  · refine ⟨_, by rw [heq, Outcome.result_pure], .truth _, ?_⟩
    rw [holds_truth, relates_of_isOrder_left ha]
    rcases hr with rfl | rfl <;> simp [Rel.Compares]

theorem evades_of_mem (h : evadesList ts = false) : ∀ t ∈ ts, t.evades = false := by
  induction ts with
  | nil => exact nofun
  | cons t ts ih =>
    rw [evadesList, Bool.or_eq_false_iff] at h
    exact List.forall_mem_cons.2 ⟨h.1, ih h.2⟩

theorem IsScale.evades_parts (h : IsScale t) : ∀ u ∈ World.parts t, u.evades = false := by
  have hevades := h.evades
  intro u hu
  unfold World.parts at hu
  split at hu
  · exact evades_of_mem (by simpa [Term.evades] using hevades) u hu
  · exact evades_of_mem (by simpa [Term.evades] using hevades) u hu
  · exact evades_of_mem (by simpa [Term.evades] using hevades) u hu
  · exact evades_of_mem (by simpa [Term.evades] using hevades) u hu
  · cases hu

theorem Weighs.settles (h : w.Weighs a b) :
    ∀ c ∈ a :: parts a, ∀ d ∈ b :: parts b, w.Settles c d := by
  cases h with
  | numbers _ _ settles => exact settles
  | orders left right =>
    have hall : ∀ {t : Term}, IsScale t →
        ∀ c ∈ t :: parts t, c.isOrder = true ∧ c.evades = false := by
      intro t ht
      exact List.forall_mem_cons.2
        ⟨⟨ht.isOrder, ht.evades⟩, fun u hu => ⟨ht.parts u hu, ht.evades_parts u hu⟩⟩
    intro c hc d hd
    obtain ⟨hc, hevadesC⟩ := hall left c hc
    obtain ⟨hd, hevadesD⟩ := hall right d hd
    exact settles_of_isOrder hc hd hevadesC hevadesD

/-- The term is an extremum of the terms, on the side on which they compare with it. -/
def Extreme (s : Rel) (t : Term) (ts : List Term) : Prop :=
  (s = .le ∧ asMaximum? t = some ts) ∨ (s = .ge ∧ asMinimum? t = some ts)

theorem Extreme.cases (h : Extreme s t ts) :
    (s = .le ∧ (t = app .max ts ∨ t = app .orderMax ts)) ∨
      (s = .ge ∧ (t = app .min ts ∨ t = app .orderMin ts)) := by
  rcases h with ⟨rfl, h⟩ | ⟨rfl, h⟩
  · refine .inl ⟨rfl, ?_⟩
    unfold asMaximum? at h
    split at h
    · exact .inl (by rw [Option.some.inj h])
    · exact .inr (by rw [Option.some.inj h])
    · cases h
  · refine .inr ⟨rfl, ?_⟩
    unfold asMinimum? at h
    split at h
    · exact .inl (by rw [Option.some.inj h])
    · exact .inr (by rw [Option.some.inj h])
    · cases h

theorem Extreme.parts_eq (h : Extreme s t ts) : parts t = ts := by
  rcases h.cases with ⟨-, rfl | rfl⟩ | ⟨-, rfl | rfl⟩ <;> rfl

theorem Extreme.side (h : Extreme s t ts) : s = .le ∨ s = .ge := by
  rcases h with ⟨rfl, -⟩ | ⟨rfl, -⟩
  · exact .inl rfl
  · exact .inr rfl

theorem exists_says_mapM {α : Type} {f : α → Outcome Term} {P : α → Prop} {xs : List α}
    (h : ∀ x ∈ xs, ∃ u, (f x).result = .ok u ∧ w.Says u (P x)) :
    ∃ us, (xs.mapM f).result = .ok us ∧ (∀ u ∈ us, w.Interprets u) ∧
      ((∀ u ∈ us, w.Holds u) ↔ ∀ x ∈ xs, P x) ∧ ((∃ u ∈ us, w.Holds u) ↔ ∃ x ∈ xs, P x) := by
  obtain ⟨us, hmap, -⟩ := Outcome.exists_mapM h
  refine ⟨us, hmap, says_mapM (fun x hx m hm => ?_) hmap⟩
  obtain ⟨u, hu, hsays⟩ := h x hx
  cases hu.symm.trans hm
  exact hsays

theorem ofLiteral_of_not_isWritten (h : Operation.isWritten t = false) : ofLiteral t = pure t := by
  cases t with
  | lit l => cases h
  | _ => rfl

theorem written?_of_not_isWritten (h : Operation.isWritten t = false) :
    Operation.written? t = none := by
  cases t with
  | lit l => cases h
  | _ => rfl

theorem exists_member (ha : ofLiteral a = pure a) (hb : ofLiteral b = pure b)
    (hc : (relate r a b).result = .ok c) : ∃ m, (member c).result = .ok m := by
  rcases relate_cases ha hb hc with rfl | ⟨v, rfl⟩
  · exact ⟨_, rfl⟩
  · exact ⟨_, rfl⟩

theorem isWritten_of_isOrder (h : t.isOrder = true) : Operation.isWritten t = false := by
  cases t with
  | lit l => cases h
  | _ => rfl

theorem Weighs.isWritten (h : w.Weighs a b) :
    ∀ c ∈ (a :: parts a) ++ (b :: parts b), Operation.isWritten c = false := by
  cases h with
  | numbers _ plain _ => exact plain
  | orders left right =>
    intro c hc
    rcases List.mem_append.1 hc with hc | hc
    · rcases List.mem_cons.1 hc with rfl | hc
      · exact isWritten_of_isOrder left.isOrder
      · exact isWritten_of_isOrder (left.parts c hc)
    · rcases List.mem_cons.1 hc with rfl | hc
      · exact isWritten_of_isOrder right.isOrder
      · exact isWritten_of_isOrder (right.parts c hc)

theorem largest_eq (hne : as ≠ []) (has : ∀ a ∈ as, a.isOrder = true ∧ a.evades = false) :
    largest as = pure (Magnitude.extremum .orderMax as) := by
  have hmap : as.mapM theta = pure as := by
    have hmap := Outcome.mapM_eq_pure (f := theta) (g := id)
      fun a ha => theta_of_isOrder (has a ha).1 (has a ha).2
    rwa [List.map_id] at hmap
  unfold largest extremal
  rw [hmap, pure_bind]
  cases as with
  | nil => exact absurd rfl hne
  | cons => rfl

theorem isOrder_extremum (has : ∀ a ∈ as, a.isOrder = true ∧ a.evades = false) :
    (Magnitude.extremum .orderMax as).isOrder = true ∧ (Magnitude.extremum .orderMax as).evades = false := by
  have hmem : ∀ u ∈ as.eraseDups, u.isOrder = true ∧ u.evades = false :=
    fun u hu => has u (List.mem_eraseDups.1 hu)
  unfold Magnitude.extremum
  split
  · next u heq => exact hmem u (by rw [heq]; exact List.mem_singleton_self u)
  · exact ⟨rfl, Composed.evadesList_eq_false fun u hu => (hmem u hu).2⟩

/-- **One magnitude is the largest of the others** in one of the cases of an interaction. -/
theorem interactionCases_spec (hmeasures : w.Measures) (hlength : 2 ≤ as.length)
    (has : ∀ a ∈ as, a.isOrder = true ∧ a.evades = false) :
    ∃ ts, (interactionCases as).result = .ok ts ∧
      ((∃ t ∈ ts, w.Holds t) ↔ w.Holds (app .littlewoodPaley as)) := by
  have hcase : ∀ i ∈ List.range as.length, ∃ u,
      (largest (as.eraseIdx i) >>= relate .eq (as.getD i undefined)).result = .ok u ∧
        w.Says u (∃ a, as[i]? = some a ∧
          IsExtremal .le ((as.eraseIdx i).map w.size) (w.size a)) := by
    intro i hi
    have hi : i < as.length := List.mem_range.1 hi
    have hrest : ∀ a ∈ as.eraseIdx i, a.isOrder = true ∧ a.evades = false :=
      fun a ha => has a (List.mem_of_mem_eraseIdx ha)
    have hne : as.eraseIdx i ≠ [] := by
      apply List.ne_nil_of_length_pos
      rw [List.length_eraseIdx_of_lt hi]
      omega
    have hget : as[i]? = some as[i] := List.getElem?_eq_getElem hi
    have hgetD : as.getD i undefined = as[i] := by rw [List.getD_eq_getElem?_getD, hget]; rfl
    obtain ⟨ha, hevades⟩ := has as[i] (List.getElem_mem hi)
    obtain ⟨hext, hextEvades⟩ := isOrder_extremum hrest
    obtain ⟨u, hu, hsays⟩ := settles_of_isOrder (w := w) ha hext hevades hextEvades .eq
    refine ⟨u, ?_, hsays.congr ?_⟩
    · rw [largest_eq hne hrest, pure_bind, hgetD]
      exact hu
    · have hextreme := Extremes.extremum (h := .orderMax) (fun _ => hmeasures.extreme (.inl rfl)) hne
      rw [relates_of_isOrder_left ha, hget]
      constructor
      · intro heq
        have heq : w.size as[i] = w.size (Magnitude.extremum .orderMax (as.eraseIdx i)) := heq
        exact ⟨as[i], rfl, heq ▸ hextreme⟩
      · rintro ⟨a, ha, hmax⟩
        cases ha
        exact IsExtremal.unique (h := .orderMax) hmax hextreme
  obtain ⟨ts, hts, -, -, hexists⟩ := exists_says_mapM hcase
  refine ⟨ts, hts, hexists.trans ?_⟩
  rw [holds_littlewoodPaley, hmeasures.interaction]
  constructor
  · rintro ⟨i, -, a, ha, hmax⟩
    exact ⟨i, a, ha, hmax⟩
  · rintro ⟨i, a, ha, hmax⟩
    exact ⟨i, List.mem_range.2 (List.getElem?_eq_some_iff.1 ha).1, a, ha, hmax⟩

/-- **A statement can be taken apart**: the sides of a comparison can be compared, and the magnitudes of
an interaction are orders. -/
def Splits (w : World M) : Term → Prop
  | app (.rel _) [a, b] => w.Weighs a b
  | app .littlewoodPaley as => 2 ≤ as.length ∧ ∀ a ∈ as, a.isOrder = true ∧ a.evades = false
  | _ => True

end World
end Majorant
