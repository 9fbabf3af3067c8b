import Majorant.Proofs.Comparison
import Majorant.Tactic.Run
import Mathlib.Data.List.GetD

/-!
# Chains of comparisons

A chain of relations is accepted if every way in which its ends may compare is allowed by the
relation of the goal.
-/

namespace Majorant
open Term Proof

variable {K : Type} [LinearOrder K]

namespace Rel

variable {r : Rel} {rs : List Rel} {x y : ℕ → K}

/-- Each value compares with the next one as the relations say. -/
def Linked (rs : List Rel) (x : ℕ → K) : Prop :=
  ∀ i (h : i < rs.length), rs[i].Compares (x i) (x (i + 1))

theorem linked_concat :
    Linked (rs ++ [r]) x ↔ Linked rs x ∧ r.Compares (x rs.length) (x (rs.length + 1)) := by
  constructor
  · intro h
    constructor
    · intro i hi
      have hlink := h i (by simp; omega)
      simpa [List.getElem_append_left hi] using hlink
    · simpa using h rs.length (by simp)
  · rintro ⟨h, hlast⟩ i hi
    rcases Nat.lt_or_ge i rs.length with hlt | hge
    · simpa [List.getElem_append_left hlt] using h i hlt
    · obtain rfl : i = rs.length := by
        simp at hi
        omega
      simpa using hlast

theorem Linked.congr (h : Linked rs x) (heq : ∀ i ≤ rs.length, y i = x i) : Linked rs y := by
  intro i hi
  rw [heq i hi.le, heq (i + 1) hi]
  exact h i hi

end Rel

namespace Tactic

variable {r : Rel} {rs : List Rel} {x y z : K} {o p : Ordering}

theorem compare_mem_ordersOf : compare x y ∈ ordersOf r ↔ r.Compares x y := by
  rcases lt_trichotomy x y with h | h | h
  · rw [compare_lt_iff_lt.2 h]
    cases r <;> simp [ordersOf, Rel.Compares, h, h.le, h.ne, h.not_gt]
  · subst h
    rw [compare_eq_iff_eq.2 rfl]
    cases r <;> simp [ordersOf, Rel.Compares]
  · rw [compare_gt_iff_gt.2 h]
    cases r <;> simp [ordersOf, Rel.Compares, h, h.le, h.ne', h.not_gt]

/-- **No way to compare is missed**: two values compare in one of the ways found from a third. -/
theorem compare_mem_composeOrders (x y z : K) :
    compare x z ∈ composeOrders (compare x y) (compare y z) := by
  rcases lt_trichotomy x y with hxy | rfl | hxy
  · rcases lt_trichotomy y z with hyz | rfl | hyz
    · simp [compare_lt_iff_lt.2 hxy, compare_lt_iff_lt.2 hyz, compare_lt_iff_lt.2 (hxy.trans hyz),
        composeOrders]
    · simp [compare_lt_iff_lt.2 hxy, composeOrders]
    · simp only [compare_lt_iff_lt.2 hxy, compare_gt_iff_gt.2 hyz, composeOrders]
      cases compare x z <;> decide
  · simp [composeOrders]
  · rcases lt_trichotomy y z with hyz | rfl | hyz
    · simp only [compare_gt_iff_gt.2 hxy, compare_lt_iff_lt.2 hyz, composeOrders]
      cases compare x z <;> decide
    · simp [compare_gt_iff_gt.2 hxy, composeOrders]
    · simp [compare_gt_iff_gt.2 hxy, compare_gt_iff_gt.2 hyz, compare_gt_iff_gt.2 (hyz.trans hxy),
        composeOrders]

theorem exists_compare_eq [NoMinOrder K] [NoMaxOrder K] (y : K) (p : Ordering) : ∃ z, compare y z = p := by
  cases p with
  | lt => exact (exists_gt y).imp fun z hz => compare_lt_iff_lt.2 hz
  | eq => exact ⟨y, compare_eq_iff_eq.2 rfl⟩
  | gt => exact (exists_lt y).imp fun z hz => compare_gt_iff_gt.2 hz

/-- **No way to compare is found in vain**: whatever the values so far are, there is room for one that
compares in the way found. -/
theorem exists_of_mem_composeOrders [DenselyOrdered K] [NoMinOrder K] [NoMaxOrder K]
    (ho : o ∈ composeOrders (compare x y) p) : ∃ z, compare y z = p ∧ compare x z = o := by
  rcases lt_trichotomy x y with hxy | rfl | hxy
  · rw [compare_lt_iff_lt.2 hxy] at ho
    cases p with
    | lt =>
      obtain rfl := List.mem_singleton.1 ho
      obtain ⟨z, hz⟩ := exists_gt y
      exact ⟨z, compare_lt_iff_lt.2 hz, compare_lt_iff_lt.2 (hxy.trans hz)⟩
    | eq =>
      obtain rfl := List.mem_singleton.1 ho
      exact ⟨y, compare_eq_iff_eq.2 rfl, compare_lt_iff_lt.2 hxy⟩
    | gt =>
      -- below `y` there are values above, at and below `x`
      cases o with
      | lt =>
        obtain ⟨z, hxz, hzy⟩ := exists_between hxy
        exact ⟨z, compare_gt_iff_gt.2 hzy, compare_lt_iff_lt.2 hxz⟩
      | eq => exact ⟨x, compare_gt_iff_gt.2 hxy, compare_eq_iff_eq.2 rfl⟩
      | gt =>
        obtain ⟨z, hz⟩ := exists_lt x
        exact ⟨z, compare_gt_iff_gt.2 (hz.trans hxy), compare_gt_iff_gt.2 hz⟩
  · rw [compare_eq_iff_eq.2 rfl] at ho
    obtain rfl : o = p := by simpa [composeOrders] using ho
    exact (exists_compare_eq x o).imp fun z hz => ⟨hz, hz⟩
  · rw [compare_gt_iff_gt.2 hxy] at ho
    cases p with
    | lt =>
      -- above `y` there are values below, at and above `x`
      cases o with
      | lt =>
        obtain ⟨z, hz⟩ := exists_gt x
        exact ⟨z, compare_lt_iff_lt.2 (hxy.trans hz), compare_lt_iff_lt.2 hz⟩
      | eq => exact ⟨x, compare_lt_iff_lt.2 hxy, compare_eq_iff_eq.2 rfl⟩
      | gt =>
        obtain ⟨z, hyz, hzx⟩ := exists_between hxy
        exact ⟨z, compare_lt_iff_lt.2 hyz, compare_gt_iff_gt.2 hzx⟩
    | eq =>
      obtain rfl := List.mem_singleton.1 ho
      exact ⟨y, compare_eq_iff_eq.2 rfl, compare_gt_iff_gt.2 hxy⟩
    | gt =>
      obtain rfl := List.mem_singleton.1 ho
      obtain ⟨z, hz⟩ := exists_lt y
      exact ⟨z, compare_gt_iff_gt.2 hz, compare_gt_iff_gt.2 (hz.trans hxy)⟩

theorem mem_extendOrders {os : List Ordering} :
    o ∈ extendOrders os r ↔ ∃ q ∈ os, ∃ p ∈ ordersOf r, o ∈ composeOrders q p := by
  simp [extendOrders, List.mem_eraseDups]

theorem chainOrders_concat (rs : List Rel) (r : Rel) :
    chainOrders (rs ++ [r]) = extendOrders (chainOrders rs) r := by
  simp [chainOrders, List.foldl_append]

/-- **The ends of a chain compare in one of the ways found**, in every linear order. -/
theorem compare_mem_chainOrders {x : ℕ → K} (h : Rel.Linked rs x) :
    compare (x 0) (x rs.length) ∈ chainOrders rs := by
  induction rs using List.reverseRecOn with
  | nil => simp [chainOrders]
  | append_singleton rs r ih =>
    obtain ⟨hrs, hr⟩ := Rel.linked_concat.1 h
    rw [chainOrders_concat, List.length_append, List.length_singleton, mem_extendOrders]
    exact ⟨_, ih hrs, _, compare_mem_ordersOf.2 hr, compare_mem_composeOrders _ _ _⟩

/-- **Every way found is taken** by the ends of some chain of values, in a dense order without ends. -/
theorem exists_linked [Nonempty K] [DenselyOrdered K] [NoMinOrder K] [NoMaxOrder K]
    (ho : o ∈ chainOrders rs) :
    ∃ x : ℕ → K, Rel.Linked rs x ∧ compare (x 0) (x rs.length) = o := by
  induction rs using List.reverseRecOn generalizing o with
  | nil =>
    obtain rfl : o = .eq := by simpa [chainOrders] using ho
    exact ⟨fun _ => Classical.arbitrary K, nofun, compare_eq_iff_eq.2 rfl⟩
  | append_singleton rs r ih =>
    rw [chainOrders_concat] at ho
    obtain ⟨q, hq, p, hp, ho⟩ := mem_extendOrders.1 ho
    obtain ⟨x, hx, rfl⟩ := ih hq
    obtain ⟨z, rfl, rfl⟩ := exists_of_mem_composeOrders ho
    -- the values so far are kept, and `z` comes next
    let x' := Function.update x (rs.length + 1) z
    have hkeep : ∀ i ≤ rs.length, x' i = x i := fun i hi =>
      Function.update_of_ne (by omega) z x
    have hnext : x' (rs.length + 1) = z := Function.update_self ..
    refine ⟨x', Rel.linked_concat.2 ⟨hx.congr hkeep, ?_⟩, ?_⟩
    · rw [hkeep _ le_rfl, hnext]
      exact compare_mem_ordersOf.1 hp
    · rw [List.length_append, List.length_singleton, hkeep 0 (Nat.zero_le _), hnext]

/-- What is allowed by a relation in each of the ways found holds of linked values in every linear
order. -/
theorem compares_of_all (hall : (chainOrders rs).all (ordersOf r).contains = true) {x : ℕ → K}
    (hx : Rel.Linked rs x) : r.Compares (x 0) (x rs.length) := by
  have hcontains := List.all_eq_true.1 hall _ (compare_mem_chainOrders hx)
  exact compare_mem_ordersOf.1 (List.contains_iff_mem.1 hcontains)

/-- A relation allows each of the ways found if the ends of all rational chains compare so. -/
theorem all_chainOrders_iff : (chainOrders rs).all (ordersOf r).contains = true ↔
    ∀ x : ℕ → ℚ, Rel.Linked rs x → r.Compares (x 0) (x rs.length) := by
  constructor
  · intro hall x hx
    exact compares_of_all hall hx
  · intro h
    refine List.all_eq_true.2 fun o ho => List.contains_iff_mem.2 ?_
    obtain ⟨x, hx, rfl⟩ := exists_linked (K := ℚ) ho
    exact compare_mem_ordersOf.2 (h x hx)

end Tactic

namespace Chain

variable {n : ℕ} {words : List (String ⊕ Term)} {c : Chain}

theorem length_of_readWords (h : (readWords n words).result = .ok c) :
    c.relations.length = (words.length + 1 - n % 2) / 2 ∧
      c.terms.length = (words.length + n % 2) / 2 := by
  induction words generalizing n c with
  | nil =>
    cases h
    have := Nat.mod_lt n two_pos
    simp
    omega
  | cons w ws ih =>
    unfold readWords at h
    split at h
    · next heven =>
      cases w with
      | inr t => cases h
      | inl text =>
        dsimp only at h
        split at h
        · cases h
        · obtain ⟨rest, hrest, h⟩ := Outcome.result_bind_eq_ok.1 h
          cases h
          have := ih hrest
          simp only [List.length_cons]
          omega
    · next hodd =>
      cases w with
      | inl text => cases h
      | inr t =>
        -- the term may be put as another one, but it is one term
        dsimp only at h
        split at h
        all_goals
          obtain ⟨_, -, h⟩ := Outcome.result_bind_eq_ok.1 h
          obtain ⟨_, -, h⟩ := Outcome.result_bind_eq_ok.1 h
          obtain ⟨rest, hrest, h⟩ := Outcome.result_bind_eq_ok.1 h
          cases h
          have := ih hrest
          simp only [List.length_cons]
          omega

theorem length_relations_of_ofWords (h : (ofWords words).result = .ok c) :
    c.relations.length = c.terms.length + 1 := by
  obtain ⟨_, hodd, h⟩ := Outcome.result_bind_eq_ok.1 h
  have hodd : words.length % 2 = 1 := by
    simpa using Outcome.yields_require _ _ _ hodd
  have := length_of_readWords h
  omega

/-- The relations of a chain between two terms, each with the terms on both sides of it. -/
def links (c : Chain) (a b : Term) : List (Rel × Term × Term) :=
  c.relations.zip ((a :: c.terms).zip (c.terms ++ [b]))

variable {a b : Term}

theorem length_links (hlength : c.relations.length = c.terms.length + 1) (a b : Term) :
    (c.links a b).length = c.relations.length := by
  simp [links, hlength]

theorem linked_of_links (hlength : c.relations.length = c.terms.length + 1) {value : Term → K}
    (h : ∀ l ∈ c.links a b, l.1.Compares (value l.2.1) (value l.2.2)) :
    Rel.Linked c.relations fun i => value ((a :: (c.terms ++ [b])).getD i b) := by
  intro i hi
  have hlast : i < (c.terms ++ [b]).length := by simpa [hlength] using hi
  have hfirst : i < (a :: c.terms).length := by simpa [hlength] using hi
  have hlink := h _ (List.getElem_mem (by rwa [length_links hlength] : i < (c.links a b).length))
  simp only [links, List.getElem_zip] at hlink
  have hleft : (a :: (c.terms ++ [b])).getD i b = (a :: c.terms)[i] := by
    rw [← List.cons_append, List.getD_append _ _ _ _ hfirst, List.getD_eq_getElem _ _ hfirst]
  have hright : (a :: (c.terms ++ [b])).getD (i + 1) b = (c.terms ++ [b])[i] := by
    rw [List.getD_cons_succ, List.getD_eq_getElem _ _ hlast]
  show c.relations[i].Compares (value _) (value _)
  rw [hleft, hright]
  exact hlink

end Chain

namespace Tactic
open Outcome

variable {c : Chain} {s : State} {a b : Term}

theorem chainLinks_eq_mapM (hlength : c.relations.length = c.terms.length + 1) :
    chainLinks a b c.relations c.terms =
      (c.links a b).mapM fun l => Statement.relate l.1 l.2.1 l.2.2 := by
  obtain ⟨rs, ts⟩ := c
  induction rs generalizing a ts with
  | nil => cases hlength
  | cons r rs ih =>
    cases ts with
    | nil =>
      obtain rfl : rs = [] := by simpa using hlength
      simp [chainLinks, Chain.links]
    | cons t ts =>
      have hrest := ih (a := t) ts (by simpa using hlength)
      simp only [Chain.links, List.cons_append, List.zip_cons_cons, List.mapM_cons, chainLinks] at hrest ⊢
      rw [hrest]

theorem result_chain (hgoal : s.goal = app (.rel r) [a, b]) : ((chain c).run s).result =
    (require ((chainOrders c.relations).all (ordersOf r).contains)
      (.calcNotImplied c.text s.goal) >>= fun _ =>
        chainLinks a b c.relations c.terms >>= fun links => pure (links.map s.withGoal)).result := by
  have hrel : s.goal.asRel? = some (r, a, b) := by rw [hgoal]; rfl
  show (chainOf c s).result = _
  unfold chainOf
  rw [hrel]
  refine result_bind_congr fun _ => result_bind_congr fun links => ?_
  split
  · split <;> rfl
  · rfl

/-- **A chain is refused** if some values are linked by its relations and the ends do not compare as the
goal says. -/
theorem chain_refused_iff (hlength : c.relations.length = c.terms.length + 1)
    (hgoal : s.goal = app (.rel r) [a, b]) :
    ((chain c).run s).result = .error (.calcNotImplied c.text s.goal) ↔
      ∃ x : ℕ → ℚ, Rel.Linked c.relations x ∧ ¬ r.Compares (x 0) (x c.relations.length) := by
  rw [result_chain hgoal]
  constructor
  · intro h
    rcases result_bind_eq_error.1 h with h | ⟨_, -, h⟩
    · by_contra hno
      push Not at hno
      rw [result_require_of_true (all_chainOrders_iff.2 hno)] at h
      cases h
    · rcases result_bind_eq_error.1 h with h | ⟨_, -, h⟩
      · -- the links of a chain are refused for other reasons
        rw [chainLinks_eq_mapM hlength] at h
        obtain ⟨l, -, h⟩ := exists_of_mapM_error h
        rcases Statement.relate_error h with h | h | h <;> cases h
      · cases h
  · rintro ⟨x, hx, hends⟩
    exact result_bind_of_error (result_require_of_false
      (fun hall => hends (all_chainOrders_iff.1 hall x hx)) _) _

/-- **An accepted chain leaves its links to be proved.** -/
theorem chain_eq_ok_iff (hlength : c.relations.length = c.terms.length + 1)
    (hgoal : s.goal = app (.rel r) [a, b]) {states : List State} :
    ((chain c).run s).result = .ok states ↔
      (∀ x : ℕ → ℚ, Rel.Linked c.relations x → r.Compares (x 0) (x c.relations.length)) ∧
      ∃ goals, List.Forall₂ (fun l goal => (Statement.relate l.1 l.2.1 l.2.2).result = .ok goal)
        (c.links a b) goals ∧ states = goals.map s.withGoal := by
  rw [result_chain hgoal, result_bind_eq_ok, ← all_chainOrders_iff, chainLinks_eq_mapM hlength]
  constructor
  · rintro ⟨_, hrequire, h⟩
    obtain ⟨goals, hgoals, h⟩ := result_bind_eq_ok.1 h
    cases h
    exact ⟨yields_require _ _ _ hrequire, goals, result_mapM_eq_ok.1 hgoals, rfl⟩
  · rintro ⟨hall, goals, hgoals, rfl⟩
    exact ⟨(), result_require_of_true hall _,
      result_bind_eq_ok.2 ⟨goals, result_mapM_eq_ok.2 hgoals, rfl⟩⟩

/-- **A chain of relations is accepted if it implies the goal.**  The ways in which its ends may compare
are exactly those of rational values; it is refused if some of these values do not compare as the goal
says; otherwise its links are left, under the same hypotheses, and they imply the goal in every linear
order. -/
theorem chain_accepted_iff {words : List (String ⊕ Term)}
    (hread : (Chain.ofWords words).result = .ok c) (hgoal : s.goal = app (.rel r) [a, b]) :
    (∀ o, o ∈ chainOrders c.relations ↔
      ∃ x : ℕ → ℚ, Rel.Linked c.relations x ∧ compare (x 0) (x c.relations.length) = o) ∧
    (((chain c).run s).result = .error (.calcNotImplied c.text s.goal) ↔
      ∃ x : ℕ → ℚ, Rel.Linked c.relations x ∧ ¬ r.Compares (x 0) (x c.relations.length)) ∧
    (∀ states, ((chain c).run s).result = .ok states ↔
      (∀ x : ℕ → ℚ, Rel.Linked c.relations x → r.Compares (x 0) (x c.relations.length)) ∧
      ∃ goals, List.Forall₂ (fun l goal => (Statement.relate l.1 l.2.1 l.2.2).result = .ok goal)
        (c.links a b) goals ∧ states = goals.map s.withGoal) ∧
    ∀ states, ((chain c).run s).result = .ok states → states.length = c.relations.length ∧
      ∀ {K : Type} [LinearOrder K] (value : Term → K),
        (∀ l ∈ c.links a b, l.1.Compares (value l.2.1) (value l.2.2)) →
          r.Compares (value a) (value b) := by
  have hlength := Chain.length_relations_of_ofWords hread
  refine ⟨fun o => ⟨exists_linked, ?_⟩, chain_refused_iff hlength hgoal,
    fun states => chain_eq_ok_iff hlength hgoal, fun states hstates => ?_⟩
  · rintro ⟨x, hx, rfl⟩
    exact compare_mem_chainOrders hx
  obtain ⟨himplied, goals, hgoals, rfl⟩ := (chain_eq_ok_iff hlength hgoal).1 hstates
  constructor
  · rw [List.length_map, ← hgoals.length_eq, Chain.length_links hlength]
  · intro K _ value hlinks
    have hends := compares_of_all (all_chainOrders_iff.2 himplied) (Chain.linked_of_links hlength hlinks)
    -- the first value is that of the left side, the last one that of the right side
    simpa [hlength] using hends

/-- From `x < y` through `z`: `x <= z` and `z < y` are enough, `x != z` and `z != y` are not. -/
theorem chain_through_middle :
    let x := var ⟨"x", .order⟩
    let y := var ⟨"y", .order⟩
    let z := var ⟨"z", .order⟩
    let s : State := ⟨app (.rel .lt) [x, y], [("x", declare ⟨"x", .order⟩)]⟩
    ((chain ⟨[.le, .lt], [z]⟩).run s).result =
      .ok [s.withGoal (app (.rel .le) [x, z]), s.withGoal (app (.rel .lt) [z, y])] ∧
    ((chain ⟨[.ne, .ne], [z]⟩).run s).result =
      .error (.calcNotImplied (Chain.text ⟨[.ne, .ne], [z]⟩) s.goal) := by
  intro x y z s
  have hle : (Chain.ofWords [.inl "<=", .inr z, .inl "<"]).result = .ok ⟨[.le, .lt], [z]⟩ := by
    with_unfolding_all rfl
  have hne : (Chain.ofWords [.inl "!=", .inr z, .inl "!="]).result = .ok ⟨[.ne, .ne], [z]⟩ := by
    with_unfolding_all rfl
  have hgoal : s.goal = app (.rel .lt) [x, y] := rfl
  obtain ⟨-, -, haccepted, -⟩ := chain_accepted_iff hle hgoal
  obtain ⟨-, hrefused, -⟩ := chain_accepted_iff hne hgoal
  have hlink : (Statement.relate .le x z).result = .ok (app (.rel .le) [x, z]) := by
    with_unfolding_all rfl
  have hlink' : (Statement.relate .lt z y).result = .ok (app (.rel .lt) [z, y]) := by
    with_unfolding_all rfl
  constructor
  · refine (haccepted _).2 ⟨fun q hq => ?_, [app (.rel .le) [x, z], app (.rel .lt) [z, y]],
      .cons hlink (.cons hlink' .nil), rfl⟩
    exact lt_of_le_of_lt (hq 0 two_pos) (hq 1 one_lt_two)
  · -- zero and one are unequal, one and zero are unequal, and zero is not below itself
    refine hrefused.2 ⟨fun i => if i = 1 then 1 else 0, fun i hi => ?_, lt_irrefl 0⟩
    obtain rfl | rfl : i = 0 ∨ i = 1 := by
      simp at hi
      omega
    · exact zero_ne_one
    · exact one_ne_zero

end Tactic
end Majorant
