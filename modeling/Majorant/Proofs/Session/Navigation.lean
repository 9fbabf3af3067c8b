import Majorant.Proofs.Session.Reachable
import Mathlib.Data.List.Lex

/-!
# Moving from goal to goal

The open goals of a tree are listed in the lexicographic order of their paths.
-/

namespace Majorant
open Proof

namespace Proof.Tree

variable {S T : Type} {t n : Tree S T} {p g : Path}

theorem lt_of_isPrefix {p g h : Path} (hg : p <+: g) (hlt : p < h) (hh : ¬ p <+: h) : g < h := by
  induction p generalizing g h with
  | nil => exact absurd List.nil_prefix hh
  | cons i p ih =>
    obtain ⟨g, rfl⟩ := hg
    cases h with
    | nil => exact absurd hlt (List.not_lt_nil _)
    | cons j h =>
      rw [List.cons_append, List.cons_lt_cons_iff]
      rcases List.cons_lt_cons_iff.1 hlt with hij | ⟨rfl, hrest⟩
      · exact .inl hij
      · refine .inr ⟨rfl, ih (List.prefix_append p g) hrest fun hp => hh ?_⟩
        exact List.cons_prefix_cons.2 ⟨rfl, hp⟩

theorem lt_of_isPrefix_of_ne {p g : Path} (h : p <+: g) (hne : g ≠ p) : p < g := by
  obtain ⟨q, rfl⟩ := h
  induction p with
  | nil =>
    cases q with
    | nil => exact absurd rfl hne
    | cons i q => exact List.nil_lt_cons i q
  | cons i p ih =>
    rw [List.cons_append, List.cons_lt_cons_iff]
    exact .inr ⟨rfl, ih fun heq => hne (by rw [List.cons_append, heq])⟩

theorem append_lt_append_iff {here p q : Path} : here ++ p < here ++ q ↔ p < q := by
  induction here with
  | nil => rfl
  | cons i here ih => simp [ih]

mutual

theorem openFrom_pairwise_lt (here : Path) (t : Tree S T) :
    (openFrom [] here t).Pairwise (· < ·) := by
  obtain ⟨s, x, cs⟩ := t
  cases x with
  | none => simp [openFrom]
  | some x => simpa [openFrom] using openFromList_pairwise_lt here 0 cs

theorem openFromList_pairwise_lt (here : Path) (i : Nat) (cs : List (Tree S T)) :
    (openFromList [] here i cs).Pairwise (· < ·) := by
  cases cs with
  | nil => exact .nil
  | cons c cs =>
    rw [openFromList, List.pairwise_append]
    refine ⟨openFrom_pairwise_lt _ c, openFromList_pairwise_lt here (i + 1) cs, ?_⟩
    intro g hg h hh
    obtain ⟨g, rfl, -⟩ := mem_openFrom.1 hg
    obtain ⟨k, d, h, rfl, -, -⟩ := mem_openFromList.1 hh
    rw [List.append_assoc, append_lt_append_iff, List.singleton_append, List.cons_lt_cons_iff]
    exact .inl (by omega)

end

/-- **The open goals are listed in the order of their paths.** -/
theorem openGoals_pairwise_lt (t : Tree S T) : t.openGoals.Pairwise (· < ·) :=
  openFrom_pairwise_lt [] t

/-- **The last open goal before the subtree of a node.** -/
def precedingGoal (t : Tree S T) (p : Path) : Option Path :=
  (t.openGoals.filter fun g => g < p).getLast?

/-- **The first open goal inside the subtree of a node** other than the node itself, or the first one
after the subtree if there is none inside. -/
def followingGoal (t : Tree S T) (p : Path) : Option Path :=
  (t.openGoals.filter fun g => p <+: g ∧ g ≠ p).head? <|>
    (t.openGoals.filter fun g => p < g ∧ ¬ p <+: g).head?

theorem precedingGoal_eq_none (h : t.precedingGoal p = none) (hg : t.Goal g) : ¬ g < p := by
  rw [precedingGoal, List.getLast?_eq_none_iff, List.filter_eq_nil_iff] at h
  simpa using h g (mem_openGoals.2 hg)

theorem precedingGoal_eq_some (h : t.precedingGoal p = some g) :
    t.Goal g ∧ g < p ∧ ∀ g', t.Goal g' → g' < p → g' ≤ g := by
  have hmem := List.mem_filter.1 (List.mem_of_getLast? h)
  refine ⟨mem_openGoals.1 hmem.1, by simpa using hmem.2, fun g' hg' hlt => ?_⟩
  obtain ⟨gs, hgs⟩ := List.getLast?_eq_some_iff.1 h
  have hsorted := t.openGoals_pairwise_lt.filter fun g => g < p
  have hmem' : g' ∈ gs ++ [g] := by
    rw [← hgs]
    exact List.mem_filter.2 ⟨mem_openGoals.2 hg', by simpa using hlt⟩
  rw [hgs, List.pairwise_append] at hsorted
  rcases List.mem_append.1 hmem' with hg' | hg'
  · exact le_of_lt (hsorted.2.2 g' hg' g (List.mem_singleton_self g))
  · exact le_of_eq (List.mem_singleton.1 hg')

theorem head?_filter_le {gs : List Path} (hsorted : gs.Pairwise (· < ·)) {q : Path → Bool}
    (h : (gs.filter q).head? = some g) {g' : Path} (hg' : g' ∈ gs) (hq : q g' = true) : g ≤ g' := by
  obtain ⟨rest, hrest⟩ := List.head?_eq_some_iff.1 h
  have hmem : g' ∈ g :: rest := by
    rw [← hrest]
    exact List.mem_filter.2 ⟨hg', hq⟩
  have hpairs := hsorted.filter q
  rw [hrest, List.pairwise_cons] at hpairs
  rcases List.mem_cons.1 hmem with rfl | hmem
  · exact le_refl _
  · exact le_of_lt (hpairs.1 g' hmem)

theorem followingGoal_eq_some (h : t.followingGoal p = some g) :
    t.Goal g ∧ p < g ∧ ∀ g', t.Goal g' → p < g' → g ≤ g' := by
  rw [followingGoal, Option.orElse_eq_orElse, Option.orElse_eq_or, Option.or_eq_some_iff] at h
  rcases h with h | ⟨hnone, h⟩
  · obtain ⟨hmem, hin⟩ := List.mem_filter.1 (List.mem_of_mem_head? h)
    have hin : p <+: g ∧ g ≠ p := by simpa using hin
    refine ⟨mem_openGoals.1 hmem, lt_of_isPrefix_of_ne hin.1 hin.2, fun g' hg' hlt => ?_⟩
    by_cases hp : p <+: g'
    · refine head?_filter_le t.openGoals_pairwise_lt h (mem_openGoals.2 hg') ?_
      simpa using ⟨hp, (ne_of_lt hlt).symm⟩
    · exact le_of_lt (lt_of_isPrefix hin.1 hlt hp)
  · obtain ⟨hmem, hout⟩ := List.mem_filter.1 (List.mem_of_mem_head? h)
    have hout : p < g ∧ ¬ p <+: g := by simpa using hout
    refine ⟨mem_openGoals.1 hmem, hout.1, fun g' hg' hlt => ?_⟩
    refine head?_filter_le t.openGoals_pairwise_lt h (mem_openGoals.2 hg') ?_
    rw [List.head?_eq_none_iff, List.filter_eq_nil_iff] at hnone
    have hnot := hnone g' (mem_openGoals.2 hg')
    have hp : ¬ p <+: g' := fun hp => hnot (by simpa using ⟨hp, (ne_of_lt hlt).symm⟩)
    simpa using ⟨hlt, hp⟩

theorem followingGoal_eq_none (h : t.followingGoal p = none) (hg : t.Goal g) : ¬ p < g := by
  rw [followingGoal, Option.orElse_eq_orElse, Option.orElse_eq_or, Option.or_eq_none_iff,
    List.head?_eq_none_iff, List.head?_eq_none_iff, List.filter_eq_nil_iff,
    List.filter_eq_nil_iff] at h
  intro hlt
  have hin := h.1 g (mem_openGoals.2 hg)
  have hout := h.2 g (mem_openGoals.2 hg)
  by_cases hp : p <+: g
  · exact hin (by simpa using ⟨hp, (ne_of_lt hlt).symm⟩)
  · exact hout (by simpa using ⟨hlt, hp⟩)

theorem goalBefore_lt (h : goalBefore p t = some g) : g < p := by
  induction p generalizing t g with
  | nil => cases h
  | cons i p ih =>
    obtain ⟨s, x, cs⟩ := t
    rw [goalBefore, Option.orElse_eq_orElse, Option.orElse_eq_or, Option.or_eq_some_iff] at h
    rcases h with h | ⟨-, h⟩
    · obtain ⟨c, -, h⟩ := Option.bind_eq_some_iff.1 h
      obtain ⟨g, hg, rfl⟩ := Option.map_eq_some_iff.1 h
      exact List.cons_lt_cons_iff.2 (.inr ⟨rfl, ih hg⟩)
    · obtain ⟨k, c, v, rfl, hc, -⟩ := goal_of_endGoalList h
      have hlt := (List.getElem?_eq_some_iff.1 hc).1
      rw [List.length_take] at hlt
      exact List.cons_lt_cons_iff.2 (.inl (by omega))

theorem lt_goalAfter (h : goalAfter p t = some g) : p < g := by
  induction p generalizing t g with
  | nil =>
    obtain ⟨s, x, cs⟩ := t
    obtain ⟨k, c, rfl, -⟩ := firstOpen_eq_some h
    exact List.nil_lt_cons _ _
  | cons i p ih =>
    obtain ⟨s, x, cs⟩ := t
    rw [goalAfter, Option.orElse_eq_orElse, Option.orElse_eq_or, Option.or_eq_some_iff] at h
    rcases h with h | ⟨-, h⟩
    · obtain ⟨c, -, h⟩ := Option.bind_eq_some_iff.1 h
      obtain ⟨g, hg, rfl⟩ := Option.map_eq_some_iff.1 h
      exact List.cons_lt_cons_iff.2 (.inr ⟨rfl, ih hg⟩)
    · obtain ⟨k, c, rfl, -⟩ := firstOpen_eq_some h
      exact List.cons_lt_cons_iff.2 (.inl (by omega))

theorem firstOpen_le {cs : List (Tree S T)} {i k : Nat} {c : Tree S T} (hc : cs[k]? = some c)
    (hopen : c.Goal []) : ∃ j ≤ k, firstOpen i cs = some [i + j] := by
  induction cs generalizing i k with
  | nil => cases hc
  | cons d ds ih =>
    rw [firstOpen]
    by_cases hd : d.tactic.isNone = true
    · exact ⟨0, Nat.zero_le k, if_pos hd⟩
    · rw [if_neg hd]
      cases k with
      | zero =>
        cases hc
        cases hopen
        exact absurd rfl hd
      | succ k =>
        obtain ⟨j, hj, heq⟩ := ih (i := i + 1) hc
        exact ⟨j + 1, by omega, by rw [heq, Nat.add_assoc, Nat.add_comm 1 j]⟩

theorem InView.exists_goalBefore (hview : t.InView p g) (hlt : g < p) :
    ∃ g', goalBefore p t = some g' ∧ g ≤ g' := by
  induction hview with
  | child i => exact absurd hlt (List.not_lt_nil _)
  | later hij =>
    rcases List.cons_lt_cons_iff.1 hlt with hlt | ⟨rfl, -⟩ <;> omega
  | @before s x cs i p w c hc hw =>
    rw [goalBefore, endGoalList_take hc, hw]
    cases hin : cs[i + 1]?.bind fun d => (goalBefore p d).map ((i + 1) :: ·) with
    | none => exact ⟨_, rfl, le_refl _⟩
    | some g' =>
      obtain ⟨d, -, hd⟩ := Option.bind_eq_some_iff.1 hin
      obtain ⟨v, -, rfl⟩ := Option.map_eq_some_iff.1 hd
      exact ⟨_, rfl, le_of_lt (List.cons_lt_cons_iff.2 (.inl (by omega)))⟩
  | @inner s x cs i p g c hc _ ih =>
    rcases List.cons_lt_cons_iff.1 hlt with hlt | ⟨-, hlt⟩
    · omega
    · obtain ⟨g', hg', hle⟩ := ih hlt
      refine ⟨i :: g', by rw [goalBefore, hc, Option.bind_some, hg']; rfl, ?_⟩
      rcases lt_or_eq_of_le hle with hle | rfl
      · exact le_of_lt (List.cons_lt_cons_iff.2 (.inr ⟨rfl, hle⟩))
      · exact le_refl _

theorem InView.exists_goalAfter (hview : t.InView p g) (hgoal : t.Goal g) (hlt : p < g) :
    ∃ g', goalAfter p t = some g' ∧ g' ≤ g := by
  induction hview with
  | @child t i =>
    cases hgoal with
    | @inner s x cs _ c _ hc hopen =>
      obtain ⟨j, hj, heq⟩ := firstOpen_le (i := 0) hc hopen
      refine ⟨[0 + j], heq, ?_⟩
      rcases Nat.lt_or_eq_of_le hj with hj | rfl
      · exact le_of_lt (List.cons_lt_cons_iff.2 (.inl (by omega)))
      · rw [Nat.zero_add]
  | @later t i j p hij =>
    cases hgoal with
    | @inner s x cs _ c _ hc hopen =>
      rw [goalAfter]
      cases hin : cs[i]?.bind fun d => (goalAfter p d).map (i :: ·) with
      | none =>
        have hdrop : (cs.drop (i + 1))[j - (i + 1)]? = some c := by
          rw [List.getElem?_drop, ← hc]
          congr 1
          omega
        obtain ⟨k, hk, heq⟩ := firstOpen_le (i := i + 1) hdrop hopen
        refine ⟨[i + 1 + k], heq, ?_⟩
        rcases Nat.lt_or_eq_of_le hk with hk | rfl
        · exact le_of_lt (List.cons_lt_cons_iff.2 (.inl (by omega)))
        · exact le_of_eq (by congr 1; omega)
      | some g' =>
        obtain ⟨d, -, hd⟩ := Option.bind_eq_some_iff.1 hin
        obtain ⟨v, -, rfl⟩ := Option.map_eq_some_iff.1 hd
        exact ⟨_, rfl, le_of_lt (List.cons_lt_cons_iff.2 (.inl hij))⟩
  | before hc hw =>
    rcases List.cons_lt_cons_iff.1 hlt with hlt | ⟨heq, -⟩ <;> omega
  | @inner s x cs i p g c hc _ ih =>
    rcases List.cons_lt_cons_iff.1 hlt with hlt | ⟨-, hlt⟩
    · omega
    · cases hgoal with
      | inner hc' hgoal =>
        rw [hc, Option.some.injEq] at hc'
        subst hc'
        obtain ⟨g', hg', hle⟩ := ih hgoal hlt
        refine ⟨i :: g', by rw [goalAfter, hc, Option.bind_some, hg']; rfl, ?_⟩
        rcases lt_or_eq_of_le hle with hle | rfl
        · exact le_of_lt (List.cons_lt_cons_iff.2 (.inr ⟨rfl, hle⟩))
        · exact le_refl _

/-- **The search reports the preceding goal** exactly when this goal is in view. -/
theorem Proper.before_eq_iff (ht : t.Proper) (hp : t.get? p = some n) :
    (t.neighbours p).before = t.precedingGoal p ↔
      ∀ g, t.precedingGoal p = some g → t.InView p g := by
  rw [neighbours_eq ht hp]
  constructor
  · intro heq g hg
    exact (ht.of_goalBefore hp (heq.trans hg)).2
  · intro hview
    cases hpre : t.precedingGoal p with
    | none =>
      cases hrep : goalBefore p t with
      | none => rfl
      | some g =>
        exact absurd (goalBefore_lt hrep) (precedingGoal_eq_none hpre (ht.of_goalBefore hp hrep).1)
    | some g =>
      obtain ⟨-, hlt, hmax⟩ := precedingGoal_eq_some hpre
      obtain ⟨g', hrep, hle⟩ := (hview g hpre).exists_goalBefore hlt
      have hge := hmax g' (ht.of_goalBefore hp hrep).1 (goalBefore_lt hrep)
      rw [hrep, le_antisymm hge hle]

/-- **The search reports the following goal** exactly when this goal is in view. -/
theorem Proper.after_eq_iff (ht : t.Proper) (hp : t.get? p = some n) :
    (t.neighbours p).after = t.followingGoal p ↔
      ∀ g, t.followingGoal p = some g → t.InView p g := by
  rw [neighbours_eq ht hp]
  constructor
  · intro heq g hg
    exact (ht.of_goalAfter (heq.trans hg)).2
  · intro hview
    cases hpost : t.followingGoal p with
    | none =>
      cases hrep : goalAfter p t with
      | none => rfl
      | some g =>
        exact absurd (lt_goalAfter hrep) (followingGoal_eq_none hpost (ht.of_goalAfter hrep).1)
    | some g =>
      obtain ⟨hgoal, hlt, hmin⟩ := followingGoal_eq_some hpost
      obtain ⟨g', hrep, hle⟩ := (hview g hpost).exists_goalAfter hgoal hlt
      have hge := hmin g' (ht.of_goalAfter hrep).1 (lt_goalAfter hrep)
      rw [hrep, le_antisymm hle hge]

theorem openGoals_consecutive {k : Nat} {g h : Path} (hg : t.openGoals[k]? = some g)
    (hh : t.openGoals[k + 1]? = some h) :
    g < h ∧ ∀ g', t.Goal g' → (g' < h → g' ≤ g) ∧ (g < g' → h ≤ g') := by
  obtain ⟨hk, rfl⟩ := List.getElem?_eq_some_iff.1 hg
  obtain ⟨hk', rfl⟩ := List.getElem?_eq_some_iff.1 hh
  have hsorted := List.pairwise_iff_getElem.1 t.openGoals_pairwise_lt
  refine ⟨hsorted k (k + 1) hk hk' (by omega), fun g' hg' => ?_⟩
  obtain ⟨j, hj, rfl⟩ := List.mem_iff_getElem.1 (mem_openGoals.2 hg')
  rcases Nat.lt_trichotomy j k with hjk | rfl | hjk
  · have hlt := hsorted j k hj hk hjk
    exact ⟨fun _ => le_of_lt hlt, fun hgt => absurd hgt (lt_asymm hlt)⟩
  · exact ⟨fun _ => le_refl _, fun hgt => absurd hgt (lt_irrefl _)⟩
  · rcases Nat.lt_or_eq_of_le hjk with hjk | rfl
    · have hlt := hsorted (k + 1) j hk' hj hjk
      exact ⟨fun hgt => absurd hgt (lt_asymm hlt), fun _ => le_of_lt hlt⟩
    · exact ⟨fun hgt => absurd hgt (lt_irrefl _), fun _ => le_refl _⟩

theorem followingGoal_of_consecutive {k : Nat} {g h : Path} (hg : t.openGoals[k]? = some g)
    (hh : t.openGoals[k + 1]? = some h) : t.followingGoal g = some h := by
  obtain ⟨hlt, hbetween⟩ := openGoals_consecutive hg hh
  have hgoal := mem_openGoals.1 (List.mem_of_getElem? hh)
  cases hpost : t.followingGoal g with
  | none => exact absurd hlt (followingGoal_eq_none hpost hgoal)
  | some g' =>
    obtain ⟨hg', hgt, hmin⟩ := followingGoal_eq_some hpost
    rw [le_antisymm (hmin h hgoal hlt) ((hbetween g' hg').2 hgt)]

theorem precedingGoal_of_consecutive {k : Nat} {g h : Path} (hg : t.openGoals[k]? = some g)
    (hh : t.openGoals[k + 1]? = some h) : t.precedingGoal h = some g := by
  obtain ⟨hlt, hbetween⟩ := openGoals_consecutive hg hh
  have hgoal := mem_openGoals.1 (List.mem_of_getElem? hg)
  cases hpre : t.precedingGoal h with
  | none => exact absurd hlt (precedingGoal_eq_none hpre hgoal)
  | some g' =>
    obtain ⟨hg', hgt, hmax⟩ := precedingGoal_eq_some hpre
    rw [le_antisymm (hmax g hgoal hlt) ((hbetween g' hg').1 hgt)]

theorem Goal.exists_get? (h : t.Goal p) : ∃ n, t.get? p = some n := by
  induction h with
  | here => exact ⟨_, rfl⟩
  | inner hc _ ih =>
    obtain ⟨n, hn⟩ := ih
    exact ⟨n, by rw [get?_cons hc, hn]⟩

theorem Proper.after_eq_some_iff (ht : t.Proper) {k : Nat} {g h : Path}
    (hg : t.openGoals[k]? = some g) (hh : t.openGoals[k + 1]? = some h) :
    (t.neighbours g).after = some h ↔ t.InView g h := by
  obtain ⟨n, hn⟩ := (mem_openGoals.1 (List.mem_of_getElem? hg)).exists_get?
  have hiff := ht.after_eq_iff hn
  rw [followingGoal_of_consecutive hg hh] at hiff
  simpa using hiff

theorem Proper.before_eq_some_iff (ht : t.Proper) {k : Nat} {g h : Path}
    (hg : t.openGoals[k]? = some g) (hh : t.openGoals[k + 1]? = some h) :
    (t.neighbours h).before = some g ↔ t.InView h g := by
  obtain ⟨n, hn⟩ := (mem_openGoals.1 (List.mem_of_getElem? hh)).exists_get?
  have hiff := ht.before_eq_iff hn
  rw [precedingGoal_of_consecutive hg hh] at hiff
  simpa using hiff

end Proof.Tree

namespace Session
open Request

variable {s : Session} {t : ProofTree} {p : Path}

theorem moveTo_eq {n : ProofTree} (hmode : s.mode = .tactic) (htree : s.tree = some t)
    (hn : t.get? p = some n) : (moveTo p s).2 = { s with current := some p } := by
  unfold moveTo
  rw [bind_of_eq_pure (requireMode_eq_pure hmode _), bind_of_eq_pure (theTree_eq_pure htree),
    bind_of_eq_pure (nodeAt_eq_pure htree hn), bind_snd]
  dsimp only [change, Outcome.result_pure]
  split <;> rfl

theorem moveOr_eq {q : Option Path} (hmode : s.mode = .tactic) (htree : s.tree = some t)
    (hq : ∀ g ∈ q, t.Goal g) (otherwise : String) :
    (moveOr q otherwise s).2 = { s with current := q <|> s.current } := by
  cases q with
  | none => rfl
  | some g =>
    obtain ⟨n, hn⟩ := (hq g rfl).exists_get?
    exact moveTo_eq hmode htree hn

theorem nextGoal_eq (ht : t.Proper) {n : ProofTree} (hmode : s.mode = .tactic)
    (htree : s.tree = some t) (hcurrent : s.current = some p) (hn : t.get? p = some n) :
    (nextGoal s).2 = { s with current := (t.neighbours p).after <|> some p } := by
  unfold nextGoal
  rw [bind_of_eq_pure (requireMode_eq_pure hmode _), bind_of_eq_pure (theTree_eq_pure htree),
    bind_of_eq_pure (here_eq_pure hcurrent), moveOr_eq hmode htree, hcurrent]
  intro g hg
  rw [Tree.neighbours_eq ht hn] at hg
  exact (ht.of_goalAfter hg).1

theorem previousGoal_eq (ht : t.Proper) {n : ProofTree} (hmode : s.mode = .tactic)
    (htree : s.tree = some t) (hcurrent : s.current = some p) (hn : t.get? p = some n) :
    (previousGoal s).2 = { s with current := (t.neighbours p).before <|> some p } := by
  unfold previousGoal
  rw [bind_of_eq_pure (requireMode_eq_pure hmode _), bind_of_eq_pure (theTree_eq_pure htree),
    bind_of_eq_pure (here_eq_pure hcurrent), moveOr_eq hmode htree, hcurrent]
  intro g hg
  rw [Tree.neighbours_eq ht hn] at hg
  exact (ht.of_goalBefore hn hg).1

theorem firstGoal_eq (hmode : s.mode = .tactic) (htree : s.tree = some t) :
    (firstGoal s).2 = { s with current := t.openGoals.head? <|> s.current } := by
  unfold firstGoal
  rw [bind_of_eq_pure (requireMode_eq_pure hmode _), bind_of_eq_pure (theTree_eq_pure htree),
    moveOr_eq hmode htree]
  intro g hg
  exact Tree.mem_openGoals.1 (List.mem_of_mem_head? hg)

theorem run_append (cs ds : List Command) (s : Session) : run (cs ++ ds) s = run ds (run cs s) := by
  induction cs generalizing s with
  | nil => rfl
  | cons c cs ih => exact ih _

/-- **One more step to the next goal**, wherever the steps before have led. -/
theorem run_nextGoals_succ (k : Nat) (s : Session) :
    run (.firstGoal :: List.replicate (k + 1) .nextGoal) s =
      (nextGoal (run (.firstGoal :: List.replicate k .nextGoal) s)).2 := by
  rw [List.replicate_succ', ← List.cons_append, run_append]
  rfl

theorem run_nextGoals_eq (ht : t.Proper) (hmode : s.mode = .tactic) (htree : s.tree = some t)
    (hopen : t.openGoals ≠ []) (k : Nat) :
    ∃ g, t.Goal g ∧
      run (.firstGoal :: List.replicate k .nextGoal) s = { s with current := some g } := by
  induction k with
  | zero =>
    obtain ⟨g, gs, hgs⟩ := List.exists_cons_of_ne_nil hopen
    refine ⟨g, Tree.mem_openGoals.1 (by rw [hgs]; exact List.mem_cons_self), ?_⟩
    change (firstGoal s).2 = _
    rw [firstGoal_eq hmode htree, hgs]
    rfl
  | succ k ih =>
    obtain ⟨g, hg, heq⟩ := ih
    obtain ⟨n, hn⟩ := hg.exists_get?
    have hstep : (nextGoal { s with current := some g }).2 =
        { s with current := (t.neighbours g).after <|> some g } :=
      nextGoal_eq (s := { s with current := some g }) ht hmode htree rfl hn
    rw [run_nextGoals_succ, heq, hstep]
    cases hafter : (t.neighbours g).after with
    | none => exact ⟨g, hg, rfl⟩
    | some h =>
      rw [Tree.neighbours_eq ht hn] at hafter
      exact ⟨h, (ht.of_goalAfter hafter).1, rfl⟩

/-- **The steps visit all goals in their order** exactly when each goal is in view of the one before
it. -/
theorem run_nextGoals_iff (ht : t.Proper) (hmode : s.mode = .tactic) (htree : s.tree = some t) :
    (∀ k g, t.openGoals[k]? = some g →
        (run (.firstGoal :: List.replicate k .nextGoal) s).current = some g) ↔
      ∀ k g h, t.openGoals[k]? = some g → t.openGoals[k + 1]? = some h → t.InView g h := by
  -- A step from one goal to the next one of the list is a report of the search.
  have hstep : ∀ k g h, t.openGoals[k]? = some g → t.openGoals[k + 1]? = some h →
      (run (.firstGoal :: List.replicate k .nextGoal) s).current = some g →
      ((run (.firstGoal :: List.replicate (k + 1) .nextGoal) s).current = some h ↔
        t.InView g h) := by
    intro k g h hg hh hat
    have hopen : t.openGoals ≠ [] := List.ne_nil_of_mem (List.mem_of_getElem? hg)
    obtain ⟨g', hg', heq⟩ := run_nextGoals_eq ht hmode htree hopen k
    rw [heq, Option.some.injEq] at hat
    subst hat
    obtain ⟨n, hn⟩ := hg'.exists_get?
    have hnext : (nextGoal { s with current := some g' }).2 =
        { s with current := (t.neighbours g').after <|> some g' } :=
      nextGoal_eq (s := { s with current := some g' }) ht hmode htree rfl hn
    rw [run_nextGoals_succ, heq, hnext, ← ht.after_eq_some_iff hg hh]
    have hne : g' ≠ h := ne_of_lt (Tree.openGoals_consecutive hg hh).1
    cases (t.neighbours g').after <;> simp [hne]
  constructor
  · intro hvisits k g h hg hh
    exact (hstep k g h hg hh (hvisits k g hg)).1 (hvisits (k + 1) h hh)
  · intro hview k
    induction k with
    | zero =>
      intro g hg
      change (firstGoal s).2.current = some g
      rw [firstGoal_eq hmode htree, List.head?_eq_getElem?, hg]
      rfl
    | succ k ih =>
      intro h hh
      have hlt := (List.getElem?_eq_some_iff.1 hh).1
      obtain ⟨g, hg⟩ : ∃ g, t.openGoals[k]? = some g := ⟨_, List.getElem?_eq_getElem (by omega)⟩
      exact (hstep k g h hg hh (ih g hg)).2 (hview k g h hg hh)

/-- **The search for neighbours and the moves of a session.**  In a tree whose open nodes have no
children, the search finds every node.  What it reports before and after the node are open goals on
these sides; it is the preceding goal, and the following goal, exactly when these are in view of the node.
So a step forwards leads from one goal to the next one exactly when this is in view, a step backwards
undoes it exactly when the first goal is in view of the second one, and the steps from the first goal on
visit all goals in their order exactly when each one is in view of the one before it. -/
theorem neighbours_reported_iff_in_view {t : ProofTree} (ht : t.Proper) :
    (∀ p n, t.get? p = some n →
      (t.neighbours p).found = true ∧
      (∀ g, (t.neighbours p).before = some g → g ∈ t.openGoals ∧ g < p) ∧
      (∀ g, (t.neighbours p).after = some g → g ∈ t.openGoals ∧ p < g) ∧
      ((t.neighbours p).before = t.precedingGoal p ↔
        ∀ g, t.precedingGoal p = some g → t.InView p g) ∧
      ((t.neighbours p).after = t.followingGoal p ↔
        ∀ g, t.followingGoal p = some g → t.InView p g)) ∧
    ∀ s : Session, s.mode = .tactic → s.tree = some t →
      (∀ k g h, t.openGoals[k]? = some g → t.openGoals[k + 1]? = some h → s.current = some g →
        ((nextGoal s).2.current = some h ↔ t.InView g h) ∧
        ((nextGoal s).2.current = some h →
          ((run [.nextGoal, .previousGoal] s).current = some g ↔ t.InView h g))) ∧
      ((∀ k g, t.openGoals[k]? = some g →
          (run (.firstGoal :: List.replicate k .nextGoal) s).current = some g) ↔
        ∀ k g h, t.openGoals[k]? = some g → t.openGoals[k + 1]? = some h → t.InView g h) := by
  refine ⟨fun p n hn => ⟨?_, fun g hg => ?_, fun g hg => ?_, ht.before_eq_iff hn,
    ht.after_eq_iff hn⟩, fun s hmode htree => ⟨?_, run_nextGoals_iff ht hmode htree⟩⟩
  · rw [Tree.neighbours_eq ht hn]
  · rw [Tree.neighbours_eq ht hn] at hg
    exact ⟨Tree.mem_openGoals.2 (ht.of_goalBefore hn hg).1, Tree.goalBefore_lt hg⟩
  · rw [Tree.neighbours_eq ht hn] at hg
    exact ⟨Tree.mem_openGoals.2 (ht.of_goalAfter hg).1, Tree.lt_goalAfter hg⟩
  · intro k g h hg hh hcurrent
    have hne : g ≠ h := ne_of_lt (Tree.openGoals_consecutive hg hh).1
    obtain ⟨n, hn⟩ := (Tree.mem_openGoals.1 (List.mem_of_getElem? hg)).exists_get?
    obtain ⟨m, hm⟩ := (Tree.mem_openGoals.1 (List.mem_of_getElem? hh)).exists_get?
    have hnext := nextGoal_eq ht hmode htree hcurrent hn
    refine ⟨?_, fun hat => ?_⟩
    · rw [hnext, ← ht.after_eq_some_iff hg hh]
      cases (t.neighbours g).after <;> simp [hne]
    · change (previousGoal (nextGoal s).2).2.current = some g ↔ _
      rw [previousGoal_eq ht (by rw [hnext]; exact hmode) (by rw [hnext]; exact htree) hat hm,
        ← ht.before_eq_some_iff hg hh]
      cases (t.neighbours h).before <;> simp [hne.symm]

/-- With the second of three goals proved, the first goal is not in view of the third one.  The step
forwards from the first goal leads to the third one, and the step backwards does not lead back. -/
theorem middleProved_no_way_back : ∃ t, middleProved.tree = some t ∧ t.Proper ∧
    t.openGoals = [[0], [2]] ∧ t.precedingGoal [2] = some [0] ∧ (t.neighbours [2]).before = none ∧
    (run [.firstGoal, .nextGoal] middleProved).current = some [2] ∧
    (run [.firstGoal, .nextGoal, .previousGoal] middleProved).current ≠ some [0] := by
  obtain ⟨t, htree⟩ : ∃ t, middleProved.tree = some t := ⟨_, rfl⟩
  have ht := reachable_middleProved.proper t htree
  obtain ⟨n, hn⟩ : ∃ n, t.get? [2] = some n := by cases htree; exact ⟨_, rfl⟩
  have hgoals : t.openGoals = [[0], [2]] := by cases htree; rfl
  have hpre : t.precedingGoal [2] = some [0] := by rw [Tree.precedingGoal, hgoals]; rfl
  have hnone : (t.neighbours [2]).before = none := by cases htree; rfl
  have hview : ¬ t.InView [2] [0] := fun hview => by
    rw [← (neighbours_reported_iff_in_view ht).1 [2] n hn |>.2.2.2.1.2 fun g hg => by
      rw [hpre, Option.some.injEq] at hg; exact hg ▸ hview, hnone] at hpre
    cases hpre
  have hmoves := (neighbours_reported_iff_in_view ht).2 (firstGoal middleProved).2
    (by rw [firstGoal_eq rfl htree]; rfl) (by rw [firstGoal_eq rfl htree]; exact htree)
  obtain ⟨hnext, hback⟩ := hmoves.1 0 [0] [2] (by rw [hgoals]; rfl) (by rw [hgoals]; rfl)
    (by rw [firstGoal_eq rfl htree, hgoals]; rfl)
  have hat := hnext.2 (.later (by decide))
  exact ⟨t, htree, ht, hgoals, hpre, hnone, hat, fun h => hview ((hback hat).1 h)⟩

end Session
end Majorant
