import Majorant.Proof.Tree
import Mathlib.Data.List.Basic
import Mathlib.Data.Option.Basic

/-!
# The open goals that a search sees

A search for the neighbours of a node sees only the open goals that are *in view* of it.
-/

namespace Majorant
namespace Proof
namespace Tree

variable {S T : Type}

/-- An open goal stands at a path. -/
inductive Goal : Tree S T → Path → Prop
  | here {s : S} {cs : List (Tree S T)} : Goal (node s none cs) []
  | inner {s : S} {x : T} {cs : List (Tree S T)} {i : Nat} {c : Tree S T} {g : Path}
      (child : cs[i]? = some c) (goal : Goal c g) : Goal (node s (some x) cs) (i :: g)

/-- Open nodes have no children. -/
inductive Proper : Tree S T → Prop
  | node {s : S} {x : Option T} {cs : List (Tree S T)} (children : ∀ c ∈ cs, Proper c)
      (childless : x = none → cs = []) : Proper (.node s x cs)

mutual

theorem mem_openFrom {here q : Path} {t : Tree S T} :
    q ∈ openFrom [] here t ↔ ∃ g, q = here ++ g ∧ t.Goal g := by
  obtain ⟨s, x, cs⟩ := t
  cases x with
  | none =>
    have hgoal : ∀ g, (node s none cs).Goal g ↔ g = [] := by
      intro g
      constructor
      · rintro ⟨⟩
        rfl
      · rintro rfl
        exact .here
    simp [openFrom, hgoal]
  | some x =>
    simp only [openFrom, List.contains_nil, Bool.false_eq_true, if_false]
    rw [mem_openFromList]
    constructor
    · rintro ⟨k, c, g, rfl, hc, hg⟩
      exact ⟨k :: g, by rw [Nat.zero_add], .inner hc hg⟩
    · rintro ⟨_, rfl, hgoal⟩
      cases hgoal with
      | @inner _ _ _ k c g hc hg => exact ⟨k, c, g, by rw [Nat.zero_add], hc, hg⟩

theorem mem_openFromList {here q : Path} {i : Nat} {cs : List (Tree S T)} :
    q ∈ openFromList [] here i cs ↔
      ∃ k c g, q = here ++ (i + k) :: g ∧ cs[k]? = some c ∧ c.Goal g := by
  cases cs with
  | nil => simp [openFromList]
  | cons c cs =>
    rw [openFromList, List.mem_append, mem_openFrom, mem_openFromList]
    constructor
    · rintro (⟨g, rfl, hg⟩ | ⟨k, d, g, rfl, hd, hg⟩)
      · exact ⟨0, c, g, by simp, rfl, hg⟩
      · exact ⟨k + 1, d, g, by rw [Nat.add_assoc, Nat.add_comm 1 k], hd, hg⟩
    · rintro ⟨k, d, g, rfl, hd, hg⟩
      cases k with
      | zero =>
        rw [List.getElem?_cons_zero, Option.some.injEq] at hd
        subst hd
        exact .inl ⟨g, by simp, hg⟩
      | succ k => exact .inr ⟨k, d, g, by rw [Nat.add_assoc, Nat.add_comm 1 k], hd, hg⟩

end

/-- **The open goals** are those that stand at some path. -/
theorem mem_openGoals {t : Tree S T} {g : Path} : g ∈ t.openGoals ↔ t.Goal g := by
  rw [openGoals, mem_openFrom]
  simp

mutual

/-- The open goal that is reached through last children. -/
def endGoal : Tree S T → Option Path
  | node _ none _ => some []
  | node _ (some _) cs => endGoalList 0 cs

/-- The open goal that is reached through the last child, where the first child has index `i`. -/
def endGoalList (i : Nat) : List (Tree S T) → Option Path
  | [] => none
  | [c] => c.endGoal.map (i :: ·)
  | _ :: c :: cs => endGoalList (i + 1) (c :: cs)

end

/-- The first child that is an open goal, where the first child has index `i`. -/
def firstOpen (i : Nat) : List (Tree S T) → Option Path
  | [] => none
  | c :: cs => if c.tactic.isNone then some [i] else firstOpen (i + 1) cs

def goalBefore : Path → Tree S T → Option Path
  | [], _ => none
  | i :: p, node _ _ cs =>
    (cs[i]?.bind fun c => (goalBefore p c).map (i :: ·)) <|> endGoalList 0 (cs.take i)

def goalAfter : Path → Tree S T → Option Path
  | [], node _ _ cs => firstOpen 0 cs
  | i :: p, node _ _ cs =>
    (cs[i]?.bind fun c => (goalAfter p c).map (i :: ·)) <|> firstOpen (i + 1) (cs.drop (i + 1))

/-- **The goals in view of a node**: its children, the later siblings of the node or of an ancestor, and
the end of the subtree just before the node or an ancestor. -/
inductive InView : Tree S T → Path → Path → Prop
  | child {t : Tree S T} (i : Nat) : InView t [] [i]
  | later {t : Tree S T} {i j : Nat} {p : Path} (h : i < j) : InView t (i :: p) [j]
  | before {s : S} {x : Option T} {cs : List (Tree S T)} {i : Nat} {p w : Path} {c : Tree S T}
      (child : cs[i]? = some c) (last : c.endGoal = some w) :
      InView (node s x cs) ((i + 1) :: p) (i :: w)
  | inner {s : S} {x : Option T} {cs : List (Tree S T)} {i : Nat} {p g : Path} {c : Tree S T}
      (child : cs[i]? = some c) (view : InView c p g) : InView (node s x cs) (i :: p) (i :: g)

theorem not_isPrefix_append {here target : Path} (h : ¬ here <+: target) (q : Path) :
    ¬ here ++ q <+: target := fun hq => h ((List.prefix_append here q).trans hq)

mutual

theorem neighboursFrom_of_outside {target here : Path} (h : ¬ here <+: target) (t : Tree S T) :
    neighboursFrom target here t =
      ⟨false, t.endGoal.map (here ++ ·), if t.tactic.isNone then some here else none⟩ := by
  obtain ⟨s, x, cs⟩ := t
  have hne : here ≠ target := fun heq => h (heq ▸ List.prefix_refl here)
  cases x with
  | none => simp [neighboursFrom, hne, endGoal, tactic]
  | some x =>
    have hlist := neighboursList_of_outside (i := 0) none none cs fun k _ _ => not_isPrefix_append h [k]
    rw [neighboursFrom, if_neg hne]
    cases cs with
    | nil => rfl
    | cons c cs => simpa [endGoal, tactic] using hlist

theorem neighboursList_of_outside {target here : Path} {i : Nat} (b a : Option Path)
    (cs : List (Tree S T)) (h : ∀ k, i ≤ k → k < i + cs.length → ¬ here ++ [k] <+: target) :
    neighboursList target here i ⟨false, b, a⟩ cs =
      ⟨false, if cs = [] then b else (endGoalList i cs).map (here ++ ·), a⟩ := by
  cases cs with
  | nil => rw [neighboursList, if_pos rfl]
  | cons c cs =>
    have hnext : Neighbours.next ⟨false, b, a⟩ (neighboursFrom target (here ++ [i]) c) =
        ⟨false, c.endGoal.map (here ++ [i] ++ ·), a⟩ := by
      rw [neighboursFrom_of_outside (h i (Nat.le_refl i) (by simp))]
      rfl
    rw [neighboursList, hnext, if_neg (List.cons_ne_nil c cs), neighboursList_of_outside]
    case h =>
      intro k hik hk
      exact h k (by omega) (by rw [List.length_cons]; omega)
    cases cs with
    | nil => simp [endGoalList, Function.comp_def]
    | cons d ds => simp [endGoalList]

end

theorem neighboursList_of_found {target here : Path} {i : Nat}
    (h : ∀ k, i ≤ k → ¬ here ++ [k] <+: target) (b a : Option Path) (cs : List (Tree S T)) :
    neighboursList target here i ⟨true, b, a⟩ cs =
      ⟨true, b, a <|> (firstOpen i cs).map (here ++ ·)⟩ := by
  induction cs generalizing i a with
  | nil => simp [neighboursList, firstOpen]
  | cons c cs ih =>
    have hnext : Neighbours.next ⟨true, b, a⟩ (neighboursFrom target (here ++ [i]) c) =
        ⟨true, b, a <|> if c.tactic.isNone then some (here ++ [i]) else none⟩ := by
      rw [neighboursFrom_of_outside (h i (Nat.le_refl i))]
      rfl
    rw [neighboursList, hnext, ih fun k hk => h k (by omega)]
    by_cases hopen : c.tactic.isNone = true
    · cases a <;> simp [firstOpen, hopen]
    · simp [firstOpen, hopen]

theorem firstAfter_eq (here : Path) (i : Nat) (cs : List (Tree S T)) :
    firstAfter here here i cs = (firstOpen i cs).map (here ++ ·) := by
  have hout : ∀ k, ¬ here ++ [k] <+: here := by
    intro k hk
    have hlength := hk.length_le
    rw [List.length_append, List.length_singleton] at hlength
    omega
  induction cs generalizing i with
  | nil => rfl
  | cons c cs ih =>
    rw [firstAfter, neighboursFrom_of_outside (hout i), ih]
    by_cases hopen : c.tactic.isNone = true
    · simp [firstOpen, hopen]
    · simp [firstOpen, hopen]

theorem neighboursList_append (target here : Path) (i : Nat) (sofar : Neighbours)
    (cs ds : List (Tree S T)) :
    neighboursList target here i sofar (cs ++ ds) =
      neighboursList target here (i + cs.length) (neighboursList target here i sofar cs) ds := by
  induction cs generalizing i sofar with
  | nil => rfl
  | cons c cs ih =>
    rw [List.cons_append, neighboursList, ih, neighboursList, List.length_cons]
    congr 1
    omega

theorem not_isPrefix_child {here p : Path} {i k : Nat} (h : k ≠ i) : ¬ here ++ [k] <+: here ++ i :: p := by
  rw [List.prefix_append_right_inj]
  intro hk
  have hhead := (List.cons_prefix_cons.1 hk).1
  exact h hhead

/-- **What the search reports** of a subtree with the target. -/
theorem neighboursFrom_eq {t n : Tree S T} (ht : t.Proper) {p : Path} (hp : t.get? p = some n)
    (here : Path) : neighboursFrom (here ++ p) here t =
      ⟨true, (goalBefore p t).map (here ++ ·), (goalAfter p t).map (here ++ ·)⟩ := by
  induction p generalizing t here with
  | nil =>
    obtain ⟨s, x, cs⟩ := t
    rw [List.append_nil, neighboursFrom.eq_def]
    dsimp only
    rw [if_pos rfl, firstAfter_eq]
    rfl
  | cons i p ih =>
    obtain ⟨children, childless⟩ := ht
    rename_i s x cs
    cases hc : cs[i]? with
    | none =>
      rw [get?, hc] at hp
      cases hp
    | some c =>
      rw [get?, hc] at hp
      obtain ⟨hlt, hget⟩ := List.getElem?_eq_some_iff.1 hc
      have hsplit : cs = cs.take i ++ c :: cs.drop (i + 1) := by
        rw [← hget, List.getElem_cons_drop, List.take_append_drop]
      have htake : (cs.take i).length = i := List.length_take_of_le (Nat.le_of_lt hlt)
      have hne : here ≠ here ++ i :: p := by simp
      cases x with
      | none => exact absurd (childless rfl) (List.ne_nil_of_length_pos (by omega))
      | some x =>
        -- The children fall into those before the one on the way, that one, and those after it.
        have hchild := ih (children c (List.mem_of_getElem? hc)) hp (here ++ [i])
        rw [List.append_assoc, List.singleton_append] at hchild
        have hleft : neighboursList (here ++ i :: p) here 0 ⟨false, none, none⟩ (cs.take i) =
            ⟨false, (endGoalList 0 (cs.take i)).map (here ++ ·), none⟩ := by
          rw [neighboursList_of_outside none none (cs.take i)
            fun k _ hk => not_isPrefix_child (by omega)]
          by_cases hnil : cs.take i = []
          · rw [hnil]
            rfl
          · rw [if_neg hnil]
        have hlist : neighboursList (here ++ i :: p) here 0 ⟨false, none, none⟩ cs =
            ⟨true, (goalBefore (i :: p) (node s (some x) cs)).map (here ++ ·),
              (goalAfter (i :: p) (node s (some x) cs)).map (here ++ ·)⟩ := by
          conv_lhs => rw [hsplit]
          rw [neighboursList_append, hleft, htake, Nat.zero_add, neighboursList, hchild]
          simp only [Neighbours.next, if_true]
          rw [neighboursList_of_found fun k hk => not_isPrefix_child (by omega)]
          simp only [goalBefore, goalAfter, hc, Option.bind_some]
          cases goalBefore p c <;> cases goalAfter p c <;> simp
        rw [neighboursFrom, if_neg hne, hlist]

theorem neighbours_eq {t n : Tree S T} (ht : t.Proper) {p : Path} (hp : t.get? p = some n) :
    t.neighbours p = ⟨true, goalBefore p t, goalAfter p t⟩ := by
  rw [neighbours, ← List.nil_append p, neighboursFrom_eq ht hp, List.nil_append]
  simp

variable {s : S} {x : Option T} {t : Tree S T} {cs : List (Tree S T)}

theorem firstOpen_eq_some {i : Nat} {g : Path} (h : firstOpen i cs = some g) :
    ∃ k c, g = [i + k] ∧ cs[k]? = some c ∧ c.Goal [] := by
  induction cs generalizing i with
  | nil => cases h
  | cons c cs ih =>
    rw [firstOpen] at h
    obtain ⟨s, x, ds⟩ := c
    cases x with
    | none =>
      cases h
      exact ⟨0, _, rfl, rfl, .here⟩
    | some x =>
      obtain ⟨k, d, rfl, hd, hgoal⟩ := ih h
      exact ⟨k + 1, d, by rw [Nat.add_assoc, Nat.add_comm 1 k], hd, hgoal⟩

theorem firstOpen_eq_none {i k : Nat} {c : Tree S T} (h : firstOpen i cs = none)
    (hc : cs[k]? = some c) : ¬ c.Goal [] := by
  induction cs generalizing i k with
  | nil => cases hc
  | cons d ds ih =>
    rw [firstOpen] at h
    obtain ⟨s, x, es⟩ := d
    cases x with
    | none => cases h
    | some x =>
      cases k with
      | zero =>
        cases hc
        exact nofun
      | succ k => exact ih h hc

mutual

theorem goal_of_endGoal {w : Path} {t : Tree S T} (h : t.endGoal = some w) : t.Goal w := by
  obtain ⟨s, x, cs⟩ := t
  cases x with
  | none =>
    cases h
    exact .here
  | some x =>
    obtain ⟨k, c, v, rfl, hc, hv⟩ := goal_of_endGoalList h
    rw [Nat.zero_add]
    exact .inner hc hv

theorem goal_of_endGoalList {i : Nat} {w : Path} {cs : List (Tree S T)}
    (h : endGoalList i cs = some w) : ∃ k c v, w = (i + k) :: v ∧ cs[k]? = some c ∧ c.Goal v :=
  match cs, h with
  | [c], h => by
    obtain ⟨v, hv, rfl⟩ := Option.map_eq_some_iff.1 h
    exact ⟨0, c, v, rfl, rfl, goal_of_endGoal hv⟩
  | _ :: c :: cs, h => by
    have hrest : endGoalList (i + 1) (c :: cs) = some w := h
    obtain ⟨k, d, v, rfl, hd, hv⟩ := goal_of_endGoalList hrest
    exact ⟨k + 1, d, v, by rw [Nat.add_assoc, Nat.add_comm 1 k], hd, hv⟩

end

theorem endGoalList_concat (i : Nat) (cs : List (Tree S T)) (c : Tree S T) :
    endGoalList i (cs ++ [c]) = c.endGoal.map ((i + cs.length) :: ·) := by
  induction cs generalizing i with
  | nil => rfl
  | cons d ds ih =>
    have hskip : endGoalList i (d :: (ds ++ [c])) = endGoalList (i + 1) (ds ++ [c]) := by
      cases ds <;> rfl
    rw [List.cons_append, hskip, ih, List.length_cons, Nat.add_assoc, Nat.add_comm 1]

theorem endGoalList_take {i : Nat} {c : Tree S T} (hc : cs[i]? = some c) :
    endGoalList 0 (cs.take (i + 1)) = c.endGoal.map (i :: ·) := by
  obtain ⟨hlt, hget⟩ := List.getElem?_eq_some_iff.1 hc
  rw [List.take_succ_eq_append_getElem hlt, hget, endGoalList_concat,
    List.length_take_of_le (Nat.le_of_lt hlt), Nat.zero_add]

theorem Proper.goal_inner {i : Nat} {c : Tree S T} {g : Path} (ht : (Tree.node s x cs).Proper)
    (hc : cs[i]? = some c) (hg : c.Goal g) : (Tree.node s x cs).Goal (i :: g) := by
  obtain ⟨-, childless⟩ := ht
  cases x with
  | none =>
    rw [childless rfl] at hc
    cases hc
  | some x => exact .inner hc hg

theorem Proper.of_goalAfter {p g : Path} (ht : t.Proper) (h : goalAfter p t = some g) :
    t.Goal g ∧ t.InView p g := by
  induction p generalizing t g with
  | nil =>
    obtain ⟨s, x, cs⟩ := t
    obtain ⟨k, c, rfl, hc, hgoal⟩ := firstOpen_eq_some h
    rw [Nat.zero_add]
    exact ⟨ht.goal_inner hc hgoal, .child k⟩
  | cons i p ih =>
    obtain ⟨s, x, cs⟩ := t
    obtain ⟨children, -⟩ := id ht
    rw [goalAfter, Option.orElse_eq_orElse, Option.orElse_eq_or, Option.or_eq_some_iff] at h
    rcases h with h | ⟨-, h⟩
    · obtain ⟨c, hc, h⟩ := Option.bind_eq_some_iff.1 h
      obtain ⟨g, hg, rfl⟩ := Option.map_eq_some_iff.1 h
      obtain ⟨hgoal, hview⟩ := ih (children c (List.mem_of_getElem? hc)) hg
      exact ⟨ht.goal_inner hc hgoal, .inner hc hview⟩
    · obtain ⟨k, c, rfl, hc, hgoal⟩ := firstOpen_eq_some h
      rw [List.getElem?_drop] at hc
      exact ⟨ht.goal_inner hc hgoal, .later (by omega)⟩

theorem Proper.of_goalBefore {p g : Path} {n : Tree S T} (ht : t.Proper) (hp : t.get? p = some n)
    (h : goalBefore p t = some g) : t.Goal g ∧ t.InView p g := by
  induction p generalizing t g with
  | nil => cases h
  | cons i p ih =>
    obtain ⟨s, x, cs⟩ := t
    obtain ⟨children, -⟩ := id ht
    cases hc : cs[i]? with
    | none =>
      rw [get?, hc] at hp
      cases hp
    | some c =>
      rw [get?, hc] at hp
      rw [goalBefore, hc, Option.orElse_eq_orElse, Option.orElse_eq_or, Option.or_eq_some_iff] at h
      rcases h with h | ⟨-, h⟩
      · obtain ⟨g, hg, rfl⟩ := Option.map_eq_some_iff.1 h
        obtain ⟨hgoal, hview⟩ := ih (children c (List.mem_of_getElem? hc)) hp hg
        exact ⟨ht.goal_inner hc hgoal, .inner hc hview⟩
      · cases i with
        | zero => cases h
        | succ i =>
          obtain ⟨hlt, -⟩ := List.getElem?_eq_some_iff.1 hc
          obtain ⟨d, hd⟩ : ∃ d, cs[i]? = some d := ⟨_, List.getElem?_eq_getElem (by omega)⟩
          rw [endGoalList_take hd] at h
          obtain ⟨w, hw, rfl⟩ := Option.map_eq_some_iff.1 h
          exact ⟨ht.goal_inner hd (goal_of_endGoal hw), .before hd hw⟩

theorem not_goal_of_inView {p g : Path} (hview : t.InView p g) (hafter : goalAfter p t = none)
    (hbefore : goalBefore p t = none) : ¬ t.Goal g := by
  induction hview with
  | @child t i =>
    rintro (_ | ⟨hc, hgoal⟩)
    exact firstOpen_eq_none hafter hc hgoal
  | @later t i j p hij =>
    rintro (_ | ⟨hc, hgoal⟩)
    rw [goalAfter, Option.orElse_eq_orElse, Option.orElse_eq_or, Option.or_eq_none_iff] at hafter
    refine firstOpen_eq_none (k := j - (i + 1)) hafter.2 ?_ hgoal
    rw [List.getElem?_drop, ← hc]
    congr 1
    omega
  | before hc hw =>
    rw [goalBefore, Option.orElse_eq_orElse, Option.orElse_eq_or, Option.or_eq_none_iff,
      endGoalList_take hc, hw] at hbefore
    cases hbefore.2
  | inner hc _ ih =>
    rw [goalAfter, hc, Option.orElse_eq_orElse, Option.orElse_eq_or, Option.or_eq_none_iff] at hafter
    rw [goalBefore, hc, Option.orElse_eq_orElse, Option.orElse_eq_or, Option.or_eq_none_iff] at hbefore
    rintro (_ | ⟨hc', hgoal⟩)
    rw [hc, Option.some.injEq] at hc'
    subst hc'
    exact ih (Option.map_eq_none_iff.1 hafter.1) (Option.map_eq_none_iff.1 hbefore.1) hgoal

/-- The goal that a session goes on with after a tactic has been used on the node at a path. -/
def nextFrom (t : Tree S T) (p : Path) : Option Path :=
  (t.neighbours p).after <|> (t.neighbours p).before

theorem Proper.of_nextFrom {p g : Path} {n : Tree S T} (ht : t.Proper) (hp : t.get? p = some n)
    (h : t.nextFrom p = some g) : g ∈ t.openGoals ∧ t.InView p g := by
  rw [nextFrom, neighbours_eq ht hp, Option.orElse_eq_orElse, Option.orElse_eq_or,
    Option.or_eq_some_iff] at h
  rw [mem_openGoals]
  rcases h with h | ⟨-, h⟩
  · exact ht.of_goalAfter h
  · exact ht.of_goalBefore hp h

/-- **A goal is found** exactly when one is in view. -/
theorem Proper.nextFrom_eq_none_iff {p : Path} {n : Tree S T} (ht : t.Proper)
    (hp : t.get? p = some n) : t.nextFrom p = none ↔ ∀ g ∈ t.openGoals, ¬ t.InView p g := by
  constructor
  · intro h g hg hview
    rw [nextFrom, neighbours_eq ht hp, Option.orElse_eq_orElse, Option.orElse_eq_or,
      Option.or_eq_none_iff] at h
    exact not_goal_of_inView hview h.1 h.2 (mem_openGoals.1 hg)
  · intro h
    cases hnext : t.nextFrom p with
    | none => rfl
    | some g =>
      obtain ⟨hg, hview⟩ := ht.of_nextFrom hp hnext
      exact absurd hview (h g hg)

end Tree
end Proof
end Majorant
