import Majorant.Proofs.Session.OpenGoals
import Mathlib.Data.List.Induction

/-!
# Proof trees with links both ways

The nodes of a proof tree are kept in a store, where each records its parent and its children.
-/

namespace Majorant
open Proof Session

/-- A node that records its parent and its children by their numbers. -/
structure Node (S T : Type) where
  state : S
  parent : Option Nat
  tactic : Option T
  children : List Nat

def Node.face {S T : Type} (d : Node S T) : S × Option T × Nat :=
  (d.state, d.tactic, d.children.length)

namespace Linked

variable {S T : Type} {ns : List (Node S T)} {t : Tree S T} {p q : Path} {n r i k : Nat}

/-- The node to which a path leads along the recorded children. -/
def walk (ns : List (Node S T)) (r : Nat) (p : Path) : Option Nat :=
  p.foldlM (fun n i => ns[n]?.bind (·.children[i]?)) r

theorem walk_concat (p : Path) (i : Nat) :
    walk ns r (p ++ [i]) = (walk ns r p).bind fun n => ns[n]?.bind (·.children[i]?) := by
  simp [walk]

/-- A tactic is used on a node: the states that it leaves become new children. -/
def grow (ns : List (Node S T)) (n : Nat) (tactic : T) (states : List S) : List (Node S T) :=
  ns.modify n (fun d => { d with
    tactic := some tactic, children := d.children ++ List.range' ns.length states.length }) ++
    states.map fun s => ⟨s, some n, none, []⟩

def prune (ns : List (Node S T)) (n : Nat) : List (Node S T) :=
  ns.modify n fun d => { d with tactic := none, children := [] }

/-- **The nodes from a root draw a proof tree**: each shows what stands at its place, and records the
node at the parent's place. No node stands at two places. -/
structure Draws (ns : List (Node S T)) (r : Nat) (t : Tree S T) : Prop where
  node : ∀ {p n}, walk ns r p = some n → ∃ d, ns[n]? = some d ∧
    d.parent = (parent? p).bind (walk ns r) ∧ (t.get? p).map Tree.face = some d.face
  once : ∀ {p q n}, walk ns r p = some n → walk ns r q = some n → p = q

theorem parent?_concat (p : Path) (i : Nat) : parent? (p ++ [i]) = some p := by simp [parent?]

theorem getElem?_grow {d : Node S T} (hd : ns[k]? = some d) (tactic : T) (states : List S) :
    (grow ns n tactic states)[k]? = some (if n = k then { d with
      tactic := some tactic, children := d.children ++ List.range' ns.length states.length } else d) := by
  obtain ⟨hk, -⟩ := List.getElem?_eq_some_iff.1 hd
  rw [grow, List.getElem?_append_left (by simpa using hk), List.getElem?_modify, hd]
  rfl

theorem getElem?_grow_new (n : Nat) (tactic : T) (states : List S) (j : Nat) :
    (grow ns n tactic states)[ns.length + j]? = states[j]?.map fun s => ⟨s, some n, none, []⟩ := by
  rw [grow, List.getElem?_append_right (by simp)]
  simp

/-- The places after a tactic is used: the old ones and those of the new children. -/
theorem walk_grow {d : Node S T} (h : Draws ns r t) (hp : walk ns r p = some n) (hd : ns[n]? = some d)
    (tactic : T) (states : List S) :
    walk (grow ns n tactic states) r q = some k ↔ walk ns r q = some k ∨
      ∃ j < states.length, q = p ++ [d.children.length + j] ∧ k = ns.length + j := by
  induction q using List.reverseRecOn generalizing k with
  | nil => simp [walk]
  | append_singleton q i ih =>
    simp only [walk_concat, Option.bind_eq_some_iff, ih]
    constructor
    · rintro ⟨m, hm | ⟨j, hj, rfl, rfl⟩, e', he', hi⟩
      · obtain ⟨e, he, -⟩ := h.node hm
        rw [getElem?_grow he, Option.some.injEq] at he'
        subst he'
        by_cases hnm : n = m
        · subst hnm
          cases h.once hm hp
          cases he.symm.trans hd
          rw [if_pos rfl] at hi
          by_cases hlt : i < d.children.length
          · rw [List.getElem?_append_left hlt] at hi
            exact .inl ⟨n, hp, d, hd, hi⟩
          · rw [List.getElem?_append_right (by omega), List.getElem?_eq_some_iff] at hi
            obtain ⟨hj, hk⟩ := hi
            simp only [List.length_range', List.getElem_range', Nat.one_mul] at hj hk
            exact .inr ⟨i - d.children.length, hj, by rw [Nat.add_sub_cancel' (by omega)], hk.symm⟩
        · rw [if_neg hnm] at hi
          exact .inl ⟨m, hm, e, he, hi⟩
      · rw [getElem?_grow_new, List.getElem?_eq_getElem hj] at he'
        cases he'
        cases hi
    · rintro (⟨m, hm, e, he, hi⟩ | ⟨j, hj, heq, rfl⟩)
      · refine ⟨m, .inl hm, _, getElem?_grow he tactic states, ?_⟩
        split
        · rwa [List.getElem?_append_left (List.getElem?_eq_some_iff.1 hi).1]
        · exact hi
      · obtain ⟨rfl, hi⟩ := List.append_inj' heq rfl
        cases hi
        refine ⟨n, .inl hp, _, getElem?_grow hd tactic states, ?_⟩
        simp [hj]

theorem exists_walk_parent (hq : walk ns r (q ++ [i]) = some k) :
    ∃ m, walk ns r q = some m := by
  rw [walk_concat] at hq
  obtain ⟨m, hm, -⟩ := Option.bind_eq_some_iff.1 hq
  exact ⟨m, hm⟩

theorem get?_concat {v : Tree S T} (hv : t.get? (p ++ [i]) = some v) :
    ∃ u, t.get? p = some u ∧ u.children[i]? = some v := by
  induction p generalizing t with
  | nil =>
    obtain ⟨s, x, cs⟩ := t
    cases hc : cs[i]? with
    | none => simp [Tree.get?, hc] at hv
    | some c =>
      rw [List.nil_append, Tree.get?_cons hc] at hv
      exact ⟨_, rfl, hc.trans hv⟩
  | cons j p ih =>
    obtain ⟨s, x, cs⟩ := t
    cases hc : cs[j]? with
    | none => simp [Tree.get?, hc] at hv
    | some c =>
      rw [List.cons_append, Tree.get?_cons hc] at hv
      rw [Tree.get?_cons hc]
      exact ih hv

theorem modify_of_none {f : Tree S T → Tree S T} (hp : t.get? p = none) : Tree.modify f p t = t := by
  induction p generalizing t with
  | nil => cases hp
  | cons i p ih =>
    obtain ⟨s, x, cs⟩ := t
    rw [Tree.modify]
    congr 1
    apply List.ext_getElem?
    intro k
    rw [List.getElem?_modify]
    cases hk : cs[k]? with
    | none => rfl
    | some c =>
      by_cases hik : i = k
      · subst hik
        rw [Tree.get?_cons hk] at hp
        simp [ih hp]
      · simp [hik]

theorem Draws.exists_walk (h : Draws ns r t) {v : Tree S T} (hv : t.get? p = some v) :
    ∃ n, walk ns r p = some n := by
  induction p using List.reverseRecOn generalizing v with
  | nil => exact ⟨r, rfl⟩
  | append_singleton p i ih =>
    obtain ⟨u, hu, hi⟩ := get?_concat hv
    obtain ⟨n, hn⟩ := ih hu
    obtain ⟨d, hd, -, hface⟩ := h.node hn
    rw [hu] at hface
    have hlength : u.children.length = d.children.length := congrArg (·.2.2) (Option.some.inj hface)
    have hlt : i < d.children.length := hlength ▸ (List.getElem?_eq_some_iff.1 hi).1
    exact ⟨d.children[i], by simp [walk_concat, hn, hd, hlt]⟩

theorem parent_eq {ns ns' : List (Node S T)}
    (hkeep : ∀ q m, walk ns r q = some m → walk ns' r q = some m) (hq : walk ns r q = some k) :
    (parent? q).bind (walk ns' r) = (parent? q).bind (walk ns r) := by
  induction q using List.reverseRecOn with
  | nil => rfl
  | append_singleton q i _ =>
    obtain ⟨m, hm⟩ := exists_walk_parent hq
    rw [parent?_concat, Option.bind_some, Option.bind_some, hm, hkeep q m hm]

theorem face_get?_extend {v w : Tree S T} (hv : t.get? p = some v) (hw : t.get? q = some w)
    (hne : q ≠ p) (x : T) (states : List S) :
    ((Tree.modify (Tree.extend x states) p t).get? q).map Tree.face = some w.face := by
  by_cases hpre : p <+: q
  · obtain ⟨rest, rfl⟩ := hpre
    rw [Tree.get?_append hv] at hw
    rw [Tree.get?_append (Tree.get?_modify hv)]
    obtain ⟨s, y, cs⟩ := v
    cases rest with
    | nil => simp at hne
    | cons i rest =>
      cases hc : cs[i]? with
      | none =>
        rw [Tree.get?, hc] at hw
        cases hw
      | some c =>
        rw [Tree.get?_cons hc] at hw
        have hold : (cs ++ states.map Tree.leaf)[i]? = some c := by
          rwa [List.getElem?_append_left (List.getElem?_eq_some_iff.1 hc).1]
        rw [Tree.extend, Tree.get?_cons hold, hw]
        rfl
  · rw [Tree.face_get?_modify hpre, hw]
    rfl

theorem face_extend {d : Node S T} {v : Tree S T} (h : v.face = d.face) (x : T) (states : List S)
    (k : Nat) : (Tree.extend x states v).face =
      ({ d with tactic := some x, children := d.children ++ List.range' k states.length }).face := by
  obtain ⟨s, y, cs⟩ := v
  have hstate : s = d.state := congrArg (·.1) h
  have hlength : cs.length = d.children.length := congrArg (·.2.2) h
  simp [Tree.extend, Tree.face, Node.face, Tree.state, Tree.tactic, Tree.children, hstate, hlength]

theorem get?_extend_new {v : Tree S T} (hv : t.get? p = some v) (x : T) {states : List S} {j : Nat}
    (hj : j < states.length) : (Tree.modify (Tree.extend x states) p t).get?
      (p ++ [v.children.length + j]) = some (Tree.leaf states[j]) := by
  rw [Tree.get?_append (Tree.get?_modify hv)]
  obtain ⟨s, y, cs⟩ := v
  simp [Tree.extend, Tree.get?, Tree.children, hj]

theorem Draws.grow (h : Draws ns r t) (hp : walk ns r p = some n) (tactic : T) (states : List S) :
    Draws (grow ns n tactic states) r (Tree.modify (Tree.extend tactic states) p t) := by
  obtain ⟨d, hd, -, hface⟩ := h.node hp
  obtain ⟨v, hv, hshow⟩ := Option.map_eq_some_iff.1 hface
  have hlength : v.children.length = d.children.length := congrArg (·.2.2) hshow
  have hwalk : ∀ {q k}, _ := fun {q k} => walk_grow (q := q) (k := k) h hp hd tactic states
  have hkeep : ∀ q m, walk ns r q = some m → walk (Linked.grow ns n tactic states) r q = some m :=
    fun q m hm => hwalk.2 (.inl hm)
  have hvalid : ∀ {q k}, walk ns r q = some k → k < ns.length := fun hq => by
    obtain ⟨e, he, -⟩ := h.node hq
    exact (List.getElem?_eq_some_iff.1 he).1
  refine ⟨fun {q k} hq => ?_, fun {q q' k} hq hq' => ?_⟩
  · rcases hwalk.1 hq with hq | ⟨j, hj, rfl, rfl⟩
    · obtain ⟨e, he, hup, hshown⟩ := h.node hq
      refine ⟨_, getElem?_grow he tactic states, ?_⟩
      rw [parent_eq hkeep hq, ← hup]
      by_cases hnk : n = k
      · subst hnk
        cases h.once hp hq
        cases hd.symm.trans he
        rw [if_pos rfl, Tree.get?_modify hv]
        exact ⟨rfl, congrArg some (face_extend hshow tactic states ns.length)⟩
      · obtain ⟨w, hw, hface'⟩ := Option.map_eq_some_iff.1 hshown
        rw [if_neg hnk, face_get?_extend hv hw (fun heq => hnk ?_), hface']
        · exact ⟨rfl, rfl⟩
        · rw [heq, hp] at hq
          exact Option.some.inj hq
    · refine ⟨⟨states[j], some n, none, []⟩, ?_, ?_, ?_⟩
      · rw [getElem?_grow_new, List.getElem?_eq_getElem hj]
        rfl
      · rw [parent?_concat, Option.bind_some, hkeep p n hp]
      · rw [← hlength, get?_extend_new hv tactic hj]
        rfl
  -- the numbers of the new children are larger than those of all nodes before
  · rcases hwalk.1 hq with hq | ⟨j, hj, rfl, rfl⟩ <;> rcases hwalk.1 hq' with hq' | ⟨j', hj', rfl, hk⟩
    · exact h.once hq hq'
    · have := hvalid hq
      omega
    · have := hvalid hq'
      omega
    · rw [Nat.add_left_cancel hk]

theorem getElem?_prune {d : Node S T} (hd : ns[k]? = some d) :
    (prune ns n)[k]? = some (if n = k then { d with tactic := none, children := [] } else d) := by
  rw [prune, List.getElem?_modify, hd]
  rfl

/-- The places after a tactic is taken back: those below the node are gone. -/
theorem walk_prune (h : Draws ns r t) (hp : walk ns r p = some n) :
    walk (prune ns n) r q = some k ↔ walk ns r q = some k ∧ (p <+: q → q = p) := by
  induction q using List.reverseRecOn generalizing k with
  | nil => simp [walk, eq_comm]
  | append_singleton q i ih =>
    simp only [walk_concat, Option.bind_eq_some_iff, ih, List.prefix_concat_iff]
    constructor
    · rintro ⟨m, ⟨hm, hpre⟩, e', he', hi⟩
      obtain ⟨e, he, -⟩ := h.node hm
      rw [getElem?_prune he, Option.some.injEq] at he'
      subst he'
      by_cases hnm : n = m
      · rw [if_pos hnm] at hi
        cases hi
      · rw [if_neg hnm] at hi
        refine ⟨⟨m, hm, e, he, hi⟩, fun hcases => ?_⟩
        rcases hcases with heq | hbelow
        · exact heq.symm
        · rw [hpre hbelow, hp] at hm
          exact absurd (Option.some.inj hm) hnm
    · rintro ⟨⟨m, hm, e, he, hi⟩, hpre⟩
      have hbelow : ¬ p <+: q := fun hpq => by
        have hlength := congrArg List.length (hpre (.inr hpq))
        have hle := hpq.length_le
        rw [List.length_append, List.length_singleton] at hlength
        omega
      refine ⟨m, ⟨hm, fun hpq => absurd hpq hbelow⟩, _, getElem?_prune he, ?_⟩
      rw [if_neg]
      · exact hi
      · rintro rfl
        exact hbelow (h.once hp hm ▸ List.prefix_rfl)

theorem Draws.prune (h : Draws ns r t) (hp : walk ns r p = some n) :
    Draws (prune ns n) r (Tree.modify Tree.clear p t) := by
  have hwalk : ∀ {q k}, _ := fun {q k} => walk_prune (q := q) (k := k) h hp
  refine ⟨fun {q k} hq => ?_, fun hq hq' => h.once (hwalk.1 hq).1 (hwalk.1 hq').1⟩
  obtain ⟨hold, hpre⟩ := hwalk.1 hq
  obtain ⟨e, he, hup, hshown⟩ := h.node hold
  rw [parent_eq (fun q m hm => (hwalk.1 hm).1) hq] at hup
  refine ⟨_, getElem?_prune he, ?_⟩
  by_cases hqp : q = p
  · subst hqp
    cases hp.symm.trans hold
    obtain ⟨v, hv, hshow⟩ := Option.map_eq_some_iff.1 hshown
    rw [if_pos rfl, Tree.get?_modify hv]
    obtain ⟨s, x, cs⟩ := v
    have hstate : s = e.state := congrArg (·.1) hshow
    exact ⟨hup, by rw [hstate]; rfl⟩
  · rw [if_neg fun hnk : n = k => hqp (h.once hold (hnk ▸ hp)), Tree.face_get?_modify (mt hpre hqp)]
    exact ⟨hup, hshown⟩

theorem draws_leaf (ns : List (Node S T)) (s : S) :
    Draws (ns ++ [⟨s, none, none, []⟩]) ns.length (Tree.leaf s) := by
  have hnode : (ns ++ [⟨s, none, none, []⟩])[ns.length]? = some ⟨s, none, none, []⟩ := by simp
  have hroot : ∀ {p k}, walk (ns ++ [⟨s, none, none, []⟩]) ns.length p = some k →
      p = [] ∧ k = ns.length := by
    intro p k hp
    cases p with
    | nil => exact ⟨rfl, (Option.some.inj hp).symm⟩
    | cons i p => simp [walk] at hp
  refine ⟨fun hp => ?_, fun hp hq => (hroot hp).1.trans (hroot hq).1.symm⟩
  obtain ⟨rfl, rfl⟩ := hroot hp
  exact ⟨_, hnode, rfl, rfl⟩

/-- **Nodes that are linked both ways as a tree**: open nodes have no children, every node is the
parent that its children record, no node stands at two places, and the root has no parent. -/
structure IsTree (ns : List (Node S T)) (r : Nat) : Prop where
  childless : ∀ p n d, walk ns r p = some n → ns[n]? = some d → d.tactic = none → d.children = []
  parent : ∀ p n d, walk ns r p = some n → ns[n]? = some d →
    ∀ c ∈ d.children, ∃ e, ns[c]? = some e ∧ e.parent = some n
  once : ∀ p q n, walk ns r p = some n → walk ns r q = some n → p = q
  root : ∃ d, ns[r]? = some d ∧ d.parent = none

theorem Draws.isTree (h : Draws ns r t) (ht : t.Proper) : IsTree ns r where
  childless p n d hp hd htactic := by
    obtain ⟨e, he, -, hface⟩ := h.node hp
    cases hd.symm.trans he
    obtain ⟨v, hv, hshow⟩ := Option.map_eq_some_iff.1 hface
    obtain ⟨-, childless⟩ := ht.get? hv
    rename_i s x cs
    have hx : x = none := (congrArg (·.2.1) hshow).trans htactic
    have hlength : cs.length = d.children.length := congrArg (·.2.2) hshow
    rw [childless hx] at hlength
    exact List.length_eq_zero_iff.1 hlength.symm
  parent p n d hp hd c hc := by
    obtain ⟨i, hi⟩ := List.mem_iff_getElem?.1 hc
    have hwalk : walk ns r (p ++ [i]) = some c := by
      rw [walk_concat, hp, Option.bind_some, hd, Option.bind_some, hi]
    obtain ⟨e, he, hparent, -⟩ := h.node hwalk
    rw [parent?_concat, Option.bind_some, hp] at hparent
    exact ⟨e, he, hparent⟩
  once _ _ _ hp hq := h.once hp hq
  root := by
    obtain ⟨d, hd, hparent, -⟩ := h.node (p := []) rfl
    exact ⟨d, hd, hparent⟩

end Linked

end Majorant
