import Majorant.Proof.Tree
import Mathlib.Data.List.Basic

/-!
# Justified proof trees

A proof tree is justified if the state of every node with a tactic is valid as soon as the states
of its children are.
-/

namespace Majorant
namespace Proof
namespace Tree

variable {S T : Type} {Valid : S → Prop}

/-- Every node with a tactic follows from its children. -/
inductive Justified (Valid : S → Prop) : Tree S T → Prop
  | node {s : S} {t : Option T} {cs : List (Tree S T)}
      (children : ∀ c ∈ cs, Justified Valid c)
      (follows : t ≠ none → (∀ c ∈ cs, Valid c.state) → Valid s) : Justified Valid (.node s t cs)

theorem justified_leaf (s : S) : (leaf s : Tree S T).Justified Valid := by
  refine .node ?_ ?_
  · intro c hc
    cases hc
  · intro h
    exact absurd rfl h

theorem state_extend (tactic : T) (states : List S) (n : Tree S T) :
    (extend tactic states n).state = n.state := by
  cases n
  rfl

theorem state_clear (n : Tree S T) : n.clear.state = n.state := by
  cases n
  rfl

theorem Justified.clear (n : Tree S T) : n.clear.Justified Valid := by
  cases n
  exact justified_leaf _

/-- A node may be extended by states that make it valid, whether it had a tactic before or not: the
children it had stay. -/
theorem Justified.extend {tactic : T} {states : List S} {n : Tree S T} (h : n.Justified Valid)
    (hstates : (∀ s ∈ states, Valid s) → Valid n.state) :
    (extend tactic states n).Justified Valid := by
  obtain ⟨children, -⟩ := h
  refine .node ?_ ?_
  · intro c hc
    rcases List.mem_append.1 hc with hc | hc
    · exact children c hc
    · obtain ⟨s, -, rfl⟩ := List.mem_map.1 hc
      exact justified_leaf s
  · intro _ hvalid
    apply hstates
    intro s hs
    exact hvalid (leaf s) (List.mem_append.2 (.inr (List.mem_map.2 ⟨s, hs, rfl⟩)))

theorem state_modify {f : Tree S T → Tree S T} (hf : ∀ n, (f n).state = n.state) (p : Path)
    (t : Tree S T) : (modify f p t).state = t.state := by
  cases p with
  | nil => exact hf t
  | cons i p =>
    cases t
    rfl

theorem get?_cons {s : S} {t : Option T} {cs : List (Tree S T)} {i : Nat} {c : Tree S T}
    (hc : cs[i]? = some c) (p : Path) : (node s t cs).get? (i :: p) = c.get? p := by
  rw [get?, hc]

/-- **A change of one node** keeps a tree justified if it keeps the node's state and justification. -/
theorem Justified.modify {f : Tree S T → Tree S T} (hstate : ∀ n, (f n).state = n.state) (p : Path)
    {t : Tree S T} (h : t.Justified Valid)
    (hf : ∀ n, t.get? p = some n → n.Justified Valid → (f n).Justified Valid) :
    (modify f p t).Justified Valid := by
  induction p generalizing t with
  | nil => exact hf t rfl h
  | cons i p ih =>
    obtain ⟨children, follows⟩ := h
    rename_i s t cs
    -- A child of the changed node is a changed child or an old one, and has the old state.
    have hold : ∀ k c, cs[k]? = some c →
        (cs.modify i (Tree.modify f p))[k]? = some (if i = k then Tree.modify f p c else c) := by
      intro k c hc
      rw [List.getElem?_modify, hc]
      rfl
    refine .node ?_ ?_
    · intro c' hc'
      obtain ⟨k, hk⟩ := List.mem_iff_getElem?.1 hc'
      cases hc : cs[k]? with
      | none =>
        rw [List.getElem?_modify, hc] at hk
        cases hk
      | some c =>
        rw [hold k c hc, Option.some.injEq] at hk
        have hjust := children c (List.mem_iff_getElem?.2 ⟨k, hc⟩)
        rw [← hk]
        split
        · next heq =>
          subst heq
          exact ih hjust fun n hn => hf n (by rw [get?_cons hc, hn])
        · exact hjust
    · intro ht hvalid
      apply follows ht
      intro c hc
      obtain ⟨k, hk⟩ := List.mem_iff_getElem?.1 hc
      have hmem := hvalid _ (List.mem_iff_getElem?.2 ⟨k, hold k c hk⟩)
      split at hmem
      · rwa [state_modify hstate] at hmem
      · exact hmem

theorem openFrom_eq_nil_of_openFromList {excluded : List Path} {here : Path} {i : Nat}
    {cs : List (Tree S T)} (h : openFromList excluded here i cs = []) :
    ∀ c ∈ cs, ∃ q, openFrom excluded q c = [] := by
  induction cs generalizing i with
  | nil =>
    intro c hc
    cases hc
  | cons c cs ih =>
    rw [openFromList, List.append_eq_nil_iff] at h
    intro d hd
    rcases List.mem_cons.1 hd with rfl | hd
    · exact ⟨_, h.1⟩
    · exact ih h.2 d hd

theorem Justified.valid_of_openFrom {t : Tree S T} (h : t.Justified Valid) {here : Path}
    (hopen : openFrom [] here t = []) : Valid t.state := by
  induction h generalizing here with
  | @node s t cs children follows ih =>
    cases t with
    | none => simp [openFrom] at hopen
    | some tactic =>
      have hlist : openFromList [] here 0 cs = [] := by simpa [openFrom] using hopen
      apply follows (Option.some_ne_none _)
      intro c hc
      obtain ⟨q, hq⟩ := openFrom_eq_nil_of_openFromList hlist c hc
      exact ih c hc hq

theorem Justified.valid_of_openGoals_eq_nil {t : Tree S T} (h : t.Justified Valid)
    (hopen : t.openGoals = []) : Valid t.state := h.valid_of_openFrom hopen

end Tree
end Proof
end Majorant
