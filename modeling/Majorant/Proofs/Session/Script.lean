import Majorant.Proofs.Session.Reachable
import Mathlib.Data.List.Nodup

/-!
# The script of a proof tree

The tactics of a proof tree, each before those of its children and with a gap at every open goal,
are its script.
-/

namespace Majorant
open Proof

namespace Proof.Tree

variable {S T : Type} {P : S → Option T → List S → Prop}

/-- A condition on the state, the tactic and the states of the children holds at every node. -/
inductive Each (P : S → Option T → List S → Prop) : Tree S T → Prop
  | node {s : S} {x : Option T} {cs : List (Tree S T)} (here : P s x (cs.map state))
      (children : ∀ c ∈ cs, Each P c) : Each P (.node s x cs)

theorem Each.here {t : Tree S T} (h : t.Each P) : P t.state t.tactic (t.children.map state) := by
  cases h with
  | node here children => exact here

theorem Each.get? {t n : Tree S T} {p : Path} (h : t.Each P) (hn : t.get? p = some n) : n.Each P := by
  induction p generalizing t with
  | nil =>
    cases hn
    exact h
  | cons i p ih =>
    obtain ⟨here, children⟩ := h
    rename_i s x cs
    cases hc : cs[i]? with
    | none =>
      rw [Tree.get?, hc] at hn
      cases hn
    | some c =>
      rw [get?_cons hc] at hn
      exact ih (children c (List.mem_of_getElem? hc)) hn

theorem each_of_get? : ∀ {t : Tree S T},
    (∀ p n, t.get? p = some n → P n.state n.tactic (n.children.map state)) → t.Each P
  | .node s x cs, h => by
    refine .node (h [] _ rfl) ?_
    intro c hc
    obtain ⟨i, hi⟩ := List.mem_iff_getElem?.1 hc
    exact each_of_get? fun p n hn => h (i :: p) n (by rw [get?_cons hi, hn])

theorem map_state_modify {g : Tree S T → Tree S T} (hg : ∀ n, (g n).state = n.state) (i : Nat)
    (cs : List (Tree S T)) : (cs.modify i g).map state = cs.map state := by
  induction cs generalizing i with
  | nil => cases i <;> rfl
  | cons c cs ih =>
    cases i with
    | zero => simp [hg]
    | succ i => simp [ih]

/-- **A change of one node** that keeps its state keeps a condition everywhere if it does so there. -/
theorem Each.modify {f : Tree S T → Tree S T} (hstate : ∀ n, (f n).state = n.state) (p : Path)
    {t : Tree S T} (h : t.Each P) (hf : ∀ n, t.get? p = some n → n.Each P → (f n).Each P) :
    (modify f p t).Each P := by
  induction p generalizing t with
  | nil => exact hf t rfl h
  | cons i p ih =>
    obtain ⟨here, children⟩ := h
    refine .node (by rwa [map_state_modify (state_modify hstate p)]) ?_
    intro c hc
    obtain ⟨k, hk⟩ := List.mem_iff_getElem?.1 hc
    rw [List.getElem?_modify] at hk
    obtain ⟨d, hd, rfl⟩ := Option.map_eq_some_iff.1 hk
    have hold := children d (List.mem_of_getElem? hd)
    by_cases hik : i = k
    · subst hik
      rw [if_pos rfl]
      exact ih hold fun n hn => hf n (by rw [get?_cons hd, hn])
    · rwa [if_neg hik]

theorem modify_modify (f g : Tree S T → Tree S T) (p : Path) (t : Tree S T) :
    modify f p (modify g p t) = modify (fun n => f (g n)) p t := by
  induction p generalizing t with
  | nil => rfl
  | cons i p ih =>
    obtain ⟨s, x, cs⟩ := t
    simp only [modify]
    congr 1
    apply List.ext_getElem?
    intro k
    simp only [List.getElem?_modify]
    cases cs[k]? with
    | none => rfl
    | some c =>
      by_cases hik : i = k
      · simp [hik, ih]
      · simp [hik]

theorem modify_append (f : Tree S T → Tree S T) (p q : Path) (t : Tree S T) :
    modify f (p ++ q) t = modify (modify f q) p t := by
  induction p generalizing t with
  | nil => rfl
  | cons i p ih =>
    obtain ⟨s, x, cs⟩ := t
    simp only [List.cons_append, modify]
    congr 2
    funext c
    exact ih c

theorem modify_congr {f g : Tree S T → Tree S T} {p : Path} {t n : Tree S T}
    (hn : t.get? p = some n) (h : f n = g n) : modify f p t = modify g p t := by
  induction p generalizing t with
  | nil =>
    cases hn
    exact h
  | cons i p ih =>
    obtain ⟨s, x, cs⟩ := t
    simp only [modify]
    congr 1
    apply List.ext_getElem?
    intro k
    simp only [List.getElem?_modify]
    cases hk : cs[k]? with
    | none => rfl
    | some c =>
      by_cases hik : i = k
      · subst hik
        rw [get?_cons hk] at hn
        simp [ih hn]
      · simp [hik]

theorem modify_const {p : Path} {t n : Tree S T} (hn : t.get? p = some n) :
    modify (fun _ => n) p t = t := by
  induction p generalizing t with
  | nil =>
    cases hn
    rfl
  | cons i p ih =>
    obtain ⟨s, x, cs⟩ := t
    rw [modify]
    congr 1
    apply List.ext_getElem?
    intro k
    rw [List.getElem?_modify]
    cases hk : cs[k]? with
    | none => rfl
    | some c =>
      by_cases hik : i = k
      · subst hik
        rw [get?_cons hk] at hn
        simp [ih hn]
      · simp [hik]

theorem get?_append {t n : Tree S T} {p : Path} (hn : t.get? p = some n) (q : Path) :
    t.get? (p ++ q) = n.get? q := by
  induction p generalizing t with
  | nil =>
    cases hn
    rfl
  | cons i p ih =>
    obtain ⟨s, x, cs⟩ := t
    cases hc : cs[i]? with
    | none =>
      rw [Tree.get?, hc] at hn
      cases hn
    | some c =>
      rw [get?_cons hc] at hn
      rw [List.cons_append, get?_cons hc, ih hn]

theorem Goal.modify_of_ne {f : Tree S T → Tree S T} {p q : Path} {t : Tree S T} (hq : t.Goal q)
    (hp : t.Goal p) (hne : q ≠ p) : (modify f p t).Goal q := by
  induction hp generalizing q with
  | here =>
    cases hq
    exact absurd rfl hne
  | @inner s x cs i c p hc hp ih =>
    cases hq with
    | @inner _ _ _ j d q hd hq =>
      by_cases hij : i = j
      · subst hij
        cases hc.symm.trans hd
        refine .inner (c := modify f p c) ?_ (ih hq fun h => hne (by rw [h]))
        simp [hc]
      · refine .inner ?_ hq
        simp [hij, hd]

theorem Goal.not_below {p : Path} {i : Nat} {t : Tree S T} (h : t.Goal p) : ¬ t.Goal (p ++ [i]) := by
  induction h with
  | here => exact nofun
  | @inner s x cs k c p hc _ ih =>
    intro hbelow
    rw [List.cons_append] at hbelow
    cases hbelow with
    | inner hd hgoal =>
      cases hc.symm.trans hd
      exact ih hgoal

theorem Goal.get? {p : Path} {t : Tree S T} (h : t.Goal p) : ∃ n, t.get? p = some n := by
  induction h with
  | here => exact ⟨_, rfl⟩
  | inner hc _ ih =>
    obtain ⟨n, hn⟩ := ih
    exact ⟨n, by rw [get?_cons hc, hn]⟩

theorem Goal.modify_append {f : Tree S T → Tree S T} {p q : Path} {t n : Tree S T} (hp : t.Goal p)
    (hn : t.get? p = some n) (hq : (f n).Goal q) : (modify f p t).Goal (p ++ q) := by
  induction hp with
  | here =>
    cases hn
    exact hq
  | @inner s x cs i c p hc _ ih =>
    rw [get?_cons hc] at hn
    refine .inner (c := modify f p c) ?_ (ih hn)
    simp [hc]

mutual

theorem nodup_openFrom (here : Path) (t : Tree S T) : (openFrom [] here t).Nodup := by
  obtain ⟨s, x, cs⟩ := t
  cases x with
  | none => simp [openFrom]
  | some x => simpa [openFrom] using nodup_openFromList here 0 cs

theorem nodup_openFromList (here : Path) (i : Nat) (cs : List (Tree S T)) :
    (openFromList [] here i cs).Nodup := by
  cases cs with
  | nil => exact List.nodup_nil
  | cons c cs =>
    rw [openFromList, List.nodup_append]
    refine ⟨nodup_openFrom (here ++ [i]) c, nodup_openFromList here (i + 1) cs, ?_⟩
    -- The goals below the first child have its index in their path, the others a larger one.
    intro q hfirst _ hrest rfl
    obtain ⟨g, rfl, -⟩ := mem_openFrom.1 hfirst
    obtain ⟨k, d, g', heq, -, -⟩ := mem_openFromList.1 hrest
    have hindex : i :: g = (i + 1 + k) :: g' := by simpa using heq
    have := (List.cons.inj hindex).1
    omega

end

theorem nodup_openGoals (t : Tree S T) : t.openGoals.Nodup := nodup_openFrom [] t

mutual

/-- **The script of a tree**: its tactics, each before those of its children, and a gap at every open
goal. -/
def script : Tree S T → List (Option T)
  | node _ none _ => [none]
  | node _ (some x) cs => some x :: scriptList cs

def scriptList : List (Tree S T) → List (Option T)
  | [] => []
  | c :: cs => c.script ++ scriptList cs

end

/-- A line of a structured proof shows an entry of a script, indented, and starred if it is the current
one. -/
def Shows (name : T → String) (line : String) (entry : Option T) : Prop :=
  ∃ indent current, line = indent ++ label name current entry

mutual

theorem forall₂_linesFrom (name : T → String) (current : Option Path) (here : Path)
    (indent next : String) (t : Tree S T) :
    List.Forall₂ (Shows name) (linesFrom name current here indent next t) t.script := by
  obtain ⟨s, x, cs⟩ := t
  cases x with
  | none => exact .cons ⟨indent, _, rfl⟩ .nil
  | some x => exact .cons ⟨indent, _, rfl⟩ (forall₂_linesList name current here next 0 cs)

theorem forall₂_linesList (name : T → String) (current : Option Path) (here : Path) (next : String)
    (i : Nat) (cs : List (Tree S T)) :
    List.Forall₂ (Shows name) (linesList name current here next i cs) (scriptList cs) := by
  match cs with
  | [] => exact .nil
  | [c] => simpa [linesList, scriptList] using forall₂_linesFrom name current (here ++ [i]) next next c
  | c :: d :: cs =>
    rw [linesList, scriptList]
    exact List.rel_append (forall₂_linesFrom name current (here ++ [i]) _ _ c)
      (forall₂_linesList name current here next (i + 1) (d :: cs))
    exact nofun

end

/-- **The lines of a tree are the entries of its script**, in order. -/
theorem forall₂_lines_script (name : T → String) (current : Option Path) (t : Tree S T) :
    List.Forall₂ (Shows name) (t.lines name current) t.script :=
  forall₂_linesFrom name current [] _ _ t

end Proof.Tree

namespace ProofTree
open Proof.Tree

def isIdle (s : State) : List State → Bool
  | [s'] => s'.same s
  | _ => false

/-- **What an application leaves**, where the tactic does not fail. -/
theorem apply_result {t n : ProofTree} {p : Path} {tactic : Tactic} {states : List State}
    (hn : t.get? p = some n) (hrun : (tactic.run n.state).result = .ok states) :
    (t.apply p tactic).result = .ok (if isIdle n.state states then none
      else some (Tree.modify (Tree.extend tactic states) p t)) := by
  unfold ProofTree.apply
  rw [hn]
  dsimp only
  rw [Outcome.result_bind_of_ok hrun, Outcome.result_pure]
  rcases states with _ | ⟨s, _ | _⟩ <;> rfl

theorem isIdle_of_apply {t t' n : ProofTree} {p : Path} {tactic : Tactic} {states : List State}
    (h : (t.apply p tactic).result = .ok (some t')) (hn : t.get? p = some n)
    (hrun : (tactic.run n.state).result = .ok states) : isIdle n.state states = false := by
  rw [apply_result hn hrun] at h
  split at h
  · cases h
  · next hidle => simpa using hidle

def childPaths (t : ProofTree) (p : Path) : List Path :=
  match t.get? p with
  | some n => (List.range' 0 n.children.length).map fun i => p ++ [i]
  | none => []

/-- **Run a script**: every tactic is used on the first of the goals to be dealt with, whose place is taken
by the goals that it leaves, and a gap leaves the first goal open. -/
def replay : List (Option Tactic) → List Path → ProofTree → Outcome ProofTree
  | none :: script, _ :: goals, t => replay script goals t
  | some tactic :: script, p :: goals, t => do
    match ← t.apply p tactic with
    | some t' => replay script (t'.childPaths p ++ goals) t'
    | none => replay script (p :: goals) t
  | _, _, t => pure t

/-- **Every recorded tactic leaves the states of the children**, in order. -/
def Replays (t : ProofTree) : Prop :=
  ∀ p n tactic, t.get? p = some n → n.tactic = some tactic →
    (tactic.run n.state).result = .ok (n.children.map state)

/-- What a node must be so that a script can build it. -/
def Built (s : State) (x : Option Tactic) (children : List State) : Prop :=
  match x with
  | none => children = []
  | some tactic => (tactic.run s).result = .ok children ∧ isIdle s children = false

theorem Built.replays {t : ProofTree} (h : t.Each Built) : t.Replays := by
  intro p n tactic hn htactic
  have hnode := (h.get? hn).here
  rw [htactic] at hnode
  exact hnode.1

theorem each_built_apply {t t' n : ProofTree} {p : Path} {tactic : Tactic} (h : t.Each Built)
    (hn : t.get? p = some n) (hchildren : n.children = [])
    (happly : (t.apply p tactic).result = .ok (some t')) : t'.Each Built := by
  obtain ⟨m, states, hm, hrun, rfl⟩ := Session.apply_eq_some happly
  cases hn.symm.trans hm
  refine h.modify (state_extend tactic states) p ?_
  intro m hm _
  cases hn.symm.trans hm
  obtain ⟨s, x, cs⟩ := n
  obtain rfl : cs = [] := hchildren
  have hstates : (states.map (Tree.leaf (T := Tactic))).map state = states := by
    simp [Function.comp_def, Tree.leaf, state]
  refine .node ?_ ?_
  · rw [List.nil_append, hstates]
    exact ⟨hrun, isIdle_of_apply happly hn hrun⟩
  · intro c hc
    obtain ⟨s', -, rfl⟩ := List.mem_map.1 hc
    exact .node rfl (List.forall_mem_nil _)

theorem children_of_goal {t n : ProofTree} {p : Path} (h : t.Each Built) (hp : t.Goal p)
    (hn : t.get? p = some n) : n.children = [] := by
  have hnode := (h.get? hn).here
  rw [hp.tactic_eq_none hn] at hnode
  exact List.map_eq_nil_iff.1 hnode

theorem replay_some {t n : ProofTree} {p : Path} {tactic : Tactic} {states : List State}
    (hn : t.get? p = some n) (hrun : (tactic.run n.state).result = .ok states)
    (hidle : isIdle n.state states = false) (script : List (Option Tactic)) (goals : List Path) :
    (replay (some tactic :: script) (p :: goals) t).result =
      (replay script (childPaths (Tree.modify (Tree.extend tactic states) p t) p ++ goals)
        (Tree.modify (Tree.extend tactic states) p t)).result := by
  have happly := apply_result hn hrun
  rw [hidle] at happly
  rw [replay, Outcome.result_bind_of_ok happly]
  rfl

mutual

theorem replay_subtree {c t : ProofTree} (hc : c.Each Built) {p : Path}
    (hp : t.get? p = some (Tree.leaf c.state)) (script : List (Option Tactic)) (goals : List Path) :
    (replay (c.script ++ script) (p :: goals) t).result =
      (replay script goals (Tree.modify (fun _ => c) p t)).result := by
  obtain ⟨s, x, cs⟩ := c
  obtain ⟨here, children⟩ := hc
  cases x with
  | none =>
    have hnil : cs = [] := List.map_eq_nil_iff.1 here
    subst hnil
    have hleaf : t.get? p = some (.node s none []) := hp
    rw [Tree.script, List.singleton_append, replay, modify_const hleaf]
  | some tactic =>
    obtain ⟨hrun, hidle⟩ := here
    have hnode := get?_modify (f := Tree.extend tactic (cs.map state)) hp
    have hpaths : childPaths (Tree.modify (Tree.extend tactic (cs.map state)) p t) p =
        (List.range' 0 cs.length).map fun i => p ++ [i] := by
      rw [childPaths, hnode]
      simp [Tree.extend, Tree.leaf, Tree.children]
    have hrest := replay_children [] (x := some tactic) children hnode script goals
    rw [List.length_nil, List.nil_append, modify_modify] at hrest
    rw [Tree.script, List.cons_append, replay_some hp hrun hidle, hpaths, hrest]
    rfl

theorem replay_children (done : List ProofTree) {cs : List ProofTree} {t : ProofTree} {s : State}
    {x : Option Tactic} (hcs : ∀ c ∈ cs, c.Each Built) {p : Path}
    (hp : t.get? p = some (.node s x (done ++ (cs.map state).map Tree.leaf)))
    (script : List (Option Tactic)) (goals : List Path) :
    (replay (scriptList cs ++ script)
        (((List.range' done.length cs.length).map fun i => p ++ [i]) ++ goals) t).result =
      (replay script goals (Tree.modify (fun _ => .node s x (done ++ cs)) p t)).result := by
  cases cs with
  | nil =>
    rw [List.map_nil, List.map_nil] at hp
    rw [modify_const hp]
    rfl
  | cons c cs =>
    have hchild : t.get? (p ++ [done.length]) = some (Tree.leaf c.state) := by
      rw [get?_append hp]
      simp [Tree.get?]
    have hfirst := replay_subtree (hcs c (.head _)) hchild (scriptList cs ++ script)
      (((List.range' (done.length + 1) cs.length).map fun i => p ++ [i]) ++ goals)
    -- The first child is in its place; the node is as before, with one more child done.
    have hmove : Tree.modify (fun _ => c) (p ++ [done.length]) t =
        Tree.modify (fun _ => .node s x (done ++ [c] ++ (cs.map state).map Tree.leaf)) p t := by
      rw [modify_append]
      refine modify_congr hp ?_
      simp [Tree.modify, List.modify_eq_set_getElem?]
    have hnode := get?_modify
      (f := fun _ => .node s x (done ++ [c] ++ (cs.map state).map Tree.leaf)) hp
    have hrest := replay_children (done ++ [c]) (fun d hd => hcs d (.tail _ hd)) hnode script goals
    have hdone : done ++ [c] ++ cs = done ++ c :: cs := by simp
    rw [List.length_append, List.length_singleton, modify_modify, hdone] at hrest
    rw [scriptList, List.append_assoc, List.length_cons, List.range'_succ, List.map_cons,
      List.cons_append, hfirst, hmove, hrest]

end

theorem mem_childPaths {t : ProofTree} {p q : Path} (h : q ∈ t.childPaths p) :
    ∃ n i, t.get? p = some n ∧ i < n.children.length ∧ q = p ++ [i] := by
  unfold childPaths at h
  split at h
  · next n hn =>
    obtain ⟨i, hi, rfl⟩ := List.mem_map.1 h
    exact ⟨n, i, hn, by simpa using hi, rfl⟩
  · cases h

theorem nodup_childPaths (t : ProofTree) (p : Path) : (t.childPaths p).Nodup := by
  unfold childPaths
  split
  · refine List.Nodup.map ?_ (List.nodup_range' _)
    intro i j hij
    simpa using hij
  · exact List.nodup_nil

theorem goals_apply {t t' : ProofTree} {p : Path} {goals : List Path} {tactic : Tactic}
    (h : t.Each Built) (hgoals : ∀ g ∈ p :: goals, t.Goal g) (hnodup : (p :: goals).Nodup)
    (happly : (t.apply p tactic).result = .ok (some t')) :
    (∀ g ∈ t'.childPaths p ++ goals, t'.Goal g) ∧ (t'.childPaths p ++ goals).Nodup := by
  have hp := hgoals p (.head _)
  obtain ⟨n, states, hn, -, rfl⟩ := Session.apply_eq_some happly
  have hnode := Tree.get?_modify (f := Tree.extend tactic states) hn
  have hchildren := children_of_goal h hp hn
  obtain ⟨s, x, cs⟩ := n
  obtain rfl : cs = [] := hchildren
  refine ⟨?_, ?_⟩
  · intro g hg
    rcases List.mem_append.1 hg with hg | hg
    · obtain ⟨m, i, hm, hi, rfl⟩ := mem_childPaths hg
      cases hnode.symm.trans hm
      have hlt : i < states.length := by simpa [Tree.extend, Tree.children] using hi
      refine hp.modify_append hn (.inner (c := Tree.leaf states[i]) ?_ .here)
      simp [hlt]
    · exact (hgoals g (.tail _ hg)).modify_of_ne hp
        fun heq => (List.nodup_cons.1 hnodup).1 (heq ▸ hg)
  · refine List.Nodup.append (nodup_childPaths _ p) (List.nodup_cons.1 hnodup).2 ?_
    intro g hg hold
    obtain ⟨m, i, -, -, rfl⟩ := mem_childPaths hg
    exact hp.not_below (hgoals _ (.tail _ hold))

/-- **What a script leaves** is a tree that its own script builds. -/
theorem each_built_replay (script : List (Option Tactic)) {goals : List Path} {t t' : ProofTree}
    (h : t.Each Built) (hgoals : ∀ g ∈ goals, t.Goal g) (hnodup : goals.Nodup)
    (hrun : (replay script goals t).result = .ok t') : t'.Each Built := by
  induction script generalizing goals t with
  | nil =>
    rw [replay, Outcome.result_pure, Except.ok.injEq] at hrun
    · exact hrun ▸ h
    · exact nofun
    · exact nofun
  | cons x script ih =>
    cases goals with
    | nil =>
      have hstop : replay (x :: script) [] t = pure t := by cases x <;> rfl
      rw [hstop, Outcome.result_pure, Except.ok.injEq] at hrun
      exact hrun ▸ h
    | cons p goals =>
      cases x with
      | none => exact ih h (fun g hg => hgoals g (.tail _ hg)) (List.nodup_cons.1 hnodup).2 hrun
      | some tactic =>
        rw [replay] at hrun
        obtain ⟨next, happly, hrun⟩ := Outcome.result_bind_eq_ok.1 hrun
        cases next with
        | none => exact ih h hgoals hnodup hrun
        | some u =>
          have hp := hgoals p (.head _)
          obtain ⟨n, hn⟩ := hp.get?
          have hbuilt := each_built_apply h hn (children_of_goal h hp hn) happly
          obtain ⟨hgoals', hnodup'⟩ := goals_apply h hgoals hnodup happly
          exact ih hbuilt hgoals' hnodup' hrun

theorem each_built_leaf (s : State) : (Tree.leaf s : ProofTree).Each Built := .node rfl nofun

/-- **The script of a tree builds the tree again** from the state at its root, exactly if it is a tree
that a script can build. -/
theorem replay_script_iff {t : ProofTree} :
    (replay t.script [[]] (Tree.leaf t.state)).result = .ok t ↔ t.Each Built := by
  refine ⟨each_built_replay t.script (each_built_leaf _) ?_ (List.nodup_singleton _), fun h => ?_⟩
  · intro g hg
    rw [List.mem_singleton.1 hg]
    exact .here
  have hrun := replay_subtree h (p := []) rfl [] []
  rw [List.append_nil] at hrun
  exact hrun

end ProofTree
end Majorant
