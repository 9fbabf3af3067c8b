import Majorant.Proofs.Session.Script

/-!
# Reading a structured proof

The lines of a structured proof determine the proof tree up to its states. All children but the
last are bulleted and indented, so the lines below a node go on while they have its indentation.
-/

namespace Majorant
namespace Proof
namespace Tree

variable {S T R U : Type}

mutual

def map (f : S → R) (g : T → U) : Tree S T → Tree R U
  | node s x cs => node (f s) (x.map g) (mapList f g cs)

def mapList (f : S → R) (g : T → U) : List (Tree S T) → List (Tree R U)
  | [] => []
  | c :: cs => c.map f g :: mapList f g cs

end

mutual

def nodeCount : Tree S T → Nat
  | node _ _ cs => nodeCountList cs + 1

def nodeCountList : List (Tree S T) → Nat
  | [] => 0
  | c :: cs => c.nodeCount + nodeCountList cs

end

/-- A label that is not taken for an indentation, a bullet or a gap. -/
structure Legible (label : String) : Prop where
  first : ∃ c cs, label.toList = c :: cs ∧ c ≠ ' ' ∧ c ≠ '.'
  ne_gap : label ≠ "sorry"

def Labelled (name : T → String) : Tree S T → Prop := Each fun _ x _ => ∀ y ∈ x, Legible (name y)

/-- The lines that follow do not start with a line of the given indentation. -/
def Ends (next : String) (rest : List String) : Prop :=
  ∀ line ∈ rest.head?, ∀ cs, line.toList ≠ next.toList ++ cs

variable {name : T → String} {r r' : List String}

theorem first_label {x : Option T} (h : ∀ y ∈ x, Legible (name y)) :
    ∃ c cs, (label name false x).toList = c :: cs ∧ c ≠ ' ' ∧ c ≠ '.' := by
  cases x with
  | none => exact ⟨'s', ['o', 'r', 'r', 'y'], by simp [label], by decide, by decide⟩
  | some y => exact (h y rfl).first

theorem label_inj {x y : Option T} (hx : ∀ z ∈ x, Legible (name z)) (hy : ∀ z ∈ y, Legible (name z))
    (h : label name false x = label name false y) : x.map name = y.map name := by
  cases x with
  | none =>
    cases y with
    | none => rfl
    | some y => exact absurd h.symm (hy y rfl).ne_gap
  | some x =>
    cases y with
    | none => exact absurd h (hx x rfl).ne_gap
    | some y => exact congrArg some h

theorem linesFrom_eq (here : Path) (indent next : String) {t : Tree S T} (ht : t.Proper) :
    linesFrom name none here indent next t =
      (indent ++ label name false t.tactic) :: linesList name none here next 0 t.children := by
  obtain ⟨children, childless⟩ := ht
  rename_i s x cs
  cases x with
  | none =>
    rw [childless rfl]
    rfl
  | some x => rfl

theorem linesList_cons (here : Path) (next : String) (i : Nat) (c d : Tree S T)
    (cs : List (Tree S T)) :
    linesList name none here next i (c :: d :: cs) =
      linesFrom name none (here ++ [i]) (next ++ ". ") (next ++ "  ") c ++
        linesList name none here next (i + 1) (d :: cs) := by
  rw [linesList]
  exact List.cons_ne_nil d cs

/-- The first line of some children: it has a bullet exactly if there are several of them. -/
theorem head_linesList (here : Path) (next : String) (i : Nat) {c : Tree S T}
    (cs : List (Tree S T)) (hproper : c.Proper) (hlabel : c.Labelled name) :
    ∃ line rest, linesList name none here next i (c :: cs) = line :: rest ∧
      ∃ k ks, line.toList = next.toList ++ k :: ks ∧ k ≠ ' ' ∧ (k = '.' ↔ cs ≠ []) := by
  cases cs with
  | nil =>
    obtain ⟨k, ks, hfirst, hspace, hdot⟩ := first_label hlabel.here
    refine ⟨_, _, linesFrom_eq (here ++ [i]) next next hproper, k, ks, ?_, hspace, by simp [hdot]⟩
    rw [String.toList_append, hfirst]
  | cons d cs =>
    rw [linesList_cons, linesFrom_eq _ _ _ hproper]
    exact ⟨_, _, rfl, '.', ' ' :: (label name false c.tactic).toList, by simp, by decide, by simp⟩

theorem ends_linesList (here : Path) (next : String) (i : Nat) {c : Tree S T} {cs : List (Tree S T)}
    (hproper : c.Proper) (hlabel : c.Labelled name) (r : List String) :
    Ends (next ++ "  ") (linesList name none here next i (c :: cs) ++ r) := by
  obtain ⟨line, rest, heq, k, ks, hline, hspace, -⟩ := head_linesList here next i cs hproper hlabel
  intro l hl ls hls
  rw [heq, List.cons_append, List.head?_cons, Option.mem_some_iff] at hl
  rw [← hl, hline, String.toList_append, List.append_assoc, List.append_cancel_left_eq] at hls
  exact hspace (List.cons.inj hls).1

theorem not_ends_linesList (here : Path) {next : String} (i : Nat) {c : Tree S T}
    {cs : List (Tree S T)} (hproper : c.Proper) (hlabel : c.Labelled name) (hr : Ends next r)
    (h : linesList name none here next i (c :: cs) ++ r' = r) : False := by
  obtain ⟨line, rest, heq, k, ks, hline, -⟩ := head_linesList here next i cs hproper hlabel
  refine hr line ?_ (k :: ks) hline
  rw [← h, heq]
  rfl

theorem several_iff (here : Path) {next : String} (i : Nat) {c d : Tree S T} {cs ds : List (Tree S T)}
    (hc : c.Proper) (hd : d.Proper) (hlc : c.Labelled name) (hld : d.Labelled name)
    (h : linesList name none here next i (c :: cs) ++ r =
      linesList name none here next i (d :: ds) ++ r') : cs ≠ [] ↔ ds ≠ [] := by
  obtain ⟨line, rest, heq, k, ks, hline, -, hk⟩ := head_linesList here next i cs hc hlc
  obtain ⟨line', rest', heq', k', ks', hline', -, hk'⟩ := head_linesList here next i ds hd hld
  rw [heq, heq', List.cons_append, List.cons_append, List.cons.injEq] at h
  rw [← h.1, hline, List.append_cancel_left_eq, List.cons.injEq] at hline'
  rw [← hk, ← hk', hline'.1]

mutual

/-- **The lines of a subtree can be told from those that follow**, and determine it. -/
theorem linesFrom_append_inj (here : Path) {indent next : String} {t u : Tree S T} (ht : t.Proper)
    (hu : u.Proper) (hlt : t.Labelled name) (hlu : u.Labelled name) {r r' : List String}
    (hr : Ends next r) (hr' : Ends next r')
    (h : linesFrom name none here indent next t ++ r = linesFrom name none here indent next u ++ r') :
    t.map (fun _ => ()) name = u.map (fun _ => ()) name ∧ r = r' := by
  rw [linesFrom_eq _ _ _ ht, linesFrom_eq _ _ _ hu, List.cons_append, List.cons_append,
    List.cons.injEq] at h
  obtain ⟨hline, hrest⟩ := h
  have hlabel : label name false t.tactic = label name false u.tactic := by
    simpa [← String.toList_inj] using hline
  obtain ⟨s, x, cs⟩ := t
  obtain ⟨s', y, ds⟩ := u
  obtain ⟨hx, hlcs⟩ := hlt
  obtain ⟨hy, hlds⟩ := hlu
  obtain ⟨hcs, -⟩ := ht
  obtain ⟨hds, -⟩ := hu
  obtain ⟨hchildren, heq⟩ := linesList_append_inj here 0 hcs hds hlcs hlds hr hr' hrest
  rw [map, map, label_inj hx hy hlabel, hchildren]
  exact ⟨rfl, heq⟩

theorem linesList_append_inj (here : Path) (i : Nat) {next : String} {cs ds : List (Tree S T)}
    (hcs : ∀ c ∈ cs, c.Proper) (hds : ∀ d ∈ ds, d.Proper) (hlcs : ∀ c ∈ cs, c.Labelled name)
    (hlds : ∀ d ∈ ds, d.Labelled name) {r r' : List String} (hr : Ends next r) (hr' : Ends next r')
    (h : linesList name none here next i cs ++ r = linesList name none here next i ds ++ r') :
    mapList (fun _ => ()) name cs = mapList (fun _ => ()) name ds ∧ r = r' := by
  cases cs with
  | nil =>
    cases ds with
    | nil => exact ⟨rfl, h⟩
    | cons d ds =>
      exact (not_ends_linesList here i (hds d (.head _)) (hlds d (.head _)) hr h.symm).elim
  | cons c cs =>
    have hc := hcs c (.head _)
    have hlc := hlcs c (.head _)
    cases ds with
    | nil => exact (not_ends_linesList here i hc hlc hr' h).elim
    | cons d ds =>
      have hd := hds d (.head _)
      have hld := hlds d (.head _)
      have hseveral := several_iff here i hc hd hlc hld h
      rw [mapList, mapList]
      cases cs with
      | nil =>
        obtain rfl : ds = [] := by simpa using hseveral
        obtain ⟨heq, hrest⟩ := linesFrom_append_inj (here ++ [i]) hc hd hlc hld hr hr' h
        rw [heq]
        exact ⟨rfl, hrest⟩
      | cons c' cs =>
        obtain ⟨d', ds', rfl⟩ := List.exists_cons_of_ne_nil (hseveral.1 (List.cons_ne_nil c' cs))
        rw [linesList_cons, linesList_cons, List.append_assoc, List.append_assoc] at h
        -- the line after a bulleted child is that of its next sibling, which is indented less
        obtain ⟨heq, hrest⟩ := linesFrom_append_inj (here ++ [i]) hc hd hlc hld
          (ends_linesList here next (i + 1) (hcs c' (.tail _ (.head _))) (hlcs c' (.tail _ (.head _))) r)
          (ends_linesList here next (i + 1) (hds d' (.tail _ (.head _))) (hlds d' (.tail _ (.head _))) r') h
        obtain ⟨hmap, hends⟩ := linesList_append_inj here (i + 1) (fun e he => hcs e (.tail _ he))
          (fun e he => hds e (.tail _ he)) (fun e he => hlcs e (.tail _ he))
          (fun e he => hlds e (.tail _ he)) hr hr' hrest
        rw [heq, hmap]
        exact ⟨rfl, hends⟩

end

mutual

theorem length_script {t : Tree S T} (ht : t.Proper) : t.script.length = t.nodeCount := by
  obtain ⟨s, x, cs⟩ := t
  obtain ⟨children, childless⟩ := ht
  cases x with
  | none =>
    rw [childless rfl]
    rfl
  | some x => rw [script, nodeCount, List.length_cons, length_scriptList children]

theorem length_scriptList {cs : List (Tree S T)} (hcs : ∀ c ∈ cs, c.Proper) :
    (scriptList cs).length = nodeCountList cs := by
  cases cs with
  | nil => rfl
  | cons c cs =>
    rw [scriptList, nodeCountList, List.length_append, length_script (hcs c (.head _)),
      length_scriptList fun d hd => hcs d (.tail _ hd)]

end

/-- **A structured proof determines the tree** up to its states, and has a line for every node. -/
theorem lines_unique (name : T → String) {t u : Tree S T} (ht : t.Proper) (hu : u.Proper)
    (hlt : t.Labelled name) (hlu : u.Labelled name) :
    (t.lines name none = u.lines name none → t.map (fun _ => ()) name = u.map (fun _ => ()) name) ∧
      (t.lines name none).length = t.nodeCount := by
  refine ⟨fun h => ?_, (forall₂_lines_script name none t).length_eq.trans (length_script ht)⟩
  have hnil : Ends "  " [] := fun line hline => by cases hline
  have happend : t.lines name none ++ [] = u.lines name none ++ [] := by rw [h]
  exact (linesFrom_append_inj [] ht hu hlt hlu hnil hnil happend).1

/-- Two trees whose states differ, with a branch inside a branch. -/
theorem lines_unique_branches :
    let t : Nat → Tree Nat String := fun n =>
      .node n (some "cases") [.node 1 (some "split") [.leaf 2, .node 3 (some "simp") []], .leaf n]
    ((t 0).Proper ∧ (t 0).Labelled id) ∧ ((t 4).Proper ∧ (t 4).Labelled id) ∧
      (t 0).lines id none = ["  cases", "  . split", "    . sorry", "    simp", "  sorry"] ∧
      (t 0).lines id none = (t 4).lines id none ∧
      (t 0).map (fun _ => ()) id = (t 4).map (fun _ => ()) id ∧ (t 0).nodeCount = 5 := by
  intro t
  have hproper : ∀ n, (t n).Proper := by
    intro n
    refine .node (List.forall_mem_cons.2 ⟨?_, List.forall_mem_singleton.2 (proper_leaf n)⟩) (by simp)
    refine .node (List.forall_mem_cons.2 ⟨proper_leaf 2, List.forall_mem_singleton.2 ?_⟩) (by simp)
    exact .node (List.forall_mem_nil _) (by simp)
  have hopen : ∀ n : Nat, (leaf n : Tree Nat String).Labelled id := fun n =>
    .node (by simp) (List.forall_mem_nil _)
  have hlabels : ∀ n, (t n).Labelled id := by
    intro n
    refine .node ?_ (List.forall_mem_cons.2 ⟨.node ?_ (List.forall_mem_cons.2 ⟨hopen 2,
      List.forall_mem_singleton.2 (.node ?_ (List.forall_mem_nil _))⟩),
      List.forall_mem_singleton.2 (hopen n)⟩) <;>
    · rintro _ ⟨⟩
      exact ⟨⟨_, _, by rfl, by decide, by decide⟩, by decide⟩
  have hlines : (t 0).lines id none = (t 4).lines id none := by rfl
  obtain ⟨hunique, hcount⟩ := lines_unique id (hproper 0) (hproper 4) (hlabels 0) (hlabels 4)
  exact ⟨⟨hproper 0, hlabels 0⟩, ⟨hproper 4, hlabels 4⟩, by decide, hlines, hunique hlines, hcount.symm⟩

end Tree
end Proof
end Majorant
