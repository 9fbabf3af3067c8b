/-!
# Proof trees

A node of a proof tree holds a state, the tactic that was used on it, if any, and the nodes for the
states the tactic left.
-/

namespace Majorant
namespace Proof

inductive Tree (S T : Type) where
  | node (state : S) (tactic : Option T) (children : List (Tree S T))
deriving Repr

abbrev Path := List Nat

namespace Tree

variable {S T : Type}

def state : Tree S T → S
  | node s _ _ => s

def tactic : Tree S T → Option T
  | node _ t _ => t

def children : Tree S T → List (Tree S T)
  | node _ _ cs => cs

def leaf (s : S) : Tree S T := node s none []

def get? : Tree S T → Path → Option (Tree S T)
  | t, [] => some t
  | node _ _ cs, i :: p =>
    match cs[i]? with
    | some c => c.get? p
    | none => none

def modify (f : Tree S T → Tree S T) : Path → Tree S T → Tree S T
  | [], t => f t
  | i :: p, node s t cs => node s t (cs.modify i (modify f p))

/-- The node after a tactic has left some states: they become new children. -/
def extend (tactic : T) (states : List S) : Tree S T → Tree S T
  | node s _ cs => node s (some tactic) (cs ++ states.map leaf)

def addLeaf (s : S) : Tree S T → Tree S T
  | node s' t cs => node s' t (cs ++ [leaf s])

def clear : Tree S T → Tree S T
  | node s _ _ => leaf s

mutual

/-- The paths of the open goals of a subtree that stands at `here`, those below excluded nodes left
out. -/
def openFrom (excluded : List Path) (here : Path) : Tree S T → List Path
  | node _ t cs =>
    if excluded.contains here then []
    else match t with
      | none => [here]
      | some _ => openFromList excluded here 0 cs

/-- The open goals of the children of the node at `here`, the first of which has index `i`. -/
def openFromList (excluded : List Path) (here : Path) (i : Nat) : List (Tree S T) → List Path
  | [] => []
  | c :: cs => openFrom excluded (here ++ [i]) c ++ openFromList excluded here (i + 1) cs

end

/-- **The open goals** of a tree, from left to right. -/
def openGoals (t : Tree S T) : List Path := openFrom [] [] t

def openCount (t : Tree S T) : Nat := t.openGoals.length

/-- What a search for a target reports of a subtree: whether the target is there, an open goal before
it and an open goal after it. -/
structure Neighbours where
  found : Bool
  before : Option Path
  after : Option Path
deriving DecidableEq, Repr

def Neighbours.next (sofar child : Neighbours) : Neighbours :=
  if child.found then ⟨true, child.before <|> sofar.before, child.after⟩
  else if sofar.found then { sofar with after := sofar.after <|> child.after }
  else { sofar with before := child.before }

mutual

/-- Search a subtree at `here` for a target. -/
def neighboursFrom (target here : Path) : Tree S T → Neighbours
  | node _ t cs =>
    if here = target then ⟨true, none, firstAfter target here 0 cs⟩
    else match t with
      | none => ⟨false, some here, some here⟩
      | some _ => neighboursList target here 0 ⟨false, none, none⟩ cs

def neighboursList (target here : Path) (i : Nat) (sofar : Neighbours) :
    List (Tree S T) → Neighbours
  | [] => sofar
  | c :: cs =>
    neighboursList target here (i + 1) (sofar.next (neighboursFrom target (here ++ [i]) c)) cs

def firstAfter (target here : Path) (i : Nat) : List (Tree S T) → Option Path
  | [] => none
  | c :: cs =>
    (neighboursFrom target (here ++ [i]) c).after <|> firstAfter target here (i + 1) cs

end

/-- **The open goals around a node**: the last one before it, and the first one after it. -/
def neighbours (t : Tree S T) (target : Path) : Neighbours := neighboursFrom target [] t

/-- What a count for a target reports of a subtree. -/
structure Position where
  found : Bool
  before : Nat
  after : Nat
deriving DecidableEq, Repr

def Position.next (sofar child : Position) : Position :=
  if child.found then ⟨true, sofar.before + child.before, sofar.after + child.after⟩
  else if sofar.found then { sofar with after := sofar.after + child.after }
  else { sofar with before := sofar.before + child.before }

mutual

/-- Count the open goals of a subtree at `here` before and after a target.  The goals below the target
itself count as before it. -/
def positionFrom (target here : Path) : Tree S T → Position
  | node _ t cs =>
    if here = target then
      ⟨true, (positionList target here 0 ⟨false, 0, 0⟩ cs).before, 0⟩
    else match t with
      | none => ⟨false, 1, 1⟩
      | some _ => positionList target here 0 ⟨false, 0, 0⟩ cs

def positionList (target here : Path) (i : Nat) (sofar : Position) : List (Tree S T) → Position
  | [] => sofar
  | c :: cs =>
    positionList target here (i + 1) (sofar.next (positionFrom target (here ++ [i]) c)) cs

end

/-- **How many open goals stand before and after a node.** -/
def position (t : Tree S T) (target : Path) : Position := positionFrom target [] t

/-- The label of a node, starred if it is the current one. -/
def label (name : T → String) (current : Bool) (t : Option T) : String :=
  let s := match t with
    | some t => name t
    | none => "sorry"
  if current then "**" ++ s ++ "**" else s

mutual

/-- The lines of a subtree at `here`: the first one starts with `indent`, the following ones with
`next`. -/
def linesFrom (name : T → String) (current : Option Path) (here : Path) (indent next : String) :
    Tree S T → List String
  | node _ t cs =>
    let first := indent ++ label name (current == some here) t
    match t with
    | none => [first]
    | some _ => first :: linesList name current here next 0 cs

/-- The lines of the children of the node at `here`; all but the last one are bulleted. -/
def linesList (name : T → String) (current : Option Path) (here : Path) (next : String) (i : Nat) :
    List (Tree S T) → List String
  | [] => []
  | [c] => linesFrom name current (here ++ [i]) next next c
  | c :: cs =>
    linesFrom name current (here ++ [i]) (next ++ ". ") (next ++ "  ") c ++
      linesList name current here next (i + 1) cs

end

/-- **The tree as a structured proof**, the current node starred. -/
def lines (name : T → String) (current : Option Path) (t : Tree S T) : List String :=
  linesFrom name current [] "  " "  " t

def text (name : T → String) (current : Option Path) (t : Tree S T) : String :=
  "\n".intercalate (t.lines name current)

end Tree
end Proof
end Majorant
