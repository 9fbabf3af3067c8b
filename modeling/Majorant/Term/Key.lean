import Majorant.Term.Compare
import Majorant.Term.Facts

/-!
# Sort keys

Arguments of maxima, minima, conjunctions and disjunctions, and the summands and factors of a printed
term, are put in order by a *sort key*: the class of the term, its arguments, its exponent and its
numerical coefficient, in this order of importance.  A multiple `c * t` is filed under `t` with
coefficient `c`, and a power `b ^ e` under `b` with exponent `e`.
-/

namespace Majorant

/-- Sort keys.  Numbers have no exponent of their own. -/
inductive Key where
  | text (s : String)
  | node (rank : Nat) (sub : Nat) (label : String) (args : List Key) (exponent : List Key)
      (coeff : Rat)
deriving Repr, Inhabited

namespace Key

mutual

/-- Keys are compared by class, number of arguments, arguments, exponent and coefficient. -/
def compare : Key → Key → Ordering
  | text s, text t => Ord.compare s t
  | text _, node .. => .lt
  | node .., text _ => .gt
  | node r s l as e c, node r' s' l' as' e' c' =>
    (Ord.compare r r').then <| (Ord.compare s s').then <| (Ord.compare l l').then <|
      (Ord.compare as.length as'.length).then <| (compareList as as').then <|
        (compareList e e').then <|
          if c < c' then .lt else if c = c' then .eq else .gt

/-- Lists of keys are compared from the left; a proper beginning comes first. -/
def compareList : List Key → List Key → Ordering
  | [], [] => .eq
  | [], _ :: _ => .lt
  | _ :: _, [] => .gt
  | a :: as, b :: bs => (compare a b).then (compareList as bs)

end

def number (q : Rat) : Key := node 1 0 "Number" [] [] q

def plain (rank sub : Nat) (label : String) (args : List Key) : Key :=
  node rank sub label args [number 1] 1

def withExponent (k e : Key) : Key :=
  match k with
  | node r s l as _ c => node r s l as [e] c
  | text _ => k

def withCoeff (q : Rat) : Key → Key
  | node r s l as e _ => node r s l as e q
  | k => k

end Key

/-- One factor of a term, prepared for comparison of monomials: a generator raised to a whole power. -/
structure Piece where
  term : Term
  number : Option Rat
  closed : Bool
  commutes : Bool
  generator : Term
  generatorKey : Key
  exponent : Int
  key : Key
deriving Inhabited

/-- What ordering needs to know of a term. -/
structure Profile where
  /-- Key of the term taken as a whole, for use as the base of a power. -/
  body : Key
  key : Key
  pieces : List Piece
deriving Inhabited

namespace Profile

/-- Keys of factors, put in order, those that do not commute last. -/
def factorKeys (ps : List Piece) : List Key :=
  let commuting := ps.filter (·.commutes)
  sortBy (fun a b => (a.compare b).isLE) (commuting.map (·.key)) ++
    (ps.filter (fun p => !p.commutes)).map (·.key)

def single (t : Term) (body key : Key) (generator : Term) (generatorKey : Key) (exponent : Int) :
    Profile :=
  let number := t.asNumber?
  ⟨body, key,
    [⟨t, number, t.isNumber, t.is .commutative, generator, generatorKey, exponent, key⟩]⟩

def whole (t : Term) (k : Key) : Profile := single t k k t k 1

def product (t : Term) (parts : List Profile) : Profile :=
  let pieces := parts.flatMap (·.pieces)
  let body := Key.plain 3 0 "Mul" (factorKeys pieces)
  match pieces with
  | p :: rest =>
    match p.number, rest with
    | some c, [f] => ⟨body, f.key.withCoeff c, pieces⟩
    | some c, _ => ⟨body, (Key.plain 3 0 "Mul" (factorKeys rest)).withCoeff c, pieces⟩
    | none, _ => ⟨body, body, pieces⟩
  | [] => whole t body

def power (t b e : Term) (pb pe : Profile) : Profile :=
  let key := pb.body.withExponent pe.key
  let body := Key.plain 3 2 "Pow" [pb.key, pe.key]
  match e with
  | .num q =>
    if q.den = 1 then single t body key b pb.key q.num
    else
      let root : Rat := 1 / (q.den : Rat)
      single t body key (.app .pow [b, .num root]) (pb.body.withExponent (Key.number root)) q.num
  | .app .mul (.num c :: rest) =>
    let tail := match rest with
      | [r] => if c.den = 1 then r else .app .mul [.num (1 / (c.den : Rat)), r]
      | _ => if c.den = 1 then .app .mul rest else .app .mul (.num (1 / (c.den : Rat)) :: rest)
    single t body key (.app .pow [b, tail]) key c.num
  | _ => single t body key t key 1

/-- The monomial of a summand: its coefficient, its generators with exponents, and the keys of the
factors that do not commute. -/
def monomial (p : Profile) : Rat × List (Term × Int) × List Key :=
  (p.pieces.foldl (fun c f => match f.number with | some q => c * q | none => c) 1,
   (p.pieces.filter (fun f => f.commutes && !f.closed)).map (fun f => (f.generator, f.exponent)),
   (p.pieces.filter (fun f => !f.commutes && !f.closed)).map (·.key))

def generators (ps : List Profile) : List Term :=
  let all := ps.flatMap fun p =>
    (p.pieces.filter (fun f => f.commutes && !f.closed)).map fun f => (f.generator, f.generatorKey)
  let distinct := all.foldl (fun acc g => if acc.any (·.1 == g.1) then acc else acc ++ [g]) []
  (sortBy (fun a b => (a.2.compare b.2).isLE) distinct).map (·.1)

def exponents (gens : List Term) (m : List (Term × Int)) : List Int :=
  gens.map fun g => ((m.filter (·.1 == g)).getLast?.map (·.2)).getD 0

def compareExponents : List Int → List Int → Ordering
  | a :: as, b :: bs => (Ord.compare b a).then (compareExponents as bs)
  | _, _ => .eq

/-- A positive number and a negative multiple of one thing are written with the number first. -/
def numberFirst? {α : Type} : List (Profile × α) → Option (List (Profile × α))
  | [a, b] =>
    let isNum := fun p : Profile => match p.pieces with | [f] => f.number.isSome | _ => false
    let (n, m) := if isNum a.1 then (a, b) else (b, a)
    match n.1.pieces, m.1.pieces with
    | [f], [g, h] =>
      match f.number, g.number, h.number with
      | some c, some d, none => if c > 0 && d < 0 then some [n, m] else none
      | _, _, _ => none
    | _, _ => none
  | _ => none

/-- **Summands in printing order**: by decreasing monomial in the sorted generators.  Each summand
carries an item along. -/
def orderSummands {α : Type} (ps : List (Profile × α)) : List (Profile × α) :=
  match numberFirst? ps with
  | some ps => ps
  | none =>
    let gens := generators (ps.map (·.1))
    let keyed := ps.map fun p =>
      let (c, m, nc) := p.1.monomial
      (p, exponents gens m, nc, c)
    let le := fun ((_, e, nc, c) : _ × _ × _ × Rat) ((_, e', nc', c') : _ × _ × _ × Rat) =>
      ((compareExponents e e').then ((Key.compareList nc nc').then
        (if c < c' then .lt else if c = c' then .eq else .gt))).isLE
    (sortBy le keyed).map (·.1)

end Profile

namespace Term

/-- Rank and label under which the applications of a head are filed. -/
def headKey : Head → List Key → Key
  | .abs, ks => Key.plain 4 10000 "Abs" ks
  | h, ks => Key.plain 5 0 h.label ks

mutual

def profile : Term → Profile
  | num q => Profile.single (num q) (Key.plain 1 0 "Number" [.text (ratText q)]) (Key.number q)
      (num q) (Key.number q) 1
  | var v =>
    let k := Key.plain 2 0 (kindLabel v.kind) [.text v.name]
    Profile.whole (var v) k
  | truth b =>
    Profile.whole (truth b)
      (Key.plain 2 0 (label (truth b)) [.text (if b then "True" else "False")])
  | special s => Profile.whole (special s) (Key.plain 2 0 (label (special s)) [])
  | lit l => Profile.whole (lit l) (Key.plain 0 0 (label (lit l)) [])
  | app .mul as => Profile.product (app .mul as) (profileList as)
  | app .pow as =>
    match as, profileList as with
    | [b, e], [pb, pe] => Profile.power (app .pow as) b e pb pe
    | _, ps => Profile.whole (app .pow as) (Key.plain 3 2 "Pow" (ps.map (·.key)))
  | app .add as =>
    Profile.whole (app .add as)
      (Key.plain 3 1 "Add" ((Profile.orderSummands ((profileList as).map (·, ()))).map (·.1.key)))
  | app h as => Profile.whole (app h as) (headKey h ((profileList as).map (·.key)))

def profileList : List Term → List Profile
  | [] => []
  | a :: as => a.profile :: profileList as

end

def key (t : Term) : Key := t.profile.key

def sortByKey (ts : List Term) : List Term :=
  (sortBy (fun a b => (a.1.compare b.1).isLE) (ts.map fun t => (t.key, t))).map (·.2)

def compareOrdered (a b : Term) : Ordering :=
  (Ord.compare a.size b.size).then (a.key.compare b.key)

/-- **Arguments in order**: smaller terms first, terms of one size by sort key. -/
def ordered (ts : List Term) : List Term :=
  let le := fun (a b : (Nat × Key) × Term) =>
    ((Ord.compare a.1.1 b.1.1).then (a.1.2.compare b.1.2)).isLE
  (sortBy le (ts.map fun t => ((t.size, t.key), t))).map (·.2)

def orderedFactors (ts : List Term) : List Term :=
  sortByKey (ts.filter (·.is .commutative)) ++ ts.filter (fun t => !t.is .commutative)

def orderedSummands {α : Type} (ts : List (Term × α)) : List (Term × α) :=
  (Profile.orderSummands (ts.map fun t => (t.1.profile, t))).map (·.2)

end Term
end Majorant
