import Majorant.Proofs.Statement.Connective
import Majorant.Term.Expand

/-!
# What terms are built from

An alphabet says which variables may occur in a term, and whether declarations may.  Arithmetic never makes up
a variable or a declaration, so it stays over the alphabet of its arguments.
-/

namespace Majorant

/-- **An alphabet**: the variables of terms, and whether there may be declarations in them.  The absent
value and statements without parts are *loose*. -/
structure Alphabet where
  letters : Variable → Prop
  loose : Prop
  declarations : Prop

namespace Term

/-- **The terms over an alphabet.** -/
inductive Over (A : Alphabet) : Term → Prop
  | lit {l : Literal} (h : l = .absent → A.loose) : Over A (lit l)
  | num (q : Rat) : Over A (num q)
  | special (s : Special) : Over A (special s)
  | truth (b : Bool) : Over A (truth b)
  | var {v : Variable} (h : A.letters v) : Over A (var v)
  | app {h : Head} {as : List Term} (parts : as = [] → h.isQuantity = false → A.loose)
      (mark : h = .declared → A.declarations) (args : ∀ a ∈ as, Over A a) : Over A (app h as)

variable {A B : Alphabet} {a b e t : Term} {as ts : List Term} {h : Head}

@[simp]
theorem over_lit {l : Literal} : (lit l).Over A ↔ (l = .absent → A.loose) :=
  ⟨fun h => by cases h; assumption, .lit⟩

@[simp]
theorem over_num (q : Rat) : (num q).Over A := .num q

@[simp]
theorem over_special (s : Special) : (special s).Over A := .special s

@[simp]
theorem over_truth (c : Bool) : (truth c).Over A := .truth c

@[simp]
theorem over_var {v : Variable} : (var v).Over A ↔ A.letters v :=
  ⟨fun h => by cases h; assumption, .var⟩

theorem over_app : (app h as).Over A ↔ (as = [] → h.isQuantity = false → A.loose) ∧
    (h = .declared → A.declarations) ∧ ∀ a ∈ as, a.Over A := by
  constructor
  · intro happ
    cases happ with
    | app parts mark args => exact ⟨parts, mark, args⟩
  · rintro ⟨parts, mark, args⟩
    exact .app parts mark args

theorem over_quantity (hh : h.isQuantity = true) : (app h as).Over A ↔ ∀ a ∈ as, a.Over A := by
  have hne : h ≠ .declared := by
    rintro rfl
    cases hh
  simp [over_app, hh, hne]

theorem over_app_of_ne (hne : h ≠ .declared) (has : as ≠ []) :
    (app h as).Over A ↔ ∀ a ∈ as, a.Over A := by
  simp [over_app, hne, has]

theorem Over.args (happ : (Term.app h as).Over A) : ∀ a ∈ as, a.Over A := (over_app.1 happ).2.2

theorem Over.mono (hvar : ∀ v, A.letters v → B.letters v) (hloose : A.loose → B.loose)
    (hdecl : A.declarations → B.declarations) (ht : t.Over A) : t.Over B := by
  induction ht with
  | lit h => exact .lit fun heq => hloose (h heq)
  | num q => exact .num q
  | special s => exact .special s
  | truth c => exact .truth c
  | var h => exact .var (hvar _ h)
  | app parts mark _ ih =>
    exact .app (fun heq hh => hloose (parts heq hh)) (fun heq => hdecl (mark heq)) ih

theorem over_ite {c : Prop} [Decidable c] (ha : a.Over A) (hb : b.Over A) :
    (if c then a else b).Over A := by
  split
  · exact ha
  · exact hb

theorem isNumberList_iff : isNumberList ts = true ↔ ∀ t ∈ ts, t.isNumber = true := by
  induction ts with
  | nil => simp [isNumberList]
  | cons t ts ih => simp [isNumberList, ih]

theorem areDefined_iff {known : List Term} :
    areDefined known ts = true ↔ ∀ t ∈ ts, t.isDefined known = true := by
  induction ts with
  | nil => simp [areDefined]
  | cons t ts ih => simp [areDefined, ih]

theorem over_of_isNumber (ht : t.isNumber = true) : t.Over A := by
  induction t using args_induction with
  | step t ih =>
    cases t with
    | lit l =>
      refine .lit ?_
      rintro rfl
      cases ht
    | num q => exact .num q
    | special s => exact .special s
    | truth c => cases ht
    | var v => cases ht
    | app h as =>
      rw [isNumber, Bool.and_eq_true, isNumberList_iff] at ht
      exact (over_quantity ht.1).2 fun a ha => ih a ha (ht.2 a ha)

/-- **A term over declared variables is defined.** -/
theorem Over.isDefined {known : List Term} (hvar : ∀ v, A.letters v → Term.var v ∈ known)
    (hloose : ¬ A.loose) (ht : t.Over A) : t.isDefined known = true := by
  induction ht with
  | @lit l h =>
    cases l with
    | absent => exact absurd (h rfl) hloose
    | _ => simp [Term.isDefined, isNumber]
  | num q => simp [Term.isDefined, isNumber]
  | special s => simp [Term.isDefined, isNumber]
  | truth c => simp [Term.isDefined]
  | var h => simp [Term.isDefined, hvar _ h]
  | @app h as parts mark _ ih =>
    cases as with
    | nil =>
      have hh : h.isQuantity = true := by
        by_contra hne
        exact hloose (parts rfl (by simpa using hne))
      simp [Term.isDefined, isNumber, isNumberList, hh]
    | cons a as =>
      have hall := areDefined_iff.2 ih
      simp [Term.isDefined, hall]

/-- **A defined term is over the alphabet** if all that is known is. -/
theorem over_of_isDefined {known : List Term} (hknown : ∀ k ∈ known, k.Over A)
    (hdecl : A.declarations) (ht : t.isDefined known = true) : t.Over A := by
  induction t using args_induction with
  | step t ih =>
    unfold Term.isDefined at ht
    rw [Bool.or_eq_true, Bool.or_eq_true] at ht
    rcases ht with (ht | ht) | ht
    · exact hknown t (List.contains_iff_mem.1 ht)
    · exact over_of_isNumber ht
    · split at ht
      · exact .truth _
      · exact .lit nofun
      · rename_i h as
        rw [Bool.and_eq_true, areDefined_iff] at ht
        refine .app (fun heq => ?_) (fun _ => hdecl) fun a ha => ih a ha (ht.2 a ha)
        simp [heq] at ht
      · cases ht

theorem over_splitCoeff (ht : t.Over A) : t.splitCoeff.2.Over A := by
  unfold splitCoeff
  split
  · exact .num 1
  · have hargs := ht.args
    split
    · exact .num 1
    · exact hargs _ (by simp)
    · exact (over_quantity rfl).2 fun a ha => hargs a (.tail _ ha)
  · exact ht

theorem over_withCoeff (c : Rat) (hts : ∀ t ∈ ts, t.Over A) : (withCoeff c ts).Over A := by
  unfold withCoeff
  split
  · split
    · exact .num 1
    · exact hts _ (by simp)
    · exact (over_quantity rfl).2 hts
  · split
    · exact .num c
    · exact (over_quantity rfl).2 (List.forall_mem_cons.2 ⟨.num c, hts⟩)

theorem over_scaleSummand (c : Rat) (ht : t.Over A) : (scaleSummand c t).Over A := by
  unfold scaleSummand
  split
  · exact .num _
  · exact over_withCoeff _ fun a ha => ht.args a (.tail _ ha)
  · exact over_withCoeff c ht.args
  · exact over_withCoeff c (List.forall_mem_singleton.2 ht)

theorem over_of_mem_summands (ht : t.Over A) : ∀ s ∈ t.summands, s.Over A := by
  unfold summands
  split
  · exact ht.args
  · exact List.forall_mem_singleton.2 ht

theorem over_ofSummands (hts : ∀ t ∈ ts, t.Over A) : (ofSummands ts).Over A := by
  unfold ofSummands
  split
  · exact .num 0
  · exact hts _ (by simp)
  · exact (over_quantity rfl).2 hts

theorem over_sumSpecial (hts : ∀ t ∈ ts, t.Over A) : (sumSpecial ts).Over A := by
  have hsum : ∀ (s : Special) (p : Term → Bool),
      (ofSummands (special s :: sortArgs (ts.filter p))).Over A := fun s p =>
    over_ofSummands (List.forall_mem_cons.2 ⟨.special s, fun t ht =>
      hts t (List.mem_of_mem_filter (mem_sortArgs.1 ht))⟩)
  unfold sumSpecial
  dsimp only
  split
  · split
    · exact hsum _ _
    · exact .special _
  · exact hsum _ _
  · exact .special _

theorem over_sumFinite (hts : ∀ t ∈ ts, t.Over A) : (sumFinite ts).Over A := by
  have hterms : ∀ t ∈ sortArgs ((gathered ts).map fun p => scaleSummand p.2 p.1), t.Over A := by
    intro t ht
    obtain ⟨p, hp, rfl⟩ := List.mem_map.1 (mem_sortArgs.1 ht)
    obtain ⟨s, hs, -, heq⟩ := exists_of_mem_gathered hp
    rw [heq]
    exact over_scaleSummand p.2 (over_splitCoeff (hts s hs))
  unfold sumFinite
  apply over_ofSummands
  split
  · exact hterms
  · exact List.forall_mem_cons.2 ⟨.num _, hterms⟩

theorem over_sum (hts : ∀ t ∈ ts, t.Over A) : (sum ts).Over A := by
  have hflat : ∀ s ∈ ts.flatMap summands, s.Over A := by
    intro s hs
    obtain ⟨t, ht, hs⟩ := List.mem_flatMap.1 hs
    exact over_of_mem_summands (hts t ht) s hs
  unfold sum
  dsimp only
  split
  · exact over_sumSpecial hflat
  · exact over_sumFinite hflat

theorem over_scale (c : Rat) (ht : t.Over A) : (scale c t).Over A := by
  unfold scale
  split
  · exact ht
  · split
    · exact .special _
    · split <;> exact .special _
    · split_ifs <;> exact .special _
    · split_ifs <;> exact .special _
    · split_ifs
      · exact .num 0
      · exact over_sum (List.forall_mem_map.2 fun a ha => over_scaleSummand c (ht.args a ha))
      · exact over_withCoeff c (List.forall_mem_singleton.2 ht)
    · split
      · exact .num 0
      · exact over_scaleSummand c ht

theorem over_neg (ht : t.Over A) : t.neg.Over A := over_scale (-1) ht

theorem over_pair (ha : a.Over A) (hb : b.Over A) : ∀ t ∈ [a, b], t.Over A :=
  List.forall_mem_cons.2 ⟨ha, List.forall_mem_singleton.2 hb⟩

theorem over_sub (ha : a.Over A) (hb : b.Over A) : (sub a b).Over A :=
  over_sum (over_pair ha (over_neg hb))

theorem over_of_mem_factors (ht : t.Over A) : ∀ s ∈ t.factors, s.Over A := by
  unfold factors
  split
  · exact ht.args
  · exact List.forall_mem_singleton.2 ht

theorem over_pow (hb : b.Over A) (he : e.Over A) : (app .pow [b, e]).Over A :=
  (over_quantity rfl).2 (over_pair hb he)

theorem over_asPower (ht : t.Over A) : t.asPower.1.Over A ∧ t.asPower.2.Over A := by
  unfold asPower
  split
  · rename_i b e
    have hb : b.Over A := ht.args b (by simp)
    have he : e.Over A := ht.args e (by simp)
    split
    · split
      · exact ⟨.num _, over_neg he⟩
      · exact ⟨hb, he⟩
    · exact ⟨hb, he⟩
  · exact ⟨ht, .num 1⟩

def OverPowers (A : Alphabet) (ps : List (Term × Term × Rat)) : Prop :=
  ∀ p ∈ ps, p.1.Over A ∧ p.2.1.Over A

theorem overPowers_gatherPower {ps : List (Term × Term × Rat)} (hps : OverPowers A ps)
    (hb : b.Over A) (he : e.Over A) : OverPowers A (gatherPower ps b e) := by
  unfold gatherPower
  dsimp only
  split
  · intro p hp
    obtain ⟨q, hq, rfl⟩ := List.mem_map.1 hp
    split
    · exact ⟨hb, over_splitCoeff he⟩
    · exact hps q hq
  · intro p hp
    rcases List.mem_append.1 hp with hp | hp
    · exact hps p hp
    · rw [List.mem_singleton.1 hp]
      exact ⟨hb, over_splitCoeff he⟩

theorem overPowers_foldl {pairs : List (Term × Term)} (hpairs : ∀ p ∈ pairs, p.1.Over A ∧ p.2.Over A)
    {ps : List (Term × Term × Rat)} (hps : OverPowers A ps) :
    OverPowers A (pairs.foldl (fun acc p => gatherPower acc p.1 p.2) ps) := by
  induction pairs generalizing ps with
  | nil => exact hps
  | cons p pairs ih =>
    have hp := hpairs p (.head _)
    exact ih (fun q hq => hpairs q (.tail _ hq)) (overPowers_gatherPower hps hp.1 hp.2)

theorem over_ofFactors (c : Rat) {others : List Term} (hts : ∀ t ∈ ts, t.Over A)
    (hothers : ∀ t ∈ others, t.Over A) : (ofFactors c ts others).Over A := by
  unfold ofFactors
  split
  · exact .num 0
  · split
    · exact over_scale c (hts _ (by simp))
    · exact over_withCoeff c (List.forall_mem_append.2 ⟨fun t ht => hts t (mem_sortArgs.1 ht), hothers⟩)

theorem over_productSpecial (c : Rat) (specials : List Special) (hts : ∀ t ∈ ts, t.Over A) :
    (productSpecial c specials ts).Over A := by
  have hprod : ∀ (s : Special) (p : Term → Bool),
      (ofFactors 1 (special s :: ts.filter p) []).Over A := fun s p =>
    over_ofFactors 1 (List.forall_mem_cons.2 ⟨.special s, fun t ht =>
      hts t (List.mem_of_mem_filter ht)⟩) nofun
  unfold productSpecial
  split
  · exact .special _
  · split
    · exact hprod _ _
    · exact hprod _ _

theorem over_of_mem_rootTerms (roots : List (Nat × Rat)) : ∀ t ∈ rootTerms roots, t.Over A :=
  List.forall_mem_map.2 fun _ _ => over_pow (.num _) (.num _)

theorem over_withoutLeadingMinus (ht : t.Over A) : (withoutLeadingMinus t).Over A := by
  unfold withoutLeadingMinus
  split
  · split
    · exact over_neg ht
    · exact ht
  · split
    · exact over_pow (over_neg (ht.args _ (by simp))) (.num _)
    · exact ht
  · exact ht

theorem over_flipExponent (he : e.Over A) : (flipExponent e).Over A := by
  unfold flipExponent
  split
  · exact .num _
  · have hargs := he.args
    split
    · split
      · exact hargs _ (by simp)
      · exact (over_quantity rfl).2 fun a ha => hargs a (.tail _ ha)
    · exact (over_quantity rfl).2 (List.forall_mem_cons.2 ⟨.num _, fun a ha => hargs a (.tail _ ha)⟩)
  · exact he

theorem over_rawPower (hb : b.Over A) (he : e.Over A) : (rawPower b e).Over A := by
  unfold rawPower
  split
  · exact hb
  · exact over_pow hb he

theorem over_concat (hts : ∀ t ∈ ts, t.Over A) (ht : t.Over A) : ∀ s ∈ ts ++ [t], s.Over A :=
  List.forall_mem_append.2 ⟨hts, List.forall_mem_singleton.2 ht⟩

theorem over_splitFraction (hts : ∀ t ∈ ts, t.Over A) :
    (∀ t ∈ (splitFraction ts).1, t.Over A) ∧ ∀ t ∈ (splitFraction ts).2, t.Over A := by
  unfold splitFraction
  refine List.foldlRecOn (motive := fun acc : List Term × List Term =>
    (∀ t ∈ acc.1, t.Over A) ∧ ∀ t ∈ acc.2, t.Over A) ts _ ⟨nofun, nofun⟩ ?_
  rintro ⟨top, bottom⟩ ⟨htop, hbottom⟩ f hf
  have hover := hts f hf
  dsimp only
  split
  · refine ⟨?_, ?_⟩
    · dsimp only
      split
      · exact htop
      · exact over_concat htop (.num _)
    · dsimp only
      split
      · exact hbottom
      · exact over_concat hbottom (.num _)
  · rename_i b e
    split
    · refine ⟨htop, over_concat hbottom (over_rawPower (hover.args b (by simp)) ?_)⟩
      exact over_flipExponent (hover.args e (by simp))
    · exact ⟨over_concat htop hover, hbottom⟩
  · exact ⟨over_concat htop hover, hbottom⟩

theorem over_splitNegatives {nonneg negative rest : List Term} (hnonneg : ∀ t ∈ nonneg, t.Over A)
    (hnegative : ∀ t ∈ negative, t.Over A) (hrest : ∀ t ∈ rest, t.Over A) :
    (∀ t ∈ (splitNegatives nonneg negative rest).1, t.Over A) ∧
      ∀ t ∈ (splitNegatives nonneg negative rest).2, t.Over A := by
  have hlead : ∀ c : Rat, ∀ t ∈ if c = 1 then rest else rest ++ [num c], t.Over A := by
    intro c
    split
    · exact hrest
    · exact over_concat hrest (.num c)
  unfold splitNegatives
  split
  · exact ⟨hnonneg, hrest⟩
  · rename_i f
    have hf : f.Over A := hnegative f (by simp)
    split
    · split
      · exact ⟨over_concat hnonneg (.num _), over_concat hrest (.num _)⟩
      · exact ⟨hnonneg, over_concat hrest (.num _)⟩
    · exact ⟨hnonneg, over_concat hrest hf⟩
  · rename_i f fs _
    have hfs : ∀ t ∈ fs, t.Over A := fun t ht => hnegative t (.tail _ ht)
    dsimp only
    refine ⟨List.forall_mem_append.2 ⟨hnonneg, List.forall_mem_map.2 fun t ht => over_neg ?_⟩,
      hlead _⟩
    split at ht
    · split at ht
      · exact hfs t ht
      · exact hnegative t ht
    · exact hnegative t ht

/-- Products, powers and absolute values in at most `n` nested steps stay over the alphabet. -/
structure OverSteps (A : Alphabet) (n : Nat) : Prop where
  product : ∀ {ts}, (∀ t ∈ ts, t.Over A) → (productAux n ts).Over A
  rootProduct : ∀ roots, ∀ t ∈ rootProduct n roots, t.Over A
  basePowers : ∀ {ps}, (∀ p ∈ ps, p.2.Over A) → ∀ t ∈ basePowers n ps, t.Over A
  power : ∀ {b e}, b.Over A → e.Over A → (powerAux n b e).Over A
  absolute : ∀ {t}, t.Over A → (absoluteAux n t).Over A

theorem overSteps_zero : OverSteps A 0 where
  product hts := by
    rw [productAux]
    exact over_withCoeff 1 hts
  rootProduct := by
    intro roots t ht
    rw [rootProduct] at ht
    cases ht
  basePowers := by
    intro ps _ t ht
    rw [basePowers] at ht
    cases ht
  power hb he := by
    rw [powerAux]
    exact over_pow hb he
  absolute ht := by
    rw [absoluteAux]
    exact (over_quantity rfl).2 (List.forall_mem_singleton.2 ht)

section
variable {n : Nat} (hn : OverSteps A n)
include hn

theorem OverSteps.rootProduct_succ (roots : List (Term × Rat)) :
    ∀ t ∈ Term.rootProduct (n + 1) roots, t.Over A := by
  rw [Term.rootProduct]
  exact List.forall_mem_map.2 fun _ _ => hn.power (.num _) (.num _)

theorem OverSteps.basePowers_succ {ps : List (Term × Term)} (hps : ∀ p ∈ ps, p.2.Over A) :
    ∀ t ∈ Term.basePowers (n + 1) ps, t.Over A := by
  rw [Term.basePowers]
  refine List.forall_mem_map.2 fun e he => hn.power (.num _) ?_
  obtain ⟨p, hp, rfl⟩ := List.mem_map.1 (List.mem_eraseDups.1 he)
  exact hps p hp

theorem OverSteps.product_succ (hts : ∀ t ∈ ts, t.Over A) : (productAux (n + 1) ts).Over A := by
  rw [productAux]
  -- The factors, and those of them that are no numbers.
  have hflat : ∀ t ∈ (ts.flatMap factors).filter (· ≠ one), t.Over A := by
    intro t ht
    obtain ⟨s, hs, ht⟩ := List.mem_flatMap.1 (List.mem_of_mem_filter ht)
    exact over_of_mem_factors (hts s hs) t ht
  have hrest : ∀ p : Term → Bool, ∀ t ∈ ((ts.flatMap factors).filter (· ≠ one)).filter p, t.Over A :=
    fun p t ht => hflat t (List.mem_of_mem_filter ht)
  split
  · exact over_productSpecial _ _ (hrest _)
  split
  · exact .num _
  · rename_i t heq
    exact over_scale _ (hrest _ t (by rw [heq]; exact .head _))
  · extract_lets commuting others pairs isRoot isBase roots bases powers exponentOf rootParts
      baseParts powerParts parts settled again
    have hpairs : ∀ p ∈ pairs, p.1.Over A ∧ p.2.Over A :=
      List.forall_mem_map.2 fun t ht => over_asPower (hrest _ t (List.mem_of_mem_filter ht))
    have hpowers : ∀ p : Term × Term → Bool,
        OverPowers A ((pairs.filter p).foldl (fun acc p => gatherPower acc p.1 p.2) []) := fun p =>
      overPowers_foldl (fun q hq => hpairs q (List.mem_of_mem_filter hq)) nofun
    have hexponent : ∀ {t : Term} (q : Rat), t.Over A → (exponentOf t q).Over A := fun q ht =>
      hn.product (over_pair (.num q) ht)
    have hparts : ∀ t ∈ parts, t.Over A := by
      refine List.forall_mem_append.2 ⟨List.forall_mem_append.2 ⟨hn.rootProduct _,
        hn.basePowers fun p hp => ?_⟩, List.forall_mem_map.2 fun p hp => ?_⟩
      · obtain ⟨q, hq, rfl⟩ := List.mem_map.1 (List.mem_of_mem_filter hp)
        exact hexponent _ (hpowers isBase q hq).2
      · have hp' := hpowers _ p (List.mem_of_mem_filter hp)
        exact hn.power hp'.1 (hexponent _ hp'.2)
    have hothers : ∀ t ∈ others, t.Over A := fun t ht => hrest _ t (List.mem_of_mem_filter ht)
    split
    · exact over_ofFactors _ hparts hothers
    · split
      · exact over_ofFactors _ hparts hothers
      · refine hn.product (List.forall_mem_append.2 ⟨List.forall_mem_cons.2 ⟨.num _, hparts⟩, hothers⟩)

theorem OverSteps.power_power {b' e' raw : Term} (hb' : b'.Over A) (he' : e'.Over A) (he : e.Over A)
    (hraw : raw.Over A) {half small moderate : Bool} : (
    if e.is .integer then powerAux n b' (productAux n [e', e])
    else if (e'.ask .extReal) == some true then
      if e' = .num (-1) && half && b'.isNot .negative then powerAux n b' (neg e)
      else
        let b'' := if e'.is .even && b'.is .extReal then absoluteAux n b' else b'
        if small || b''.is .extNonnegative || (b''.is .extNonnegative && moderate) then
          powerAux n b'' (productAux n [e', e])
        else raw
    else raw).Over A := by
  have hexponent : (productAux n [e', e]).Over A := hn.product (over_pair he' he)
  refine over_ite (hn.power hb' hexponent) (over_ite (over_ite (hn.power hb' (over_neg he)) ?_) hraw)
  exact over_ite (hn.power (over_ite (hn.absolute hb') hb') hexponent) hraw

theorem OverSteps.power_succ (hb : b.Over A) (he : e.Over A) : (powerAux (n + 1) b e).Over A := by
  have hraw : (app .pow [b, e]).Over A := over_pow hb he
  have hfilter : ∀ {fs : List Term} (p : Term → Bool), (∀ t ∈ fs, t.Over A) →
      ∀ t ∈ fs.filter p, t.Over A := fun p hfs t ht => hfs t (List.mem_of_mem_filter ht)
  unfold powerAux
  refine over_ite (.num 1) (over_ite hb ?_)
  split
  · exact .special _
  · exact .special _
  · exact over_ite (.num 0) (.special _)
  · exact over_ite (.num 0) (.special _)
  · -- A rational power of a rational number.
    refine over_ite (over_ite (.special _) (.num 0)) (over_ite (.num 1) (over_ite (.num _)
      (over_ite hraw ?_)))
    obtain ⟨c, roots⟩ := rationalPower _ _
    refine over_ite hraw ?_
    split
    · exact .num c
    · exact over_withCoeff c fun t ht => over_of_mem_rootTerms roots t (mem_sortArgs.1 ht)
  · -- Another power of a rational number.
    exact over_ite (.num 1) (over_ite (over_ite (.num 0) (over_ite (.special _) hraw))
      (over_ite (hn.power (.num _) he) (over_ite (over_neg (hn.power (.num _) he))
        (over_ite hraw hraw))))
  · have hpair := over_asPower hb
    exact hn.power_power hpair.1 hpair.2 he hraw
  · -- A rational power of a product.
    rename_i fs q
    have hcommuting : ∀ t ∈ fs.filter (·.is .commutative), t.Over A := hfilter _ hb.args
    have hothers : ∀ t ∈ fs.filter (fun t => !t.is .commutative), t.Over A := hfilter _ hb.args
    refine over_ite ?_ ?_
    · have hparts : ∀ t ∈ (fs.filter (·.is .commutative)).map (powerAux n · (.num q)), t.Over A :=
        List.forall_mem_map.2 fun f hf => hn.power (hcommuting f hf) he
      dsimp only
      split
      · exact hn.product hparts
      · exact hn.product (over_concat hparts (over_pow (over_withCoeff 1 hothers) he))
    · have hsplit := over_splitNegatives (hfilter (·.is .extNonnegative) hcommuting)
        (hfilter (·.isNot .extNonnegative) hcommuting)
        (hfilter (fun f => (f.ask .extNonnegative).isNone) hcommuting)
      dsimp only
      revert hsplit
      generalize splitNegatives _ _ _ = pair
      rintro ⟨hout, hin⟩
      have hparts : ∀ t ∈ pair.1.map (powerAux n · (.num q)), t.Over A :=
        List.forall_mem_map.2 fun f hf => hn.power (hout f hf) he
      have hinside : (productAux n (pair.2 ++ fs.filter (fun t => !t.is .commutative))).Over A :=
        hn.product (List.forall_mem_append.2 ⟨hin, hothers⟩)
      split
      · exact hraw
      · exact hn.product hparts
      · refine hn.product (over_concat hparts ?_)
        split
        · exact hn.power hinside he
        · exact over_pow hinside he
  · -- A power of an absolute value.
    rename_i a q
    have ha : a.Over A := hb.args a (by simp)
    exact over_ite (over_ite (hn.power ha he) (over_ite hraw
      (hn.product (over_pair (hn.power ha (.num _)) hb)))) hraw
  · rename_i a _ _
    exact over_ite (hn.power (hb.args a (by simp)) he) hraw
  · exact hraw

theorem OverSteps.absolute_succ (ht : t.Over A) : (absoluteAux (n + 1) t).Over A := by
  have habs : ∀ {t : Term}, t.Over A → (app .abs [t]).Over A := fun ht =>
    (over_quantity rfl).2 (List.forall_mem_singleton.2 ht)
  unfold absoluteAux
  have ht := over_withoutLeadingMinus ht
  generalize withoutLeadingMinus t = t at ht
  have hfraction := over_splitFraction (over_of_mem_factors ht)
  dsimp only [numerDenom]
  generalize splitFraction t.factors = fraction at hfraction
  refine over_ite (hn.product (over_pair (hn.absolute (hn.product hfraction.1))
    (hn.power (hn.absolute (hn.product hfraction.2)) (.num _)))) ?_
  split
  · exact .num _
  · exact .special _
  · exact .special _
  · exact .special _
  · -- A product: the factors whose absolute value is known leave it.
    rename_i fs
    have hfs : ∀ f ∈ fs.map withoutLeadingMinus, f.Over A :=
      List.forall_mem_map.2 fun f hf => over_withoutLeadingMinus (ht.args f hf)
    generalize fs.map withoutLeadingMinus = fs at hfs
    generalize hmap : fs.map _ = judged
    have hjudged : ∀ p ∈ judged, p.1.Over A ∧ ∀ u ∈ p.2, u.Over A := by
      rw [← hmap]
      refine List.forall_mem_map.2 fun f hmem => ?_
      have hf := hfs f hmem
      clear hmem
      split
      · rename_i b e
        have hb : b.Over A := hf.args b (by simp)
        have he : e.Over A := hf.args e (by simp)
        split
        · split
          · exact ⟨hf, nofun⟩
          · exact ⟨hf, fun u hu => Option.mem_some.1 hu ▸ hn.power (hn.absolute hb) he⟩
        · split
          · exact ⟨hf, nofun⟩
          · exact ⟨hf, fun u hu => Option.mem_some.1 hu ▸ hn.absolute hf⟩
      · split
        · exact ⟨hf, nofun⟩
        · exact ⟨hf, fun u hu => Option.mem_some.1 hu ▸ hn.absolute hf⟩
    have hknown : ∀ u ∈ judged.filterMap (·.2), u.Over A := by
      intro u hu
      obtain ⟨p, hp, hu⟩ := List.mem_filterMap.1 hu
      exact (hjudged p hp).2 u hu
    have hunknown : ∀ u ∈ (judged.filter (·.2.isNone)).map (·.1), u.Over A :=
      List.forall_mem_map.2 fun p hp => (hjudged p (List.mem_of_mem_filter hp)).1
    split
    · exact hn.product hknown
    · exact hn.product (over_concat hknown (habs (hn.product hunknown)))
  · -- A power.
    rename_i b e
    have hb : b.Over A := ht.args b (by simp)
    have he : e.Over A := ht.args e (by simp)
    exact over_ite (over_ite (over_ite ht (over_ite (.num 1) (hn.power (hn.absolute hb) he)))
      (over_ite ht (habs ht))) (habs ht)
  · exact over_ite (.num 0) (over_ite ht (over_ite (over_neg ht) (habs ht)))

end

theorem overSteps (A : Alphabet) (n : Nat) : OverSteps A n := by
  induction n with
  | zero => exact overSteps_zero
  | succ n ih =>
    exact ⟨ih.product_succ, ih.rootProduct_succ, ih.basePowers_succ, ih.power_succ, ih.absolute_succ⟩

theorem over_product (hts : ∀ t ∈ ts, t.Over A) : (product ts).Over A := (overSteps A _).product hts

theorem over_power (hb : b.Over A) (he : e.Over A) : (power b e).Over A := (overSteps A _).power hb he

theorem over_absolute (ht : t.Over A) : (absolute t).Over A := (overSteps A _).absolute ht

theorem over_timesOut (ha : a.Over A) (hb : b.Over A) : (timesOut a b).Over A := by
  refine over_sum fun t ht => ?_
  obtain ⟨s, hs, ht⟩ := List.mem_flatMap.1 ht
  obtain ⟨u, hu, rfl⟩ := List.mem_map.1 ht
  exact over_product (over_pair (over_of_mem_summands ha s hs) (over_of_mem_summands hb u hu))

theorem over_powerOut (hb : b.Over A) (n : Nat) : (powerOut b n).Over A := by
  induction n with
  | zero => exact .num 1
  | succ n ih => exact over_timesOut ih hb

theorem expandList_eq_map (ts : List Term) : expandList ts = ts.map expand := by
  induction ts with
  | nil => rw [expandList, List.map_nil]
  | cons t ts ih => rw [expandList, ih, List.map_cons]

theorem over_expand (ht : t.Over A) : (expand t).Over A := by
  induction ht with
  | @app h as parts mark hargs ih =>
    have hexpanded : ∀ t ∈ expandList as, t.Over A := by
      rw [expandList_eq_map]
      exact List.forall_mem_map.2 ih
    have happ : (Term.app h as).Over A := .app parts mark hargs
    unfold expand
    split
    · rename_i heq
      cases heq
      exact over_sum hexpanded
    · rename_i heq
      cases heq
      exact List.foldlRecOn _ _ (.num 1) fun acc hacc t ht => over_timesOut hacc (hexpanded t ht)
    · rename_i heq
      cases heq
      split
      · rename_i b q heq
        rw [heq] at hexpanded
        have hb : b.Over A := hexpanded b (by simp)
        exact over_ite (over_powerOut hb _) (over_power hb (.num q))
      · rename_i b e _ heq
        rw [heq] at hexpanded
        exact over_power (hexpanded b (by simp)) (hexpanded e (by simp))
      · exact happ
    · exact happ
  | lit h => simpa [expand] using h
  | var h => simpa [expand] using h
  | _ => simp [expand]

end Term
end Majorant
