import Majorant.Proofs.Scope.Term
import Majorant.Proofs.Statement.Reduction

/-!
# Statements over an alphabet

Comparisons, connectives and their reduced forms are put together from the parts of the statements they
are made of, so they stay over the alphabet of these.
-/

namespace Majorant
open Term Outcome

variable {A : Alphabet} {a b t : Term} {as ts : List Term}

/-- **The outcome is a term over the alphabet**, if it is one. -/
abbrev Outcome.StaysOver (A : Alphabet) (x : Outcome Term) : Prop := x.Yields (·.Over A)

theorem Term.staysOver_ofLiteral (ht : t.Over A) : (ofLiteral t).StaysOver A := by
  unfold ofLiteral
  split
  · exact yields_pure (.num _)
  · exact yields_pure (.num _)
  · exact yields_pure (.num _)
  · exact yields_pure (.truth _)
  · exact yields_fail _
  · exact yields_pure ht

namespace Statement

theorem over_rel (r : Rel) (ha : a.Over A) (hb : b.Over A) : (app (.rel r) [a, b]).Over A :=
  (over_app_of_ne (by simp) (by simp)).2 (over_pair ha hb)

theorem yields_relate {P : Term → Prop} (r : Rel) (htruth : ∀ c, P (truth c))
    (hrel : ∀ s a' b', (ofLiteral a).result = .ok a' → (ofLiteral b).result = .ok b' →
      P (app (.rel s) [a', b'])) : (relate r a b).Yields P := by
  refine yields_bind_of_result fun a' ha' => yields_bind_of_result fun b' hb' => ?_
  have hsettle : ∀ s v, P (settle s a' b' v) := by
    intro s v
    cases v with
    | none => exact hrel s a' b' ha' hb'
    | some c => exact htruth c
  split
  · exact yields_ite (yields_pure (htruth _)) (yields_bind fun _ => yields_pure (hsettle _ _))
  · exact yields_ite (yields_pure (htruth _)) (yields_bind fun _ => yields_pure (hsettle _ _))
  · exact yields_bind fun _ => yields_bind fun _ => yields_bind fun _ => yields_bind fun _ =>
      yields_pure (hsettle _ _)

theorem staysOver_relate (r : Rel) (ha : a.Over A) (hb : b.Over A) : (relate r a b).StaysOver A :=
  yields_relate r .truth fun s a' b' ha' hb' =>
    over_rel s (staysOver_ofLiteral ha a' ha') (staysOver_ofLiteral hb b' hb')

theorem over_opposite (ht : t.Over A) : (opposite t).Over A :=
  over_ite ((over_quantity rfl).2 (over_pair (.lit nofun) ht)) (over_neg ht)

theorem over_arranged (r : Rel) (ha : a.Over A) (hb : b.Over A) :
    (arranged r a b).2.1.Over A ∧ (arranged r a b).2.2.Over A := by
  unfold arranged
  extract_lets exchange
  clear_value exchange
  cases exchange with
  | false => exact ⟨ha, hb⟩
  | true => exact ⟨hb, ha⟩

theorem over_canonicalParts (r : Rel) (ha : a.Over A) (hb : b.Over A) :
    (canonicalParts r a b).2.1.Over A ∧ (canonicalParts r a b).2.2.Over A := by
  unfold canonicalParts
  have harranged := over_arranged r ha hb
  revert harranged
  generalize arranged r a b = parts
  obtain ⟨r, a, b⟩ := parts
  rintro ⟨ha, hb⟩
  dsimp -zeta only at ha hb ⊢
  extract_lets truths b'
  clear_value truths
  cases truths with
  | true => exact ⟨ha, hb⟩
  | false =>
    simp only [Bool.false_eq_true, if_false]
    split_ifs
    · exact ⟨over_opposite ha, over_opposite hb⟩
    · exact ⟨ha, hb⟩
    · exact ⟨over_opposite hb, over_opposite ha⟩
    · exact ⟨ha, hb⟩

theorem over_of_asRel? {r : Rel} (ht : t.Over A) (h : t.asRel? = some (r, a, b)) :
    a.Over A ∧ b.Over A := by
  unfold asRel? at h
  split at h
  · cases h
    exact ⟨ht.args _ (by simp), ht.args _ (by simp)⟩
  · cases h

theorem over_canonical (ht : t.Over A) : (canonical t).Over A := by
  unfold canonical
  split
  · rename_i r a b h
    obtain ⟨ha, hb⟩ := over_of_asRel? ht h
    have hparts := over_canonicalParts r ha hb
    exact over_rel _ hparts.1 hparts.2
  · exact ht

theorem staysOver_member (ht : t.Over A) : (member t).StaysOver A := by
  unfold member
  split
  · exact yields_pure (.truth _)
  · exact yields_pure (.truth _)
  · exact yields_pure (.truth _)
  · exact yields_pure (.truth _)
  · exact yields_pure (.truth _)
  · split
    · exact yields_pure (.truth _)
    · exact yields_pure ht
  · exact yields_ite (yields_pure ht) (yields_fail _)

theorem over_of_mem_flatten {h : Head} (hts : ∀ t ∈ ts, t.Over A) : ∀ t ∈ flatten h ts, t.Over A := by
  intro t ht
  obtain ⟨s, hs, ⟨as, rfl, ht⟩ | ⟨-, rfl⟩⟩ := World.mem_flatten.1 ht
  · exact (hts _ hs).args t ht
  · exact hts t hs

theorem mem_of_mem_distinctMembers {kept : List Term} (h : distinctMembers ts = some kept) :
    ∀ t ∈ kept, t ∈ ts := by
  unfold distinctMembers at h
  obtain ⟨seen, hseen, rfl⟩ := Option.map_eq_some_iff.1 h
  clear h
  -- Whatever has been kept so far was a member.
  have hfold : ∀ s ∈ ts.foldl (fun (s : Option Seen) t => s.bind fun seen => seen.add t)
      (some ⟨[], []⟩), ∀ t ∈ s.kept, t ∈ ts := by
    refine List.foldlRecOn (motive := fun acc : Option Seen => ∀ s ∈ acc, ∀ t ∈ s.kept, t ∈ ts) ts _ ?_ ?_
    · rintro s ⟨⟩
      exact nofun
    · intro acc hacc t ht s hs
      obtain ⟨s', hs', hadd⟩ := Option.bind_eq_some_iff.1 hs
      have hkept := hacc s' hs'
      have hconcat : ∀ u ∈ s'.kept ++ [t], u ∈ ts :=
        List.forall_mem_append.2 ⟨hkept, List.forall_mem_singleton.2 ht⟩
      unfold Seen.add at hadd
      split at hadd
      · dsimp only at hadd
        split_ifs at hadd
        · cases hadd
          exact hkept
        · cases hadd
          exact hconcat
      · cases hadd
        exact hconcat
  exact hfold seen hseen

theorem over_ofMembers {h : Head} {unit : Term} (hne : h ≠ .declared) (hunit : unit.Over A)
    (hts : ∀ t ∈ ts, t.Over A) : (ofMembers h unit ts).Over A := by
  have hmembers : ∀ t ∈ ts.eraseDups, t.Over A := fun t ht => hts t (List.mem_eraseDups.1 ht)
  unfold ofMembers
  split
  · exact hunit
  · rename_i heq
    exact hmembers _ (by rw [heq]; exact .head _)
  · rename_i hnil _
    refine (over_app_of_ne hne fun hempty => ?_).2 fun t ht => hmembers t (mem_ordered.1 ht)
    obtain ⟨u, hu⟩ := List.exists_mem_of_ne_nil _ hnil
    exact absurd (mem_ordered.2 hu) (by rw [hempty]; exact List.not_mem_nil)

theorem staysOver_conj (hts : ∀ t ∈ ts, t.Over A) : (conj ts).StaysOver A := by
  unfold conj
  refine (yields_mapM fun t ht => staysOver_member (hts t ht)).bind fun ms hms => ?_
  refine yields_ite (yields_pure (.truth _)) ?_
  split
  · exact yields_pure (.truth _)
  · rename_i kept hkept
    refine yields_pure (over_ofMembers nofun (.truth _) fun t ht => ?_)
    have hmem := mem_ordered.1 (mem_of_mem_distinctMembers hkept t ht)
    exact over_of_mem_flatten hms t (List.mem_of_mem_filter hmem)

theorem staysOver_disj (hts : ∀ t ∈ ts, t.Over A) : (disj ts).StaysOver A := by
  unfold disj
  refine (yields_mapM fun t ht => staysOver_member (hts t ht)).bind fun ms hms => ?_
  split
  · exact yields_pure (.truth _)
  · rename_i kept hkept
    have hkept : ∀ t ∈ kept, t.Over A := fun t ht => hms t (mem_of_mem_distinctMembers hkept t ht)
    refine yields_ite (yields_pure (.truth _)) ?_
    refine yields_pure (over_ofMembers nofun (.truth _) fun t ht => ?_)
    exact over_of_mem_flatten hkept t (List.mem_of_mem_filter ht)

theorem staysOver_not (ht : t.Over A) : (not t).StaysOver A := by
  unfold not
  split
  · exact yields_fail _
  · exact yields_pure (.truth _)
  · exact yields_pure (.truth _)
  · exact yields_pure (.truth _)
  · exact yields_pure (.truth _)
  · exact yields_pure (.truth _)
  · exact yields_pure (.truth _)
  · exact yields_pure (ht.args _ (by simp))
  · rename_i r as
    obtain ⟨parts, -, args⟩ := over_app.1 ht
    exact yields_pure (.app parts nofun args)
  · exact yields_pure ((over_app_of_ne (by simp) (by simp)).2 (List.forall_mem_singleton.2 ht))

theorem over_of_mem_atoms (ht : t.Over A) : ∀ a ∈ atoms t, a.Over A := by
  induction t using args_induction with
  | step t ih =>
    intro a ha
    -- Either the statement is its own atom, or the atoms are those of its arguments.
    unfold atoms at ha
    split at ha
    · obtain ⟨s, hs, ha⟩ := World.mem_atomsList.1 ha
      exact ih s hs (ht.args s hs) a ha
    · obtain ⟨s, hs, ha⟩ := World.mem_atomsList.1 ha
      exact ih s hs (ht.args s hs) a ha
    · obtain ⟨s, hs, ha⟩ := World.mem_atomsList.1 ha
      exact ih s hs (ht.args s hs) a ha
    · exact List.mem_singleton.1 ha ▸ ht

theorem overAll_literals {flip : Bool} {c : Minimal.Cube} (hts : ∀ t ∈ ts, t.Over A) :
    (literals flip ts c).Yields fun ls => ∀ l ∈ ls, l.Over A := by
  refine yields_filterMapM ?_
  rintro ⟨a, v⟩ hav
  have ha := hts a (List.of_mem_zip hav).1
  cases v with
  | none => exact yields_pure nofun
  | some b =>
    refine yields_ite (yields_pure ?_) (Yields.map ?_)
    · rintro _ ⟨⟩
      exact ha
    · refine (staysOver_not ha).mono ?_
      rintro s hs _ ⟨⟩
      exact hs

theorem staysOver_minimal (ht : t.Over A) : (minimal t).StaysOver A := by
  have hindep : ∀ a ∈ orderedAtoms (independentAtoms t), a.Over A := fun a ha =>
    over_of_mem_atoms ht a ((World.orderedAtoms_spec t).1 ha)
  have hconj : ∀ c, (do conj (← literals false (orderedAtoms (independentAtoms t)) c)).StaysOver A :=
    fun c => (overAll_literals hindep).bind fun _ hls => staysOver_conj hls
  have hdisj : ∀ c, (do disj (← literals true (orderedAtoms (independentAtoms t)) c)).StaysOver A :=
    fun c => (overAll_literals hindep).bind fun _ hls => staysOver_disj hls
  have hconnective : ∀ c : Prop, [Decidable c] → ∀ ds cs : List Minimal.Cube,
      (if c then do disj (← ds.mapM fun c => do
            conj (← literals false (orderedAtoms (independentAtoms t)) c))
        else do conj (← cs.mapM fun c => do
            disj (← literals true (orderedAtoms (independentAtoms t)) c))).StaysOver A :=
    fun _ _ _ _ => yields_ite
      ((yields_mapM fun c _ => hconj c).bind fun _ hts => staysOver_disj hts)
      ((yields_mapM fun c _ => hdisj c).bind fun _ hts => staysOver_conj hts)
  unfold minimal
  split
  · exact hconnective _ _ _
  · exact hconnective _ _ _
  · exact hconnective _ _ _
  · exact yields_pure ht

theorem letters_of_mem_freeVariables (ht : t.Over A) : ∀ v ∈ t.freeVariables, A.letters v := by
  induction ht with
  | var h =>
    intro v hv
    exact List.mem_singleton.1 hv ▸ h
  | app _ _ _ ih =>
    intro v hv
    obtain ⟨a, ha, hv⟩ := mem_freeVariablesList.1 hv
    exact ih a ha v hv
  | _ => exact nofun

theorem over_of_mem_realVariables (ht : t.Over A) : ∀ x ∈ realVariables t, x.Over A := by
  intro x hx
  have hx := List.mem_eraseDups.1 (List.mem_of_mem_filter (mem_ordered.1 hx))
  obtain ⟨v, hv, rfl⟩ := List.mem_map.1 hx
  exact .var (letters_of_mem_freeVariables ht v hv)

abbrev Solves (A : Alphabet) (x : Outcome (Option Term)) : Prop := x.Yields fun s => ∀ t ∈ s, t.Over A

theorem solves_relate (r : Rel) (ha : a.Over A) (hb : b.Over A) :
    Solves A (some <$> relate r a b) := by
  refine Yields.map ((staysOver_relate r ha hb).mono ?_)
  rintro t ht _ ⟨⟩
  exact ht

theorem solves_none : Solves A (pure none) := yields_pure nofun

theorem solves_solveSingle (r : Rel) {x d : Term} (hx : x.Over A) (hd : d.Over A) :
    Solves A (solveSingle r x d) := by
  unfold solveSingle
  split
  · exact yields_ite (solves_relate r (.num _) (.num _))
      (yields_ite (solves_relate r (.num _) hx) (solves_relate r hx (.num _)))
  · extract_lets e monomial
    have he : e.Over A := over_expand hd
    clear_value e monomial
    split
    rename_i k rest hparts
    -- The number in front is left out.
    have hrest : rest.Over A := by
      split at hparts
      · cases hparts
        exact .num _
      · cases hparts
        exact over_ofSummands fun s hs => Over.args ‹_› s (List.mem_cons_of_mem _ hs)
      · cases hparts
        exact he
    refine yields_ite (yields_fail _) (yields_ite ?_ solves_none)
    refine solves_relate r (over_sum ?_) (.num _)
    simp only [List.forall_mem_map]
    exact fun s hs => over_scaleSummand _ (over_of_mem_summands hrest s hs)

theorem solves_solveSeveral (r : Rel) {xs : List Term} {d : Term} (hxs : ∀ x ∈ xs, x.Over A) :
    Solves A (solveSeveral r xs d) := by
  unfold solveSeveral
  split
  · rename_i cs k _
    extract_lets coeffs g parts
    have hparts : ∀ p ∈ parts, p.Over A := by
      refine List.forall_mem_map.2 ?_
      rintro ⟨x, c⟩ hxc
      obtain ⟨y, hy, heq⟩ := List.mem_map.1 (List.mem_of_mem_filter hxc)
      cases heq
      exact over_scaleSummand _ (hxs _ hy)
    clear_value g parts
    refine yields_ite (solves_relate r (.num _) (.num _)) (yields_ite ?_ ?_)
    · exact solves_relate r (over_sum hparts) (.num _)
    · split
      · exact solves_none
      · obtain ⟨hp, hps⟩ := List.forall_mem_cons.1 hparts
        exact solves_relate r hp (over_neg (over_sum hps))
  · exact solves_none

theorem staysOver_reduceComparison (ht : t.Over A) : (reduceComparison t).StaysOver A := by
  unfold reduceComparison
  split
  · rename_i r a b
    refine yields_ite (yields_pure ht) ?_
    refine yields_ite (staysOver_relate r (.num _) (.num _)) ?_
    extract_lets c choose
    have hc : c.Over A := over_canonical ht
    have hvars := over_of_mem_realVariables hc
    -- Whatever the comparison is solved to, the shorter form is kept.
    have hchoose : ∀ {x : Outcome (Option Term)}, Solves A x → (x >>= choose).StaysOver A := by
      refine fun hx => hx.bind fun solved hs => yields_pure ?_
      refine over_ite (over_canonical ?_) ht
      cases solved with
      | none => exact hc
      | some s => exact hs s rfl
    clear_value c choose
    split
    · rename_i r' a' b' hrel
      obtain ⟨ha', hb'⟩ := over_of_asRel? hc hrel
      refine yields_ite (hchoose solves_none) ?_
      split
      · exact hchoose solves_none
      · rename_i heq
        exact hchoose (solves_solveSingle r' (hvars _ (by simp [heq])) (over_sub ha' hb'))
      · exact hchoose (solves_solveSeveral r' hvars)
    · exact hchoose solves_none
  · exact yields_pure ht

theorem staysOver_reduceAtoms (ht : t.Over A) : (reduceAtoms t).StaysOver A := by
  induction t using args_induction with
  | step t ih =>
    unfold reduceAtoms
    split
    · rw [World.reduceAtomsList_eq_mapM]
      exact (yields_mapM fun a ha => ih a ha (ht.args a ha)).bind fun _ hts => staysOver_conj hts
    · rw [World.reduceAtomsList_eq_mapM]
      exact (yields_mapM fun a ha => ih a ha (ht.args a ha)).bind fun _ hts => staysOver_disj hts
    · exact (ih _ (by simp [args]) (ht.args _ (by simp))).bind fun _ ha => staysOver_not ha
    · exact staysOver_reduceComparison ht

theorem staysOver_minimalReduced (ht : t.Over A) : (minimalReduced t).StaysOver A :=
  (staysOver_reduceAtoms ht).bind fun _ hs => staysOver_minimal hs

theorem staysOver_reduced (ht : t.Over A) : (reduced t).StaysOver A := by
  unfold reduced
  split
  · exact staysOver_reduceComparison ht
  · exact staysOver_minimalReduced ht
  · exact staysOver_minimalReduced ht
  · exact staysOver_minimalReduced ht
  · exact yields_pure ht

end Statement

namespace Term

variable {greatest : Bool}

theorem over_extremum : (app (extremumHead greatest) ts).Over A ↔ ∀ t ∈ ts, t.Over A :=
  over_quantity (by cases greatest <;> rfl)

theorem over_rawExtremum (hts : ∀ t ∈ ts, t.Over A) : (rawExtremum greatest ts).Over A := by
  unfold rawExtremum
  split
  · exact hts _ (by simp)
  · exact over_extremum.2 fun t ht => hts t (mem_ordered.1 ht)

theorem over_absorbInto (ha : a.Over A) (ht : t.Over A) : (absorbInto greatest a t).Over A := by
  unfold absorbInto
  split
  · rename_i h as
    have hrest : (rawExtremum greatest (as.filter (· ≠ a))).Over A :=
      over_rawExtremum fun s hs => ht.args s (List.mem_of_mem_filter hs)
    exact over_ite (over_ite hrest ht) (over_ite (over_ite ha ht) ht)
  · exact ht

theorem over_of_mem_absorbAll {n : Nat} (hts : ∀ t ∈ ts, t.Over A) :
    ∀ t ∈ absorbAll greatest n ts, t.Over A := by
  fun_induction absorbAll greatest n ts with
  | case1 => exact hts
  | case2 => exact hts
  | case3 n a as ih =>
    obtain ⟨ha, has⟩ := List.forall_mem_cons.1 hts
    refine List.forall_mem_cons.2 ⟨ha, ih ?_⟩
    exact List.forall_mem_map.2 fun t ht => over_absorbInto ha (has t ht)

theorem over_of_mem_args (ht : t.Over A) : ∀ a ∈ t.args, a.Over A := by
  cases t with
  | app h as => exact ht.args
  | _ => exact nofun

theorem over_of_mem_joinShared (hts : ∀ t ∈ ts, t.Over A) : ∀ t ∈ joinShared greatest ts, t.Over A := by
  unfold joinShared
  extract_lets isOpposite
  split
  · rename_i first second rest heq
    have hall : ∀ t ∈ first :: second :: rest, t.Over A := fun t ht =>
      hts t (List.mem_of_mem_filter (heq ▸ ht))
    extract_lets all common differences joined
    have hargs : ∀ t ∈ all, ∀ s ∈ t.args, s.Over A := fun t ht => over_of_mem_args (hall t ht)
    have hcommon : ∀ s ∈ common, s.Over A := fun s hs =>
      hargs first (by simp [all]) s (List.mem_of_mem_filter hs)
    have hdifferences : ∀ t ∈ differences, t.Over A :=
      List.forall_mem_map.2 fun t ht => over_rawExtremum fun s hs =>
        hargs t ht s (List.mem_of_mem_filter hs)
    have hjoined : joined.Over A :=
      over_ite (over_rawExtremum hcommon)
        (over_rawExtremum (over_concat hcommon (over_rawExtremum hdifferences)))
    split
    · exact hts
    · exact over_concat (fun t ht => hts t (List.mem_of_mem_filter ht)) hjoined
  · exact hts

theorem mem_of_mem_dropDominated (ht : t ∈ dropDominated greatest ts) : t ∈ ts := by
  unfold dropDominated at ht
  split at ht
  · exact ht
  · exact List.mem_of_mem_filter ht

theorem over_of_mem_addContender (hts : ∀ t ∈ ts, t.Over A) (ha : a.Over A) :
    ∀ t ∈ addContender greatest ts a, t.Over A := by
  unfold addContender
  extract_lets loses rest
  split
  · exact hts
  · exact over_concat (fun t ht => hts t (List.mem_of_mem_filter ht)) ha

theorem staysOver_extremum (hts : ∀ t ∈ ts, t.Over A) : (extremum greatest ts).StaysOver A := by
  unfold extremum
  refine yields_bind fun _ => ?_
  extract_lets flat top bottom distinct kept best
  have hflat : ∀ t ∈ flat, t.Over A := Statement.over_of_mem_flatten hts
  have hdistinct : ∀ t ∈ distinct, t.Over A := fun t ht =>
    hflat t (List.mem_of_mem_filter (List.mem_eraseDups.1 (mem_ordered.1 ht)))
  have hkept : ∀ t ∈ kept, t.Over A := by
    refine over_of_mem_joinShared fun t ht => ?_
    refine over_of_mem_absorbAll ?_ t (List.mem_eraseDups.1 ht)
    exact fun s hs => hdistinct s (mem_of_mem_dropDominated hs)
  have hbest : ∀ t ∈ best, t.Over A :=
    List.foldlRecOn (motive := fun best : List Term => ∀ t ∈ best, t.Over A) kept _
      (List.forall_mem_nil _) fun _ hbest t ht => over_of_mem_addContender hbest (hkept t ht)
  clear_value best
  refine yields_ite (yields_pure (.special _)) (yields_pure ?_)
  split
  · exact .special _
  · exact hbest _ (by simp)
  · exact over_extremum.2 fun t ht => hbest t (mem_ordered.1 ht)

end Term
end Majorant
