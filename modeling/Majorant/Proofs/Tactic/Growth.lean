import Majorant.Proofs.Growth.Hyperreal
import Majorant.Proofs.Growth.Sized
import Majorant.Proofs.Statement.World
import Majorant.Proofs.Tactic.Linear
import Majorant.Proofs.Tactic.LogLinear
import Majorant.Tactic.Run

/-!
# Log-linear arithmetic in ordered fields

The comparisons that the hypotheses give hold between rates of growth, so multipliers that refute every choice
leave no room for the negation of the goal, unless a lower bound has been read with its sides exchanged.
-/

namespace Majorant
open Term Proof Linear Magnitude Growth Tactic

variable {K : Type} [Field K] [LinearOrder K]

namespace Regime

/-- A lower bound between two positive quantities that is not an upper bound up to constants. -/
structure Misread (ρ : Regime K) (r : Rel) (a b : Term) : Prop where
  lower : r = .ge ∨ r = .gt
  left : a.is .positive = true
  right : b.is .positive = true
  relates : ρ.Relates r a b
  exceeds : ¬ Dominated (ρ.val a) (ρ.val b)

/-- **The exception**: a hypothesis, or the negation of the goal, is such a lower bound. -/
def Misreads (ρ : Regime K) (s : State) : Prop :=
  ∃ r a b, (app (.rel r) [a, b] ∈ s.context.hypotheses ∨ s.goal = app (.rel r.negate) [a, b]) ∧
    ρ.Misread r a b

/-- The sides of a comparison can be read: both are orders, or both are real terms, unless they are of
different sorts. -/
def Reads (ρ : Regime K) (t : Term) : Prop :=
  ∀ r a b, t = app (.rel r) [a, b] →
    (a.isOrder = true → b.isOrder = true → ρ.Sized a ∧ ρ.Sized b) ∧
      (a.isOrder = false → b.isOrder = false → ρ.Valued a ∧ ρ.Valued b)

variable [IsStrictOrderedRing K]

/-- An inequality is about rates: its unknowns are orders that have a value, and its right side is zero. -/
structure Formed (ρ : Regime K) (i : LogInequality) : Prop where
  rhs : i.rhs = 0
  nodup : i.unknowns.Nodup
  sized : ∀ k ∈ i.unknowns, ρ.Sized k

/-- **An inequality between rates holds.** -/
def Satisfies (ρ : Regime K) (i : LogInequality) : Prop :=
  i.sense.Compares (i.valueOver fun k => rate (ρ.val k)) 0

/-- A disjunction of inequalities between rates, one of which holds. -/
def Sound (ρ : Regime K) (l : List LogInequality) : Prop :=
  (∀ i ∈ l, ρ.Formed i) ∧ ∃ i ∈ l, ρ.Satisfies i

variable {ρ : Regime K} {a b c k m t : Term} {r : Rel} {i : LogInequality} {as hyps : List Term}
  {s : State}

theorem formed_monomials (hroots : HasRoots K) (hm : ρ.Sized m) (g : Sense) :
    ρ.Formed ⟨monomials m, g, 0⟩ :=
  ⟨rfl, nodup_monomials m, ((sizing hroots ρ).eq_weigh hm).1⟩

theorem satisfies_monomials (hroots : HasRoots K) (hm : ρ.Sized m) (g : Sense) :
    ρ.Satisfies ⟨monomials m, g, 0⟩ ↔ g.Compares (rate (ρ.val m)) 0 := by
  rw [← ((sizing hroots ρ).eq_weigh hm).2]
  rfl

theorem eq_of_logInequality (hdiv : Operation.div a b = pure m)
    (hi : (logInequality (app (.rel r) [a, b])).result = .ok i) :
    ∃ g, senseOf? r = some g ∧ i = ⟨monomials m, g, 0⟩ := by
  have hto : toInequality (app (.rel r) [a, b]) =
      pure ((senseOf? r).map fun g => ⟨monomials m, g, 0⟩) := by
    simp only [toInequality, asRel?]
    rw [hdiv, pure_bind]
  unfold logInequality at hi
  rw [hto, pure_bind] at hi
  cases hg : senseOf? r with
  | none =>
    rw [hg] at hi
    cases hi
  | some g =>
    rw [hg] at hi
    exact ⟨g, rfl, (Except.ok.inj hi).symm⟩

/-- **A comparison of orders becomes an inequality between their rates.** -/
theorem formed_of_orders (hroots : HasRoots K) (ha : ρ.Sized a) (hb : ρ.Sized b)
    (hi : (logInequality (app (.rel r) [a, b])).result = .ok i) :
    ρ.Formed i ∧ (ρ.Satisfies i ↔ r.Compares (rate (ρ.val a)) (rate (ρ.val b))) := by
  obtain ⟨g, hg, rfl⟩ := eq_of_logInequality ((sizing hroots ρ).div_eq ha hb) hi
  obtain ⟨hsized, hrate⟩ := (sizing hroots ρ).quotient ha hb
  refine ⟨formed_monomials hroots hsized g, ?_⟩
  rw [satisfies_monomials hroots hsized, hrate, Rel.compares_of_senseOf hg, Rel.compares_sub]

theorem formed_of_one (hroots : HasRoots K) (hk : ρ.Sized k)
    (hi : (logInequality (app (.rel r) [k, one])).result = .ok i) :
    ρ.Formed i ∧ (ρ.Satisfies i ↔ r.Compares (rate (ρ.val k)) 0) := by
  obtain ⟨g, hg, rfl⟩ := eq_of_logInequality ((sizing hroots ρ).div_one hk) hi
  have hfactors : ∀ t ∈ [k, unit], ρ.Sized t :=
    List.forall_mem_cons.2 ⟨hk, List.forall_mem_singleton.2 sized_unit⟩
  obtain ⟨hsized, hrate⟩ := (sizing hroots ρ).times hfactors
  have hsum : ([k, unit].map fun t => rate (ρ.val t)).sum = rate (ρ.val k) := by
    simp [(sizing hroots ρ).size_unit]
  refine ⟨formed_monomials hroots hsized g, ?_⟩
  rw [satisfies_monomials hroots hsized, hrate, hsum, Rel.compares_of_senseOf hg]

omit [IsStrictOrderedRing K] in
theorem logInequality_of_relate (ha : ofLiteral a = pure a) (hb : ofLiteral b = pure b)
    (hi : (Statement.relate r a b >>= logInequality).result = .ok i) :
    (logInequality (app (.rel r) [a, b])).result = .ok i := by
  obtain ⟨c, hc, hi⟩ := Outcome.result_bind_eq_ok.1 hi
  rcases Statement.relate_cases ha hb hc with rfl | ⟨v, rfl⟩
  · exact hi
  · cases hi

/-- A comparison of orders that holds, or one that was settled on the spot. -/
def Confirms (ρ : Regime K) (c : Term) : Prop :=
  (∃ r a b, c = app (.rel r) [a, b] ∧ ρ.Sized a ∧ ρ.Sized b ∧
    r.Compares (rate (ρ.val a)) (rate (ρ.val b))) ∨ ∃ v, c = truth v

theorem Confirms.sound (hroots : HasRoots K) (hc : ρ.Confirms c)
    (hi : (logInequality c).result = .ok i) : ρ.Sound [i] := by
  rcases hc with ⟨r, a, b, rfl, ha, hb, hcompares⟩ | ⟨v, rfl⟩
  · obtain ⟨hformed, hiff⟩ := formed_of_orders hroots ha hb hi
    exact ⟨List.forall_mem_singleton.2 hformed, i, List.mem_cons_self, hiff.2 hcompares⟩
  · cases hi

theorem confirms_of_relate (ha : ρ.Sized a) (hb : ρ.Sized b)
    (hcompares : r.Compares (rate (ρ.val a)) (rate (ρ.val b)))
    (hc : (Statement.relate r a b).result = .ok c) : ρ.Confirms c :=
  (Statement.relate_cases ha.ofLiteral hb.ofLiteral hc).imp_left
    fun heq => ⟨r, a, b, heq, ha, hb, hcompares⟩

omit [IsStrictOrderedRing K] in
theorem theta_of_valued (ha : ρ.Valued a) (hpos : a.is .positive = true) :
    theta a = pure (ofPositive a) := by
  have heq : theta a = if a.evades then .fail .unanswerable
      else if a.isOrder then pure a
      else if a.is .positive then pure (ofPositive a)
      else warn a.text := by
    cases ha <;> rfl
  rw [heq, ha.evades, ha.isOrder, hpos]
  rfl

theorem confirms_declared (hroots : HasRoots K) (hsigns : ρ.SignsRight (app .declared [t]))
    (hholds : ρ.Holds (app .declared [t]))
    (hc : (asymptotic? (app .declared [t])).result = .ok (some c)) : ρ.Confirms c := by
  simp only [asymptotic?] at hc
  split at hc
  · next hwhole =>
    rw [Bool.and_eq_true] at hwhole
    obtain ⟨ht, hone⟩ : ρ.Valued t ∧ 1 ≤ ρ.val t := hholds hwhole.1 hwhole.2
    obtain ⟨hsized, hrate⟩ :=
      ofPositive_spec hroots ht (hsigns.of_mem List.mem_cons_self) hwhole.1
    rw [theta_of_valued ht hwhole.1, pure_bind] at hc
    obtain ⟨c', hc', heq⟩ := Outcome.result_bind_eq_ok.1 hc
    cases heq
    refine confirms_of_relate hsized sized_unit ?_ hc'
    rw [hrate, (sizing hroots ρ).size_unit, ← rate_one]
    exact rate_mono one_pos hone
  · cases hc

/-- Two positive quantities compare up to constants, if a lower bound is an upper bound as well. -/
theorem confirms_positive (hroots : HasRoots K) (hsa : ρ.SignsRight a) (hsb : ρ.SignsRight b)
    (hpa : a.is .positive = true) (hpb : b.is .positive = true) (hrelates : ρ.Relates r a b)
    (ha : ρ.Valued a) (hb : ρ.Valued b)
    (hlower : r = .ge ∨ r = .gt → Dominated (ρ.val a) (ρ.val b))
    (hc : (positiveAsymptotic? r a b).result = .ok (some c)) : ρ.Confirms c := by
  obtain ⟨hsizeda, hratea⟩ := ofPositive_spec hroots ha hsa hpa
  obtain ⟨hsizedb, hrateb⟩ := ofPositive_spec hroots hb hsb hpb
  have hposa := hsa.pos ha hpa
  have hposb := hsb.pos hb hpb
  have hcompares := ((relates_of_reals ha.isOrder hb.isOrder).1 hrelates).2.2
  have hle : ρ.val a ≤ ρ.val b →
      (Statement.relate .le (ofPositive a) (ofPositive b)).result = .ok c → ρ.Confirms c := by
    intro hle
    refine confirms_of_relate hsizeda hsizedb ?_
    rw [hratea, hrateb]
    exact rate_mono hposa hle
  -- the sides of a lower bound are exchanged, and the relation is not
  have hge : Dominated (ρ.val a) (ρ.val b) →
      (Statement.relate .ge (ofPositive b) (ofPositive a)).result = .ok c → ρ.Confirms c := by
    intro hdominated
    refine confirms_of_relate hsizedb hsizeda ?_
    rw [hratea, hrateb]
    exact (rate_le_iff hposa hposb).2 hdominated
  cases r <;> simp only [positiveAsymptotic?, theta_of_valued ha hpa, theta_of_valued hb hpb,
    pure_bind] at hc
  case eq => cases hc
  case ne => cases hc
  all_goals
    obtain ⟨c', hc', heq⟩ := Outcome.result_bind_eq_ok.1 hc
    cases heq
  case le => exact hle hcompares hc'
  case lt => exact hle (le_of_lt hcompares) hc'
  case ge => exact hge (hlower (.inl rfl)) hc'
  case gt => exact hge (hlower (.inr rfl)) hc'

/-- **What a comparison gives** holds between rates, unless it is a lower bound that is misread. -/
theorem confirms_rel (hroots : HasRoots K) (hsigns : ∀ u ∈ [a, b], ρ.SignsRight u)
    (hrelates : a.isOrder = b.isOrder → ρ.Relates r a b) (hread : ¬ ρ.Misread r a b)
    (hc : (asymptotic? (app (.rel r) [a, b])).result = .ok (some c)) : ρ.Confirms c := by
  obtain ⟨hsa, hsb⟩ := List.forall_mem_cons.1 hsigns
  rw [List.forall_mem_singleton] at hsb
  simp only [asymptotic?] at hc
  cases horda : a.isOrder <;> cases hordb : b.isOrder <;>
    simp only [horda, hordb, Bool.and_self, Bool.and_false, Bool.false_and, Bool.false_eq_true,
      if_true, if_false] at hc
  · -- two real terms
    have hrel := hrelates (by rw [horda, hordb])
    obtain ⟨ha, hb, -⟩ := (relates_of_reals horda hordb).1 hrel
    rw [ha.evades, hb.evades, if_neg (by decide)] at hc
    split at hc
    · next hpositive =>
      rw [Bool.and_eq_true] at hpositive
      refine confirms_positive hroots hsa hsb hpositive.1 hpositive.2 hrel ha hb (fun hlower => ?_) hc
      by_contra hexceeds
      exact hread ⟨hlower, hpositive.1, hpositive.2, hrel, hexceeds⟩
    · cases hc
  · cases hc
  · cases hc
  · -- two orders
    obtain ⟨ha, hb, hbounds⟩ := (relates_of_orders horda hordb).1 (hrelates (by rw [horda, hordb]))
    split at hc
    · cases hc
    · cases hc
      exact .inl ⟨r, a, b, rfl, ha, hb, (Rel.bounds_iff (ha.pos hroots) (hb.pos hroots) r).1 hbounds⟩

omit [Field K] [LinearOrder K] [IsStrictOrderedRing K] in
theorem asymptotic?_cases (hc : (asymptotic? t).result = .ok (some c)) :
    (∃ u, t = app .declared [u]) ∨ ∃ r a b, t = app (.rel r) [a, b] := by
  unfold asymptotic? at hc
  split at hc
  · exact .inl ⟨_, rfl⟩
  · exact .inr ⟨_, _, _, rfl⟩
  · cases hc

omit [Field K] [LinearOrder K] [IsStrictOrderedRing K] in
theorem mem_logHypotheses {hs : List Term} (hhs : (logHypotheses s).result = .ok hs) (ht : t ∈ hs) :
    t ∈ s.context.hypotheses ∨
      ∃ r a b, s.goal = app (.rel r.negate) [a, b] ∧ t = app (.rel r) [a, b] := by
  have hfilter : ∀ {u},
      u ∈ (s.context.hypotheses.filter fun h => h.isRel || isDeclaration h).eraseDups →
      u ∈ s.context.hypotheses := fun hu => (List.mem_filter.1 (List.mem_eraseDups.1 hu)).1
  unfold logHypotheses at hhs
  split at hhs
  · next hgoal =>
    obtain ⟨r, a, b, hgoal⟩ := exists_of_isRel hgoal
    rw [hgoal] at hhs
    cases hhs
    rcases mem_insertTerm.1 ht with ht | rfl
    · exact .inl (hfilter ht)
    · exact .inr ⟨r.negate, a, b, by rw [hgoal, Rel.negate_negate], rfl⟩
  · cases hhs
    exact .inl (hfilter ht)

theorem Reads.relates_of_not (hroots : HasRoots K) (hgoal : ρ.Reads (app (.rel r.negate) [a, b]))
    (hfail : ¬ ρ.Relates r.negate a b) (hsame : a.isOrder = b.isOrder) : ρ.Relates r a b := by
  obtain ⟨horders, hreals⟩ := hgoal _ _ _ rfl
  cases ha : a.isOrder with
  | true =>
    have hb : b.isOrder = true := hsame ▸ ha
    obtain ⟨hsa, hsb⟩ := horders ha hb
    rw [relates_of_orders ha hb] at hfail ⊢
    rw [Rel.bounds_iff (hsa.pos hroots) (hsb.pos hroots), Rel.compares_negate] at hfail
    rw [Rel.bounds_iff (hsa.pos hroots) (hsb.pos hroots)]
    exact ⟨hsa, hsb, by_contra fun hnot => hfail ⟨hsa, hsb, hnot⟩⟩
  | false =>
    have hb : b.isOrder = false := hsame ▸ ha
    obtain ⟨hva, hvb⟩ := hreals ha hb
    rw [relates_of_reals ha hb] at hfail ⊢
    rw [Rel.compares_negate] at hfail
    exact ⟨hva, hvb, by_contra fun hnot => hfail ⟨hva, hvb, hnot⟩⟩

/-- A regime in which the hypotheses of a state hold and its goal fails, all of them being read rightly. -/
structure Refuting (ρ : Regime K) (s : State) : Prop where
  reads : ρ.Reads s.goal
  signs : ∀ t, t ∈ s.context.hypotheses ∨ t = s.goal → ρ.SignsRight t
  holds : ∀ t ∈ s.context.hypotheses, ρ.Holds t
  fails : ¬ ρ.Holds s.goal
  exact : ¬ ρ.Misreads s

/-- **The comparisons of orders** that are found hold between rates. -/
theorem Refuting.confirms (hroots : HasRoots K) (h : ρ.Refuting s) {hs : List Term}
    (hhs : (logHypotheses s).result = .ok hs) (ht : t ∈ hs)
    (hc : (asymptotic? t).result = .ok (some c)) : ρ.Confirms c := by
  rcases mem_logHypotheses hhs ht with ht | ⟨r, a, b, hgoal, rfl⟩
  · rcases asymptotic?_cases hc with ⟨u, rfl⟩ | ⟨r, a, b, rfl⟩
    · exact confirms_declared hroots (h.signs _ (.inl ht)) (h.holds _ ht) hc
    · refine confirms_rel hroots (fun u hu => (h.signs _ (.inl ht)).of_mem hu) (fun _ => h.holds _ ht)
        (fun hmis => ?_) hc
      exact h.exact ⟨r, a, b, .inl ht, hmis⟩
  · have hsigns := h.signs s.goal (.inr rfl)
    have hreads := h.reads
    have hfails := h.fails
    rw [hgoal] at hsigns hreads hfails
    refine confirms_rel hroots (fun u hu => hsigns.of_mem hu) (hreads.relates_of_not hroots hfails)
      (fun hmis => ?_) hc
    exact h.exact ⟨r, a, b, .inr hgoal, hmis⟩

/-- **An extremum is tied to its arguments**: it bounds all of them and is one of them. -/
theorem sound_extremum (hroots : HasRoots K) {h : Head} (hh : h = .orderMax ∨ h = .orderMin)
    (hm : ρ.Sized (app h as)) {ls : List (List LogInequality)}
    (hls : (extremumDisjunctions (side h) (app h as)).result = .ok ls) : ∀ l ∈ ls, ρ.Sound l := by
  obtain ⟨hne, has⟩ := hm.of_extremum hh
  have hextreme := isExtremal_rate (List.forall_mem_map.2 fun a ha => (has a ha).pos hroots)
    (extremes_val hh ρ _ hne)
  rw [List.map_map] at hextreme
  have hcompare : ∀ {a g i}, a ∈ as →
      (Statement.relate g a (app h as) >>= logInequality).result = .ok i → ρ.Formed i ∧
        (ρ.Satisfies i ↔ g.Compares (rate (ρ.val a)) (rate (ρ.val (app h as)))) := fun ha hi =>
    formed_of_orders hroots (has _ ha) hm (logInequality_of_relate (has _ ha).ofLiteral hm.ofLiteral hi)
  obtain ⟨bounds, hbounds, hls⟩ := Outcome.result_bind_eq_ok.1 hls
  obtain ⟨attained, hattained, hls⟩ := Outcome.result_bind_eq_ok.1 hls
  cases hls
  intro l hl
  rcases List.mem_append.1 hl with hl | hl
  · obtain ⟨i, hi, rfl⟩ := List.mem_map.1 hl
    obtain ⟨a, ha, hi⟩ := Outcome.exists_of_mem_mapM hbounds hi
    obtain ⟨hformed, hiff⟩ := hcompare ha hi
    exact ⟨List.forall_mem_singleton.2 hformed, i, List.mem_cons_self,
      hiff.2 (hextreme.1 _ (List.mem_map_of_mem ha))⟩
  · rw [List.mem_singleton.1 hl]
    refine ⟨fun i hi => ?_, ?_⟩
    · obtain ⟨a, ha, hi⟩ := Outcome.exists_of_mem_mapM hattained hi
      exact (hcompare ha hi).1
    · obtain ⟨a, ha, heq⟩ := List.mem_map.1 hextreme.2
      obtain ⟨i, hi, hok⟩ := Outcome.exists_mem_of_mapM hattained ha
      exact ⟨i, hi, (hcompare ha hok).2.2 heq⟩

/-- **A fixed order is that of a constant**, and a bounded one is at most that. -/
theorem sound_size (hroots : HasRoots K) (hholds : ∀ t ∈ hyps, ρ.Holds t) (hk : ρ.Sized k)
    {l : List LogInequality} (hl : (sizeDisjunction? hyps k).result = .ok (some l)) : ρ.Sound l := by
  have hone : ∀ {g}, g.Compares (rate (ρ.val k)) 0 →
      (do return some [← logInequality (← Statement.relate g k one)]).result = .ok (some l) →
      ρ.Sound l := by
    intro g hcompares hl
    obtain ⟨c, hc, hl⟩ := Outcome.result_bind_eq_ok.1 hl
    obtain ⟨i, hi, hl⟩ := Outcome.result_bind_eq_ok.1 hl
    cases hl
    obtain ⟨hformed, hiff⟩ := formed_of_one hroots hk
      (logInequality_of_relate hk.ofLiteral rfl (Outcome.result_bind_eq_ok.2 ⟨c, hc, hi⟩))
    exact ⟨List.forall_mem_singleton.2 hformed, i, List.mem_cons_self, hiff.2 hcompares⟩
  unfold sizeDisjunction? at hl
  split at hl
  · next hfixed =>
    refine hone ?_ hl
    have hbounds := (fixed_of_isFixed hroots hholds hfixed).2 hk
    rwa [Rel.bounds_iff (hk.pos hroots) one_pos, rate_one] at hbounds
  · split at hl
    · next hbounded =>
      refine hone ?_ hl
      have hbounds := (bounded_of_isBounded hroots hholds hbounded).2 hk
      rwa [Rel.bounds_iff (hk.pos hroots) one_pos, rate_one] at hbounds
    · cases hl

omit [IsStrictOrderedRing K] in
theorem sized_of_enters {g : Head} (hg : ρ.Sized (app g as)) (henters : entersExtrema g = true) :
    ∀ a ∈ as, ρ.Sized a := by
  cases hg with
  | product has => exact has
  | extremum _ _ has => exact has
  | _ => cases henters

theorem Confirms.of_mem_extrema {h : Head} (hh : h = .orderMax ∨ h = .orderMin) (hc : ρ.Confirms c)
    (hm : m ∈ extrema h c) : ∃ as, m = app h as ∧ ρ.Sized (app h as) := by
  rcases hc with ⟨r, a, b, rfl, ha, hb, -⟩ | ⟨v, rfl⟩
  · have hlist : m ∈ extremaList h [a, b] := by
      rcases hh with rfl | rfl <;> simpa [extrema, entersExtrema] using hm
    obtain ⟨u, hu, hmu⟩ := mem_extremaList.1 hlist
    have hsized : ρ.Sized u :=
      List.forall_mem_cons.2 ⟨ha, List.forall_mem_singleton.2 hb⟩ u hu
    have hbase : ∀ {b cs}, ρ.Sized (app .orderPow (b :: cs)) → ρ.Sized b := by
      intro b cs hpow
      obtain ⟨_, _, heq, hb⟩ := hpow.of_power
      cases heq
      exact hb
    obtain ⟨as, rfl, has⟩ := Magnitude.of_mem_extrema sized_of_enters hbase hsized hmu
    exact ⟨as, rfl, has⟩
  · cases hm

theorem sound_extrema (hroots : HasRoots K) {h : Head} (hh : h = .orderMax ∨ h = .orderMin)
    {cs ms : List Term} {fs : List (List (List LogInequality))} (hcs : ∀ c ∈ cs, ρ.Confirms c)
    (hms : ∀ m ∈ ms, ∃ c ∈ cs, m ∈ extrema h c)
    (hfs : (ms.mapM (extremumDisjunctions (side h))).result = .ok fs) :
    ∀ l ∈ fs.flatten, ρ.Sound l := by
  intro l hl
  obtain ⟨ls, hls, hl⟩ := List.mem_flatten.1 hl
  obtain ⟨m, hm, hls⟩ := Outcome.exists_of_mem_mapM hfs hls
  obtain ⟨c, hc, hm⟩ := hms m hm
  obtain ⟨as, rfl, hsized⟩ := (hcs c hc).of_mem_extrema hh hm
  exact sound_extremum hroots hh hsized hls l hl

/-- **Each disjunction has a member that holds.** -/
theorem Refuting.sound (hroots : HasRoots K) (h : ρ.Refuting s) {splitExtrema : Bool}
    {lists : List (List LogInequality)}
    (hlists : (disjunctions splitExtrema s).result = .ok lists) : ∀ l ∈ lists, ρ.Sound l := by
  obtain ⟨hs, hhs, hlists⟩ := Outcome.result_bind_eq_ok.1 hlists
  obtain ⟨found, hfound, hlists⟩ := Outcome.result_bind_eq_ok.1 hlists
  obtain ⟨direct, hdirect, hlists⟩ := Outcome.result_bind_eq_ok.1 hlists
  obtain ⟨above, habove, hlists⟩ := Outcome.result_bind_eq_ok.1 hlists
  obtain ⟨below, hbelow, hlists⟩ := Outcome.result_bind_eq_ok.1 hlists
  obtain ⟨sizes, hsizes, hlists⟩ := Outcome.result_bind_eq_ok.1 hlists
  cases hlists
  have hconfirms : ∀ c ∈ found.filterMap id, ρ.Confirms c := by
    intro c hc
    obtain ⟨o, ho, heq⟩ := List.mem_filterMap.1 hc
    cases heq
    obtain ⟨t, ht, hc⟩ := Outcome.exists_of_mem_mapM hfound ho
    exact h.confirms hroots hhs ht hc
  have hall : ∀ l ∈ direct ++ above.flatten ++ below.flatten, ρ.Sound l := by
    intro l hl
    rcases List.mem_append.1 hl with hl | hl
    · rcases List.mem_append.1 hl with hl | hl
      · obtain ⟨c, hc, hl⟩ := Outcome.exists_of_mem_mapM hdirect hl
        obtain ⟨i, hi, hl⟩ := Outcome.result_bind_eq_ok.1 hl
        cases hl
        exact (hconfirms c hc).sound hroots hi
      · refine sound_extrema hroots (.inl rfl) hconfirms (fun m hm => ?_) habove l hl
        cases splitExtrema with
        | true => simpa [maxima] using hm
        | false => cases hm
    · refine sound_extrema hroots (.inr rfl) hconfirms (fun m hm => ?_) hbelow l hl
      cases splitExtrema with
      | true => simpa [minima] using hm
      | false => cases hm
  intro l hl
  rcases List.mem_append.1 hl with hl | hl
  · exact hall l hl
  · obtain ⟨o, ho, heq⟩ := List.mem_filterMap.1 hl
    cases heq
    obtain ⟨k, hk, hl⟩ := Outcome.exists_of_mem_mapM hsizes ho
    obtain ⟨i, hi, hk⟩ := mem_allUnknowns.1 hk
    obtain ⟨l', hl', hi⟩ := List.mem_flatten.1 hi
    exact sound_size hroots h.holds (((hall l' hl').1 i hi).sized k hk) hl

theorem not_refutable {is : List LogInequality} (h : ∀ i ∈ is, ρ.Formed i ∧ ρ.Satisfies i) :
    ¬ Refutable is := by
  rintro ⟨ms, hms⟩
  have hkeys : ∀ i ∈ is, i.unknowns.Nodup := fun i hi => (h i hi).1.nodup
  exact (refutes_of_feasibility hkeys hms).not_compares_zero hkeys (fun i hi => (h i hi).1.rhs)
    (fun k => rate (ρ.val k)) fun i hi => (h i hi).2

end Regime

namespace Tactic

variable [IsStrictOrderedRing K]

/-- **Log-linear arithmetic is sound in ordered fields**: a goal that it proves holds in every regime in
which the hypotheses hold, unless a lower bound between positive quantities is misread there.  The answers
about signs have to be right, and the sides of the goal have to have values. -/
theorem logLinear_sound (hroots : HasRoots K) (ρ : Regime K) {s : State} {verbose splitExtrema : Bool}
    (hrun : ((logLinear verbose splitExtrema).run s).result = .ok [])
    (hreads : ρ.Reads s.goal)
    (hsigns : ∀ t, t ∈ s.context.hypotheses ∨ t = s.goal → ρ.SignsRight t)
    (hholds : ∀ t ∈ s.context.hypotheses, ρ.Holds t) : ρ.Holds s.goal ∨ ρ.Misreads s := by
  by_contra hnot
  rw [not_or] at hnot
  have h : ρ.Refuting s := ⟨hreads, hsigns, hholds, hnot.1, hnot.2⟩
  have hopen : IsOpen s := by
    refine ⟨fun hbot => ?_, fun htop => hnot.1 ?_⟩
    · have hfalse := hholds bot (List.mem_of_mem_filter hbot)
      cases hfalse
    · rw [htop]
      rfl
  obtain ⟨lists, hlists⟩ := exists_disjunctions hopen hrun
  have hrefuted := (logLinearOf_eq_nil_iff hopen hlists).1 hrun
  obtain ⟨c, hc, hall⟩ := exists_mem_choices_iff (P := fun i => ρ.Formed i ∧ ρ.Satisfies i).2
    fun l hl => by
      obtain ⟨hformed, i, hi, hsat⟩ := h.sound hroots hlists l hl
      exact ⟨i, hi, hformed i hi, hsat⟩
  exact Regime.not_refutable hall (hrefuted c hc)

def bounded : Variable := ⟨"x", .posReal⟩

def scale : Variable := ⟨"y", .posReal⟩

/-- The quantity `x + 1` compares with `y` as given, and the goal is that `x` is of at most the order of
`y`. -/
def boundState (r : Rel) : State :=
  ⟨app (.rel .le) [app .theta [var bounded], app .theta [var scale]],
    [("x", declare bounded), ("y", declare scale),
      ("h", app (.rel r) [app .add [num 1, var bounded], var scale])]⟩

section BoundState

variable {ρ : Regime K} {r : Rel}

omit [IsStrictOrderedRing K] in
theorem sized_theta_var {v : Variable} (hv : v.kind = .posReal) : ρ.Sized (app .theta [var v]) := by
  have hfits := ρ.fits v
  rw [hv] at hfits
  exact .theta (.var (by rw [hv]; rfl)) (by rwa [Regime.val_var])

omit [IsStrictOrderedRing K] in
theorem reads_boundState : ρ.Reads (boundState r).goal := by
  rintro _ _ _ ⟨⟩
  exact ⟨fun _ _ => ⟨sized_theta_var rfl, sized_theta_var rfl⟩, nofun⟩

theorem signsRight_boundState (hroots : HasRoots K) :
    ∀ t, t ∈ (boundState r).context.hypotheses ∨ t = (boundState r).goal → ρ.SignsRight t := by
  have hx : Regime.Posynomial (var bounded) := .var (by decide)
  have hy : Regime.Posynomial (var scale) := .var (by decide)
  have hsum : Regime.Posynomial (app .add [num 1, var bounded]) := by
    refine .add (by simp) (List.forall_mem_cons.2 ⟨.num one_pos, ?_⟩)
    exact List.forall_mem_singleton.2 hx
  -- a statement has no value, so only the quantities in it matter
  have hone : ∀ {h a}, Regime.Posynomial a → ¬ ρ.Valued (app h [a]) → ρ.SignsRight (app h [a]) :=
    fun ha hnot => Regime.signsRight_app (fun hv => absurd hv hnot)
      (List.forall_mem_singleton.2 (ha.signsRight hroots))
  have htwo : ∀ {g a b}, ρ.SignsRight a → ρ.SignsRight b → ρ.SignsRight (app (.rel g) [a, b]) :=
    fun ha hb => Regime.signsRight_app nofun
      (List.forall_mem_cons.2 ⟨ha, List.forall_mem_singleton.2 hb⟩)
  rintro t (ht | rfl)
  · simp only [boundState, Context.hypotheses, List.map_cons, List.map_nil, List.mem_cons,
      List.not_mem_nil, or_false] at ht
    rcases ht with rfl | rfl | rfl
    · exact hone hx nofun
    · exact hone hy nofun
    · exact htwo (hsum.signsRight hroots) (hy.signsRight hroots)
  · exact htwo (hone hx nofun) (hone hy nofun)

omit [IsStrictOrderedRing K] in
theorem holds_boundState (h : r.Compares (1 + ρ.value bounded) (ρ.value scale)) :
    ∀ t ∈ (boundState r).context.hypotheses, ρ.Holds t := by
  have hsum : ρ.Valued (app .add [num 1, var bounded]) :=
    .add (List.forall_mem_cons.2 ⟨.num 1, List.forall_mem_singleton.2 (.var rfl)⟩)
  simp only [boundState, Context.hypotheses, List.map_cons, List.map_nil, List.forall_mem_cons]
  refine ⟨Regime.holds_declare _, Regime.holds_declare _, ?_, nofun⟩
  refine (Regime.relates_of_reals rfl rfl).2 ⟨hsum, .var rfl, ?_⟩
  simpa [Regime.val_add] using h

end BoundState

/-- An upper bound proves the goal rightly where `y` is infinitely large.  A lower bound proves the same goal
where `x` is infinitely large and `y` is not, so that the goal fails; there it is misread. -/
theorem boundState_proved :
    (((logLinear false true).run (boundState .le)).result = .ok [] ∧
      (∀ t ∈ (boundState .le).context.hypotheses, (Regime.infinite scale).Holds t) ∧
      (Regime.infinite scale).Holds (boundState .le).goal) ∧
    ((logLinear false true).run (boundState .ge)).result = .ok [] ∧
      (∀ t ∈ (boundState .ge).context.hypotheses, (Regime.infinite bounded).Holds t) ∧
      ¬ (Regime.infinite bounded).Holds (boundState .ge).goal ∧
      (Regime.infinite bounded).Misreads (boundState .ge) := by
  have hne : bounded ≠ scale := by decide
  have hupper : ((logLinear false true).run (boundState .le)).result = .ok [] := by decide +kernel
  have hlower : ((logLinear false true).run (boundState .ge)).result = .ok [] := by decide +kernel
  have hle : ∀ t ∈ (boundState .le).context.hypotheses, (Regime.infinite scale).Holds t := by
    refine holds_boundState ?_
    rw [Regime.value_infinite_self, Regime.value_infinite_of_ne hne, one_add_one_eq_two]
    exact (Hyperreal.coe_lt_omega 2).le
  have hge : ∀ t ∈ (boundState .ge).context.hypotheses, (Regime.infinite bounded).Holds t := by
    refine holds_boundState ?_
    rw [Regime.value_infinite_self, Regime.value_infinite_of_ne hne.symm]
    exact le_add_of_nonneg_right Hyperreal.omega_pos.le
  have hfails : ¬ (Regime.infinite bounded).Holds (boundState .ge).goal := by
    intro hgoal
    have hbounds := ((Regime.relates_of_orders rfl rfl).1 hgoal).2.2
    rw [Regime.val_theta, Regime.val_theta, Regime.val_var, Regime.val_var, Regime.value_infinite_self,
      Regime.value_infinite_of_ne hne.symm] at hbounds
    exact Regime.not_dominated_omega hbounds
  refine ⟨⟨hupper, hle, ?_⟩, hlower, hge, hfails, ?_⟩
  · refine (logLinear_sound hasRoots_hyperreal (Regime.infinite scale) hupper reads_boundState
      (signsRight_boundState hasRoots_hyperreal) hle).resolve_right ?_
    rintro ⟨r, a, b, hmem | hgoal, hmis⟩
    · simp only [boundState, Context.hypotheses, declare, List.map_cons, List.map_nil, List.mem_cons,
        List.not_mem_nil, or_false, app.injEq, reduceCtorEq, false_and, false_or, Head.rel.injEq] at hmem
      rcases hmis.lower with rfl | rfl <;> cases hmem.1
    · obtain ⟨-, hsides⟩ := app.inj hgoal
      obtain ⟨rfl, -⟩ := List.cons.inj hsides
      exact absurd hmis.left (by decide)
  · exact (logLinear_sound hasRoots_hyperreal (Regime.infinite bounded) hlower reads_boundState
      (signsRight_boundState hasRoots_hyperreal) hge).resolve_left hfails

end Tactic
end Majorant
