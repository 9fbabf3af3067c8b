import Majorant.Proofs.Real.Knowledge

/-!
# The rules for sums and products are right

For values that are known to be real numbers the rules are right: if each number is allowed by what is known
of it, then so are the sum and the product by what the rules make of this.
-/

namespace Majorant

namespace Facts
open Knowledge

variable {ks : List Knowledge} {xs : List ℝ} {p : Property}

theorem exists_allows (h : List.Forall₂ Allows ks xs) : ∀ x ∈ xs, ∃ k ∈ ks, k.Allows x := by
  induction h with
  | nil => simp
  | cons hx _ ih =>
    refine List.forall_mem_cons.2 ⟨⟨_, List.mem_cons_self, hx⟩, fun y hy => ?_⟩
    obtain ⟨k, hk, hallows⟩ := ih y hy
    exact ⟨k, List.mem_cons_of_mem _ hk, hallows⟩

theorem exists_allowed (h : List.Forall₂ Allows ks xs) : ∀ k ∈ ks, ∃ x ∈ xs, k.Allows x := by
  induction h with
  | nil => simp
  | cons hx _ ih =>
    refine List.forall_mem_cons.2 ⟨⟨_, List.mem_cons_self, hx⟩, fun y hy => ?_⟩
    obtain ⟨k, hk, hallows⟩ := ih y hy
    exact ⟨k, List.mem_cons_of_mem _ hk, hallows⟩

theorem unlessTwice_cons (a : Option Bool) (as : List (Option Bool)) {b : Bool}
    (h : unlessTwice (a :: as) = some b) :
    a = some true ∧ unlessTwice as = some b ∨
      a = some false ∧ b = false ∧ unlessTwice as = some true := by
  unfold unlessTwice at h ⊢
  cases a with
  | none => simp at h
  | some v =>
    cases v with
    | true => simpa using h
    | false =>
      simp only [List.any_cons, Option.isNone_some, Bool.false_or, beq_self_eq_true,
        List.filter_cons_of_pos, List.length_cons] at h
      split at h
      · cases h
      · next hknown =>
        rw [if_neg hknown]
        cases hlength : (as.filter (· == some false)).length with
        | zero =>
          rw [hlength] at h
          exact .inr ⟨rfl, (Option.some.inj h).symm, rfl⟩
        | succ n =>
          rw [hlength] at h
          cases h

theorem answers_unlessTwice (G : AddSubgroup ℝ) (hp : ∀ x, p.Of x ↔ x ∈ G)
    (h : List.Forall₂ Allows ks xs) : Answers (p.Of xs.sum) (unlessTwice (ks.map (·.ask p))) := by
  intro b hb
  rw [hp]
  induction h generalizing b with
  | nil =>
    cases hb
    simp [G.zero_mem]
  | @cons k x ks xs hx _ ih =>
    rw [List.sum_cons]
    have hask := hx.answers_ask p
    rw [hp] at hask
    rcases unlessTwice_cons _ _ hb with ⟨ha, hrest⟩ | ⟨ha, rfl, hrest⟩
    · rw [G.add_mem_cancel_left (by simpa using hask true ha)]
      exact ih b hrest
    · rw [G.add_mem_cancel_right (by simpa using ih true hrest)]
      exact hask false ha

theorem exists_of_sumOdd (h : List.Forall₂ Allows ks xs) {b : Bool} (hb : sumOdd ks = some b) :
    ∃ n : ℤ, xs.sum = n ∧ (Odd n ↔ b = true) := by
  induction h generalizing b with
  | nil =>
    cases hb
    exact ⟨0, by simp, by simp⟩
  | @cons k x ks xs hx _ ih =>
    unfold sumOdd at hb
    split at hb
    · next heven =>
      obtain ⟨n, hn, hodd⟩ := ih hb
      obtain ⟨m, hm, rfl⟩ : Property.even.Of x := hx.of_is heven
      refine ⟨m + n, by simp [hn], ?_⟩
      rw [Int.odd_add', ← hodd]
      simp [hm]
    · split at hb
      · next hodd =>
        obtain ⟨c, hc, rfl⟩ := Option.map_eq_some_iff.1 hb
        obtain ⟨n, hn, hrest⟩ := ih hc
        obtain ⟨m, hm, rfl⟩ : Property.odd.Of x := hx.of_is hodd
        refine ⟨m + n, by simp [hn], ?_⟩
        rw [Int.odd_add, Bool.not_eq_true', ← Bool.not_eq_true, ← hrest, Int.not_odd_iff_even]
        simp [hm]
      · cases hb

theorem answers_sumOdd (h : List.Forall₂ Allows ks xs) :
    Answers (Property.odd.Of xs.sum) (sumOdd ks) := by
  intro b hb
  obtain ⟨n, hn, hodd⟩ := exists_of_sumOdd h hb
  rw [← hodd, hn]
  exact Property.odd_of_intCast

theorem sumSign_eq_some {pos nonneg nonpos : Property} {b : Bool}
    (h : sumSign pos nonneg nonpos ks = some b) :
    (b = true ∧ (∃ k ∈ ks, k.is pos = true) ∧
        ∀ k ∈ ks, k.is .zero = true ∨ k.is pos = true ∨ k.is nonneg = true) ∨
      (b = false ∧ ∀ k ∈ ks, k.is .zero = true ∨ k.is nonpos = true) := by
  unfold sumSign at h
  dsimp only at h
  split_ifs at h with hempty hopen hinfinite hyes hno <;> cases h
  · refine .inr ⟨rfl, fun k hk => .inl ?_⟩
    simpa [List.filter_eq_nil_iff] using List.filter_eq_nil_iff.1 (List.isEmpty_iff.1 hempty) k hk
  all_goals simp only [List.any_eq_true, List.mem_filter, Bool.and_eq_true, Bool.not_eq_true',
    List.any_eq_false] at hopen hyes
  · obtain ⟨hnone, k, hk, hkpos⟩ := hyes
    refine .inl ⟨rfl, ⟨k, hk.1, hkpos⟩, fun l hl => ?_⟩
    grind
  · refine .inr ⟨rfl, fun k hk => ?_⟩
    simp only [Bool.and_eq_true, Bool.not_eq_true', List.any_eq_false, List.mem_filter] at hno
    grind

/-- **The sign of a sum.**  The factor `σ` is one when it is asked whether the sum is positive, and minus
one when it is asked whether it is negative. -/
theorem answers_sumSign (σ : ℝ) {pos nonneg nonpos : Property} (hpos : ∀ x, pos.Of x ↔ 0 < σ * x)
    (hnonneg : ∀ x, nonneg.Of x ↔ 0 ≤ σ * x) (hnonpos : ∀ x, nonpos.Of x ↔ σ * x ≤ 0)
    (h : List.Forall₂ Allows ks xs) : Answers (pos.Of xs.sum) (sumSign pos nonneg nonpos ks) := by
  have hsum : σ * xs.sum = (xs.map (σ * ·)).sum := by
    rw [List.sum_map_mul_left, List.map_id']
  have hzero : ∀ {k : Knowledge} {x : ℝ}, k.Allows x → k.is .zero = true → σ * x = 0 := by
    intro k x hx hk
    rw [show x = 0 from hx.of_is hk, mul_zero]
  intro b hb
  rw [hpos, hsum]
  rcases sumSign_eq_some hb with ⟨rfl, ⟨k, hk, hkpos⟩, hall⟩ | ⟨rfl, hall⟩
  · have hleast : ∀ y ∈ xs.map (σ * ·), 0 ≤ y := by
      intro y hy
      obtain ⟨x, hx, rfl⟩ := List.mem_map.1 hy
      obtain ⟨l, hl, hallows⟩ := exists_allows h x hx
      rcases hall l hl with hl | hl | hl
      · exact (hzero hallows hl).ge
      · exact ((hpos x).1 (hallows.of_is hl)).le
      · exact (hnonneg x).1 (hallows.of_is hl)
    obtain ⟨x, hx, hallows⟩ := exists_allowed h k hk
    have hone : 0 < σ * x := (hpos x).1 (hallows.of_is hkpos)
    have hle : σ * x ≤ (xs.map (σ * ·)).sum :=
      List.single_le_sum hleast _ (List.mem_map_of_mem hx)
    simpa using hone.trans_le hle
  · have hmost : ∀ y ∈ xs.map (σ * ·), y ≤ 0 := by
      intro y hy
      obtain ⟨x, hx, rfl⟩ := List.mem_map.1 hy
      obtain ⟨l, hl, hallows⟩ := exists_allows h x hx
      rcases hall l hl with hl | hl
      · exact (hzero hallows hl).le
      · exact (hnonpos x).1 (hallows.of_is hl)
    have hle : (xs.map (σ * ·)).sum ≤ 0 := by simpa using List.sum_le_card_nsmul _ 0 hmost
    simpa using hle

/-- **What is known of a sum of real numbers is right.** -/
theorem allows_sum (h : List.Forall₂ Allows ks xs) (hreal : ∀ k ∈ ks, k.is .real = true) :
    (sum ks).Allows xs.sum := by
  have himp : ∀ q : Property, (∀ c, Property.real.holds c = true → q.holds c = true) →
      ∀ k ∈ ks, k.is q = true := fun q hq k hk => is_of_imp (hreal k hk) hq
  have hyes : ∀ q : Property, (∀ c, Property.real.holds c = true → q.holds c = true) →
      q.Of xs.sum → Answers (q.Of xs.sum) (unlessTwice (ks.map (·.ask q))) := by
    intro q hq hof
    rw [unlessTwice_ask (himp q hq)]
    exact answers_true hof
  have hcomm : ks.all (·.is .commutative) = true :=
    List.all_eq_true.2 (himp .commutative (by intro c; cases c <;> decide))
  have hbase : (unknown.learnAll
      [ (.commutative, some (ks.all (·.is .commutative))),
        (.extReal, unlessTwice (ks.map (·.ask .extReal))),
        (.complex, unlessTwice (ks.map (·.ask .complex))),
        (.finite, unlessTwice (ks.map (·.ask .finite))),
        (.real, unlessTwice (ks.map (·.ask .real))),
        (.rational, unlessTwice (ks.map (·.ask .rational))),
        (.integer, unlessTwice (ks.map (·.ask .integer))) ]).Allows xs.sum := by
    apply (allows_unknown _).learnAll
    rw [hcomm]
    simp only [List.forall_mem_cons]
    refine ⟨answers_true trivial, hyes _ (by intro c; cases c <;> decide) trivial,
      hyes _ (by intro c; cases c <;> decide) trivial, hyes _ (by intro c; cases c <;> decide) trivial,
      hyes _ (fun _ h => h) trivial, ?_, ?_, nofun⟩
    · exact answers_unlessTwice (Rat.castHom ℝ).range.toAddSubgroup
        (fun x => exists_congr fun q => eq_comm) h
    · exact answers_unlessTwice (Int.castRingHom ℝ).range.toAddSubgroup
        (fun x => exists_congr fun n => eq_comm) h
  unfold sum
  apply Allows.learnAll
  · split
    · exact hbase.learn (answers_sumOdd h)
    · exact hbase
  · simp only [List.forall_mem_cons]
    refine ⟨answers_sumSign 1 ?_ ?_ ?_ h, answers_sumSign (-1) ?_ ?_ ?_ h, nofun⟩ <;>
      simp [Property.Of]

theorem two_le_of_even {n : ℤ} (hn : Even n) (hpos : (0 : ℝ) < n) : (2 : ℝ) ≤ n := by
  obtain ⟨m, rfl⟩ := hn
  have hm : 0 < m + m := by exact_mod_cast hpos
  exact_mod_cast (by omega : 2 ≤ m + m)

theorem one_le_of_pos {n : ℤ} (hpos : (0 : ℝ) < n) : (1 : ℝ) ≤ n := by
  have hn : 0 < n := by exact_mod_cast hpos
  exact_mod_cast hn

theorem nearest_bounds {a : Knowledge} {x : ℝ} {v : Nearest} (h : a.Allows x)
    (hv : nearest a = some v) :
    (0 ≤ x → (v.value : ℝ) ≤ x ∧ (v.excluded = true → (v.value : ℝ) < x)) ∧
      (x ≤ 0 → x ≤ v.value ∧ (v.excluded = true → x < v.value)) := by
  unfold nearest at hv
  split_ifs at hv with hreal hpos heven hint hneg heven hint hzero <;> cases hv
  · obtain ⟨n, hn, rfl⟩ : Property.even.Of x := h.of_is heven
    have hx : (0 : ℝ) < n := h.of_is hpos
    refine ⟨fun _ => ⟨?_, nofun⟩, fun hle => absurd hx hle.not_gt⟩
    simpa using two_le_of_even hn hx
  · obtain ⟨n, rfl⟩ : Property.integer.Of x := h.of_is hint
    have hx : (0 : ℝ) < n := h.of_is hpos
    refine ⟨fun _ => ⟨?_, nofun⟩, fun hle => absurd hx hle.not_gt⟩
    simpa using one_le_of_pos hx
  · have hx : 0 < x := h.of_is hpos
    exact ⟨fun hle => ⟨by simpa using hle, fun _ => by simpa using hx⟩, fun hle => absurd hx hle.not_gt⟩
  -- the opposite of a negative value is positive
  · obtain ⟨n, hn, rfl⟩ : Property.even.Of x := h.of_is heven
    have hx : (n : ℝ) < 0 := h.of_is hneg
    have hle := two_le_of_even hn.neg (by simpa using hx)
    push_cast at hle
    refine ⟨fun hge => absurd hx hge.not_gt, fun _ => ⟨?_, nofun⟩⟩
    push_cast
    linarith
  · obtain ⟨n, rfl⟩ : Property.integer.Of x := h.of_is hint
    have hx : (n : ℝ) < 0 := h.of_is hneg
    have hle := one_le_of_pos (n := -n) (by simpa using hx)
    push_cast at hle
    refine ⟨fun hge => absurd hx hge.not_gt, fun _ => ⟨?_, nofun⟩⟩
    push_cast
    linarith
  · have hx : x < 0 := h.of_is hneg
    exact ⟨fun hle => absurd hx hle.not_gt, fun hle => ⟨by simpa using hle, fun _ => by simpa using hx⟩⟩
  · exact ⟨fun hle => ⟨by simpa using hle, nofun⟩, fun hle => ⟨by simpa using hle, nofun⟩⟩

/-- **What is known of a number plus a value is right.** -/
theorem allows_shift {a k : Knowledge} {c : Rat} {x : ℝ} (ha : a.Allows x) (hk : k.Allows (c + x)) :
    (shift c a k).Allows (c + x) := by
  unfold shift
  cases hv : nearest a with
  | none => exact hk
  | some v =>
    obtain ⟨hup, hdown⟩ := nearest_bounds ha hv
    -- the conditions are on rational numbers
    have hpos : 0 < v.value + c → (0 : ℝ) < v.value + c := fun h => by exact_mod_cast h
    have hnonneg : 0 ≤ v.value + c → (0 : ℝ) ≤ v.value + c := fun h => by exact_mod_cast h
    have hneg : v.value + c < 0 → (v.value : ℝ) + c < 0 := fun h => by exact_mod_cast h
    have hnonpos : v.value + c ≤ 0 → (v.value : ℝ) + c ≤ 0 := fun h => by exact_mod_cast h
    apply hk.learnAll
    simp only [List.forall_mem_cons]
    refine ⟨answers_yesIf fun h => ?_, answers_yesIf fun h => ?_, answers_yesIf fun h => ?_,
      answers_yesIf fun h => ?_, nofun⟩
    all_goals simp only [Bool.and_eq_true, Bool.or_eq_true, decide_eq_true_eq] at h
    · obtain ⟨hle, hstrict⟩ := hup (ha.of_is h.1)
      change 0 < (c : ℝ) + x
      rcases h.2 with hs | ⟨hexcluded, hs⟩
      · linarith [hpos hs]
      · linarith [hnonneg hs, hstrict hexcluded]
    · obtain ⟨hle, -⟩ := hup (ha.of_is h.1)
      change 0 ≤ (c : ℝ) + x
      linarith [hnonneg h.2]
    · obtain ⟨hle, hstrict⟩ := hdown (ha.of_is h.1)
      change (c : ℝ) + x < 0
      rcases h.2 with hs | ⟨hexcluded, hs⟩
      · linarith [hneg hs]
      · linarith [hnonpos hs, hstrict hexcluded]
    · obtain ⟨hle, -⟩ := hdown (ha.of_is h.1)
      change (c : ℝ) + x ≤ 0
      linarith [hnonpos h.2]

def turned (flip : Bool) : ℝ := if flip then -1 else 1

theorem turned_not (flip : Bool) : turned (!flip) = -turned flip := by cases flip <;> simp [turned]

/-- A number is positive, or not negative where this is not excluded. -/
def Above (weak : Bool) (y : ℝ) : Prop := 0 ≤ y ∧ (weak = false → 0 < y)

theorem Above.mul_of_pos {weak : Bool} {y z : ℝ} (h : Above weak y) (hz : 0 < z) :
    Above weak (y * z) :=
  ⟨mul_nonneg h.1 hz.le, fun hweak => mul_pos (h.2 hweak) hz⟩

theorem Above.mul_of_nonneg {weak : Bool} {y z : ℝ} (h : Above weak y) (hz : 0 ≤ z) :
    Above true (y * z) :=
  ⟨mul_nonneg h.1 hz, nofun⟩

theorem is_of_isNot {k : Knowledge} {p q : Property} (hne : k.possible ≠ []) (hreal : k.is .real = true)
    (hnot : k.isNot p = true)
    (himp : ∀ c, Property.real.holds c = true → p.holds c = false → q.holds c = true) :
    k.is q = true := by
  rw [is_iff] at hreal ⊢
  exact fun c hc => himp c (hreal c hc) ((isNot_iff hne).1 hnot c hc)

/-- **Going through the factors of a product.**  What a step keeps of the product so far holds of the whole
product in the end, unless a step gives up. -/
theorem foldl_factors {σ : Type} (step : Option σ → Knowledge → Option σ) (Inv : σ → ℝ → Prop)
    (hnone : ∀ k, step none k = none)
    (hstep : ∀ {k x a y}, k.Allows x → k.is .real = true → Inv a y →
      step (some a) k = none ∨ ∃ b, step (some a) k = some b ∧ Inv b (y * x))
    (h : List.Forall₂ Allows ks xs) (hreal : ∀ k ∈ ks, k.is .real = true) {a : σ} {y : ℝ}
    (ha : Inv a y) :
    ks.foldl step (some a) = none ∨ ∃ b, ks.foldl step (some a) = some b ∧ Inv b (y * xs.prod) := by
  have hgone : ∀ ls : List Knowledge, ls.foldl step none = none := by
    intro ls
    induction ls with
    | nil => rfl
    | cons l ls ih => rw [List.foldl_cons, hnone, ih]
  induction h generalizing a y with
  | nil => exact .inr ⟨a, rfl, by simpa using ha⟩
  | @cons k x ks xs hx _ ih =>
    obtain ⟨hk, hks⟩ := List.forall_mem_cons.1 hreal
    rw [List.foldl_cons, List.prod_cons, ← mul_assoc]
    rcases hstep hx hk ha with heq | ⟨b, heq, hb⟩
    · rw [heq]
      exact .inl (hgone ks)
    · rw [heq]
      exact ih hks hb

/-- **The sign of a product.**  The invariant is that the sign found so far is that of the product so far,
and that no factor was vague. -/
theorem answers_productSign (negated : Bool) (h : List.Forall₂ Allows ks xs)
    (hreal : ∀ k ∈ ks, k.is .real = true) :
    Answers (0 < turned negated * xs.prod) (productSign negated ks) := by
  unfold productSign
  extract_lets step
  have hfold := foldl_factors step (fun a y => a.2.2 = false ∧ Above a.2.1 (turned a.1 * y))
    (fun _ => rfl) ?_ h hreal (a := (negated, false, false)) (y := turned negated)
    ⟨rfl, by cases negated <;> simp [turned, Above]⟩
  · split_ifs with hzero hfinite
    · obtain ⟨k, hk, hkzero⟩ := List.any_eq_true.1 hzero
      obtain ⟨x, hx, hallows⟩ := exists_allowed h k hk
      have hx0 : x = 0 := hallows.of_is hkzero
      apply answers_false
      rw [List.prod_eq_zero (hx0 ▸ hx), mul_zero]
      exact lt_irrefl 0
    · exact answers_none _
    · rcases hfold with heq | ⟨⟨flip, weak, vague⟩, heq, -, habove⟩
      · rw [heq]
        exact answers_none _
      · rw [heq]
        dsimp only at habove ⊢
        split_ifs with hyes hflip
        · simp only [Bool.and_eq_true, Bool.not_eq_true'] at hyes
          obtain ⟨⟨rfl, rfl⟩, -⟩ := hyes
          exact answers_true (by simpa [turned] using habove.2 rfl)
        · have hturned : turned flip = -1 := if_pos hflip
          have hle := habove.1
          rw [hturned] at hle
          exact answers_false (not_lt.2 (by linarith))
        · exact answers_none _
  · rintro k x ⟨flip, weak, vague⟩ y hx hk ⟨hvague, hy⟩
    dsimp only at hvague hy
    subst hvague
    have hturned : turned (!flip) * (y * x) = turned flip * y * -x := by
      rw [turned_not]
      ring
    dsimp only [step]
    simp only [Bool.false_eq_true, if_false]
    split_ifs with hpos hneg hnonpos hnonneg hnotpos hnotneg
    · refine .inr ⟨_, rfl, rfl, ?_⟩
      rw [← mul_assoc]
      exact hy.mul_of_pos (hx.of_is hpos)
    · refine .inr ⟨_, rfl, rfl, ?_⟩
      rw [hturned]
      exact hy.mul_of_pos (neg_pos.2 (hx.of_is hneg))
    · refine .inr ⟨_, rfl, rfl, ?_⟩
      rw [hturned]
      exact hy.mul_of_nonneg (neg_nonneg.2 (hx.of_is hnonpos))
    · refine .inr ⟨_, rfl, rfl, ?_⟩
      rw [← mul_assoc]
      exact hy.mul_of_nonneg (hx.of_is hnonneg)
    -- a real value of which a sign is excluded has been dealt with
    · exact absurd (is_of_isNot hx.ne_nil hk hnotpos (by intro c; cases c <;> decide)) hnonpos
    · exact absurd (is_of_isNot hx.ne_nil hk hnotneg (by intro c; cases c <;> decide)) hnonneg
    · exact .inl rfl

theorem answers_productReal (wanted : Bool) (h : List.Forall₂ Allows ks xs)
    (hreal : ∀ k ∈ ks, k.is .real = true) (hzero : wanted = false → ∀ k ∈ ks, k.is .zero = false) :
    Answers (wanted = true) (productReal wanted ks) := by
  have hcomplex : ks.any (fun k => k.isNot .complex && k.isNot .infinite && k.isNot .extReal) = false := by
    rw [List.any_eq_false]
    intro k hk hnot
    obtain ⟨x, -, hx⟩ := exists_allowed h k hk
    simp only [Bool.and_eq_true] at hnot
    exact hx.of_isNot hnot.2 trivial
  unfold productReal
  extract_lets step
  have hfold := foldl_factors step (fun a _ => a.1 = wanted ∧ a.2.2 = none)
    (fun _ => rfl) ?_ h hreal (a := (wanted, some false, none)) (y := 1) ⟨rfl, rfl⟩
  · rw [hcomplex, if_neg (by decide)]
    split_ifs with hany hfinite
    · cases wanted with
      | true => exact answers_true rfl
      | false =>
        obtain ⟨k, hk, hkzero⟩ := List.any_eq_true.1 hany
        rw [hzero rfl k hk] at hkzero
        cases hkzero
    · exact answers_none _
    · rcases hfold with heq | ⟨⟨real, zero, odd⟩, heq, hwanted, hodd⟩
      · rw [heq]
        exact answers_none _
      · dsimp only at hwanted hodd
        subst hwanted hodd
        rw [heq]
        dsimp only
        split_ifs with hknown hwanted
        · exact fun b hb => by simp [Option.some.inj hb]
        · exact answers_true hwanted
        · exact answers_none _
  · rintro k x ⟨real, zero, odd⟩ y hx hk ⟨hwanted, hodd⟩
    dsimp only at hwanted hodd
    subst hwanted hodd
    have himaginary : k.is .imaginary = false := by
      rw [Bool.eq_false_iff]
      exact fun hk => hx.of_is hk
    have hextended : k.is .extReal = true := is_of_imp hk (by intro c; cases c <;> decide)
    dsimp only [step]
    rw [himaginary, hextended]
    simp only [Bool.false_eq_true, if_false, if_true]
    split
    · exact .inr ⟨_, rfl, rfl, rfl⟩
    · exact .inr ⟨_, rfl, rfl, rfl⟩

theorem answers_either {P : Prop} {as : List (Option Bool)} (hyes : some true ∈ as → P)
    (hno : (∀ a ∈ as, a = some false) → ¬ P) : Answers P (either as) := by
  unfold either
  split_ifs with htrue hnone
  · exact answers_true (hyes (by simpa using htrue))
  · exact answers_none P
  · refine answers_false (hno fun a ha => ?_)
    cases a with
    | none => exact absurd (List.any_eq_true.2 ⟨none, ha, rfl⟩) hnone
    | some v =>
      cases v with
      | true => exact absurd (List.any_eq_true.2 ⟨_, ha, rfl⟩) htrue
      | false => rfl

/-- Real factors are not infinite, so only the question for zero is open. -/
theorem zeroOrInfinite_of_real (h : List.Forall₂ Allows ks xs) (hreal : ∀ k ∈ ks, k.is .real = true) :
    zeroOrInfinite ks = (either (ks.map (·.ask .zero)), some false) := by
  have hask : ∀ a ∈ ks.map (·.ask .infinite), a = some false := by
    intro a ha
    obtain ⟨k, hk, rfl⟩ := List.mem_map.1 ha
    obtain ⟨x, -, hx⟩ := exists_allowed h k hk
    refine (ask_eq_some_false_iff hx.ne_nil).2 fun c hc => ?_
    have := is_iff.1 (hreal k hk) c hc
    revert this
    cases c <;> decide
  have hinfinite : either (ks.map (·.ask .infinite)) = some false := by
    have htrue : (ks.map (·.ask .infinite)).any (· == some true) = false := by
      rw [List.any_eq_false]
      intro a ha
      simp [hask a ha]
    have hnone : (ks.map (·.ask .infinite)).any (·.isNone) = false := by
      rw [List.any_eq_false]
      intro a ha
      simp [hask a ha]
    simp [either, htrue, hnone]
  simp [zeroOrInfinite, hinfinite]

theorem answers_productZero (h : List.Forall₂ Allows ks xs) (hreal : ∀ k ∈ ks, k.is .real = true) :
    Answers (xs.prod = 0) (productZero ks) := by
  have heq : productZero ks = either (ks.map (·.ask .zero)) := by
    simp [productZero, zeroOrInfinite_of_real h hreal]
  rw [heq, List.prod_eq_zero_iff]
  apply answers_either
  · intro hmem
    obtain ⟨k, hk, hask⟩ := List.mem_map.1 hmem
    obtain ⟨x, hx, hallows⟩ := exists_allowed h k hk
    have hx0 : x = 0 := by simpa [Property.Of] using hallows.answers_ask .zero true hask
    exact hx0 ▸ hx
  · intro hall hmem
    obtain ⟨k, hk, hallows⟩ := exists_allows h 0 hmem
    have := hallows.answers_ask .zero false (hall _ (List.mem_map_of_mem hk))
    simp [Property.Of] at this

theorem productInfinite_of_real (h : List.Forall₂ Allows ks xs) (hreal : ∀ k ∈ ks, k.is .real = true) :
    productInfinite ks = some false := by
  simp [productInfinite, zeroOrInfinite_of_real h hreal]

theorem productComplex_of_real (hreal : ∀ k ∈ ks, k.is .real = true) :
    productComplex ks = some true := by
  have hask : ∀ a ∈ ks.map (·.ask .complex), a = some true := by
    intro a ha
    obtain ⟨k, hk, rfl⟩ := List.mem_map.1 ha
    exact ask_eq_some_true_iff.2 (is_iff.1 (is_of_imp (hreal k hk) (by intro c; cases c <;> decide)))
  have hnone : (ks.map (·.ask .complex)).any (·.isNone) = false := by
    rw [List.any_eq_false]
    intro a ha
    simp [hask a ha]
  have hall : (ks.map (·.ask .complex)).all (· == some true) = true := by
    rw [List.all_eq_true]
    intro a ha
    simp [hask a ha]
  simp [productComplex, allKnown, hnone, hall]

theorem answers_productRational (h : List.Forall₂ Allows ks xs) :
    Answers (Property.rational.Of xs.prod) (productRational ks) := by
  let K : Subfield ℝ := (Rat.castHom ℝ).fieldRange
  have hK : ∀ x, Property.rational.Of x ↔ x ∈ K := fun x => exists_congr fun q => eq_comm
  have hrule : ∀ {b}, unlessTwice (ks.map (·.ask .rational)) = some b →
      (b = false → ∀ k ∈ ks, k.isNot .zero = true) → (xs.prod ∈ K ↔ b = true) := by
    induction h with
    | nil =>
      intro b hb _
      cases hb
      simp [K.one_mem]
    | @cons k x ks xs hx hxs ih =>
      intro b hb hnonzero
      rw [List.prod_cons]
      have hask := hx.answers_ask .rational
      rw [hK] at hask
      rcases unlessTwice_cons _ _ hb with ⟨ha, hrest⟩ | ⟨ha, rfl, hrest⟩
      · have hmem : x ∈ K := by simpa using hask true ha
        have hprod := ih hrest fun hb' => (List.forall_mem_cons.1 (hnonzero hb')).2
        cases b with
        | true => exact iff_of_true (K.mul_mem hmem (hprod.2 rfl)) rfl
        | false =>
          have hx0 : x ≠ 0 := hx.of_isNot ((List.forall_mem_cons.1 (hnonzero rfl)).1)
          rw [← hprod]
          refine ⟨fun hmul => ?_, K.mul_mem hmem⟩
          have := K.mul_mem (K.inv_mem hmem) hmul
          rwa [inv_mul_cancel_left₀ hx0] at this
      · -- the other factors are rational and do not vanish
        have hprod : xs.prod ∈ K := (ih hrest nofun).2 rfl
        have hne : xs.prod ≠ 0 := by
          intro hzero
          obtain ⟨l, hl, hallows⟩ := exists_allows hxs 0 (List.prod_eq_zero_iff.1 hzero)
          exact hallows.of_isNot ((List.forall_mem_cons.1 (hnonzero rfl)).2 l hl) rfl
        refine iff_of_false (fun hmul => ?_) nofun
        have hmem := K.mul_mem hmul (K.inv_mem hprod)
        rw [mul_inv_cancel_right₀ hne] at hmem
        exact absurd ((hask false ha).1 hmem) nofun
  rw [hK]
  unfold productRational
  split
  · next hone =>
    split_ifs with hnonzero
    · exact fun b hb => by
        rw [← Option.some.inj hb]
        exact hrule hone fun _ => List.all_eq_true.1 hnonzero
    · exact answers_none _
  · next hother =>
    intro b hb
    cases b with
    | true => exact hrule hb nofun
    | false => exact absurd hb hother

theorem answers_productOdd (h : List.Forall₂ Allows ks xs) (hinteger : ∀ k ∈ ks, k.is .integer = true) :
    Answers (Property.odd.Of xs.prod) (productOdd ks) := by
  have hparity : ∃ n : ℤ, xs.prod = n ∧ ((∃ k ∈ ks, k.is .even = true) → Even n) ∧
      ((∀ k ∈ ks, k.is .odd = true) → Odd n) := by
    induction h with
    | nil => exact ⟨1, by simp, by simp, fun _ => odd_one⟩
    | @cons k x ks xs hx _ ih =>
      obtain ⟨hk, hks⟩ := List.forall_mem_cons.1 hinteger
      obtain ⟨n, hn, heven, hodd⟩ := ih hks
      obtain ⟨m, rfl⟩ : Property.integer.Of x := hx.of_is hk
      refine ⟨m * n, by simp [hn], ?_, ?_⟩
      · rw [List.exists_mem_cons_iff]
        rintro (hk | hany)
        · obtain ⟨m', hm', heq⟩ : Property.even.Of (m : ℝ) := hx.of_is hk
          rw [Int.cast_injective heq]
          exact hm'.mul_right n
        · exact (heven hany).mul_left m
      · rw [List.forall_mem_cons]
        rintro ⟨hk, hall⟩
        exact (Property.odd_of_intCast.1 (hx.of_is hk)).mul (hodd hall)
  obtain ⟨n, hn, heven, hodd⟩ := hparity
  unfold productOdd
  rw [hn, Property.odd_of_intCast]
  split_ifs with hany hall
  · exact answers_false (Int.not_odd_iff_even.2 (heven (List.any_eq_true.1 hany)))
  · exact answers_true (hodd (List.all_eq_true.1 hall))
  · exact answers_none _

/-- **What is known of a product of real numbers is right**, if it is right whether it is an integer. -/
theorem allows_product {fs : List Factor} (h : List.Forall₂ Allows (fs.map (·.known)) xs)
    (hreal : ∀ f ∈ fs, f.known.is .real = true)
    (hwhole : Answers (Property.integer.Of xs.prod) (productWhole fs)) :
    (product fs).Allows xs.prod := by
  have hks : ∀ k ∈ fs.map (·.known), k.is .real = true := by
    intro k hk
    obtain ⟨f, hf, rfl⟩ := List.mem_map.1 hk
    exact hreal f hf
  unfold product
  generalize fs.map (·.known) = ks at h hks
  have hcomm : ks.all (·.is .commutative) = true :=
    List.all_eq_true.2 fun k hk => is_of_imp (hks k hk) (by intro c; cases c <;> decide)
  have hnature : (unknown.learnAll (productNature ks)).Allows xs.prod := by
    apply (allows_unknown _).learnAll
    unfold productNature
    rw [hcomm, productInfinite_of_real h hks, productComplex_of_real hks]
    simp only [List.forall_mem_cons]
    refine ⟨answers_true trivial, answers_productZero h hks, answers_false id, answers_true trivial, ?_, ?_,
      List.forall_mem_nil _⟩
    · simpa [Property.Of, Answers] using answers_productReal true h hks (by simp)
    · unfold productImaginary
      split_ifs with hnonzero
      · have hzero : ∀ k ∈ ks, k.is .zero = false := by
          intro k hk
          obtain ⟨x, -, hx⟩ := exists_allowed h k hk
          have hnot := List.all_eq_true.1 hnonzero k hk
          rw [Bool.and_eq_true] at hnot
          rw [Bool.eq_false_iff]
          exact fun hzero => hx.of_isNot hnot.1 (hx.of_is hzero)
        simpa [Property.Of, Answers] using answers_productReal false h hks fun _ => hzero
      · exact answers_none _
  have hbase : ((unknown.learnAll (productNature ks)).learnAll
      [(.rational, productRational ks), (.integer, productWhole fs)]).Allows xs.prod := by
    apply hnature.learnAll
    simp only [List.forall_mem_cons]
    exact ⟨answers_productRational h, hwhole, List.forall_mem_nil _⟩
  apply Allows.learnAll
  · split_ifs with hinteger
    · rw [Bool.and_eq_true] at hinteger
      exact hbase.learn (answers_productOdd h (List.all_eq_true.1 hinteger.2))
    · exact hbase
  · simp only [List.forall_mem_cons]
    refine ⟨?_, ?_, List.forall_mem_nil _⟩
    · simpa [turned, Property.Of] using answers_productSign false h hks
    · simpa [turned, Property.Of] using answers_productSign true h hks

end Facts
end Majorant
