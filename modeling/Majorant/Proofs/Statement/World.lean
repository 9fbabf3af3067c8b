import Majorant.Proofs.Real.Truth

/-!
# Truth of statements in a world

A world gives every variable a value of its kind and says which other statements hold.  It *interprets* a
statement if exchanging sides and changing signs can do no harm in it.
-/

namespace Majorant

theorem Rel.compares_flip {K : Type} [LinearOrder K] (r : Rel) (x y : K) :
    r.flip.Compares y x ↔ r.Compares x y := by
  cases r <;> simp [Rel.flip, Rel.Compares, eq_comm]

theorem Term.exists_of_isRel {t : Term} (h : t.isRel = true) : ∃ r a b, t = .app (.rel r) [a, b] := by
  unfold isRel asRel? at h
  split at h
  · exact ⟨_, _, _, rfl⟩
  · cases h

theorem Kind.admits_one (k : Kind) (h : k.isNumeric = true) : k.Admits 1 := by
  refine ⟨?_, ?_⟩
  · cases k <;> first
      | exact ⟨1, by norm_num⟩
      | exact trivial
      | cases h
  · cases k <;> simp [Kind.SignFits]

/-- **A world**: numbers for the variables, sizes for what is no number, and truth values for the
statements that cannot be taken apart. -/
structure World (M : Type) where
  value : Valuation
  /-- Variables have values of their kind. -/
  fits : ∀ v : Variable, v.kind.isNumeric = true → v.kind.Admits (value v)
  size : Term → M
  marks : Term → Prop

namespace World
open Term

variable {M : Type}

noncomputable def update (w : World M) (v : Variable) (x : ℝ) (h : v.kind.Admits x) : World M :=
  { w with
    value := Function.update w.value v x
    fits := by
      intro u hu
      by_cases heq : u = v
      · subst heq
        rw [Function.update_self]
        exact h
      · rw [Function.update_of_ne heq]
        exact w.fits u hu }

noncomputable def ones : World Unit where
  value := 1
  fits v hv := v.kind.admits_one hv
  size _ := ()
  marks _ := True

def Numbers (w : World M) (a b : Term) : Prop := a.Denotes w.value ∧ b.Denotes w.value

/-- The sides of a comparison are numbers, or have no sign that could change. -/
def Clear (w : World M) (a b : Term) : Prop :=
  w.Numbers a b ∨ (a.leadingMinus = false ∧ b.leadingMinus = false)

def marker : Head → Bool
  | .littlewoodPaley | .fixed | .bounded | .declared => true
  | _ => false

/-- **A statement has a meaning.** -/
inductive Interprets (w : World M) : Term → Prop
  | truth (c : Bool) : Interprets w (truth c)
  | var (v : Variable) : Interprets w (var v)
  | rel {r : Rel} {a b : Term} (h : w.Clear a b) : Interprets w (app (.rel r) [a, b])
  | and {ts : List Term} (h : ∀ t ∈ ts, Interprets w t) : Interprets w (app .and ts)
  | or {ts : List Term} (h : ∀ t ∈ ts, Interprets w t) : Interprets w (app .or ts)
  | not {t : Term} (h : Interprets w t) : Interprets w (app .not [t])
  | marker {h : Head} (hh : marker h = true) (ts : List Term) : Interprets w (app h ts)

section Meaning

variable {w : World M} {r : Rel} {a b : Term} {ts : List Term}

theorem Interprets.clear (h : w.Interprets (app (.rel r) [a, b])) : w.Clear a b := by
  cases h with
  | rel h => exact h
  | marker hh => cases hh

theorem Interprets.of_mem_and (h : w.Interprets (app .and ts)) : ∀ t ∈ ts, w.Interprets t := by
  cases h with
  | and h => exact h
  | marker hh => cases hh

theorem Interprets.of_mem_or (h : w.Interprets (app .or ts)) : ∀ t ∈ ts, w.Interprets t := by
  cases h with
  | or h => exact h
  | marker hh => cases hh

theorem numbers_comm : w.Numbers a b ↔ w.Numbers b a := and_comm

theorem Clear.comm (h : w.Clear a b) : w.Clear b a := by
  rcases h with h | h
  · exact .inl (numbers_comm.1 h)
  · exact .inr h.symm

theorem Clear.numbers_left (h : w.Clear a b) (ha : a.leadingMinus = true) : w.Numbers a b := by
  rcases h with h | h
  · exact h
  · rw [h.1] at ha
    cases ha

theorem asTruth_of_interprets {t : Term} (h : w.Interprets t) : Statement.asTruth t = t := by
  cases h <;> rfl

end Meaning

variable [LinearOrder M]

def Relates (w : World M) (r : Rel) (a b : Term) : Prop :=
  (w.Numbers a b ∧ r.Compares (a.val w.value) (b.val w.value)) ∨
    (¬ w.Numbers a b ∧ r.Compares (w.size a) (w.size b))

mutual

/-- **A statement holds.**  A numerical variable as a statement says that it does not vanish, and
declarations hold in every world. -/
def Holds (w : World M) : Term → Prop
  | truth b => b = true
  | var v => if v.kind.isNumeric then w.value v ≠ 0 else w.marks (var v)
  | app (.rel r) [a, b] => w.Relates r a b
  | app .and as => w.AllHold as
  | app .or as => w.SomeHold as
  | app .not as => ¬ w.AllHold as
  | app .declared _ => True
  | t => w.marks t

def AllHold (w : World M) : List Term → Prop
  | [] => True
  | t :: ts => w.Holds t ∧ w.AllHold ts

def SomeHold (w : World M) : List Term → Prop
  | [] => False
  | t :: ts => w.Holds t ∨ w.SomeHold ts

end

variable {w : World M} {r : Rel} {a b t u : Term} {ts : List Term}

theorem allHold_iff : w.AllHold ts ↔ ∀ t ∈ ts, w.Holds t := by
  induction ts with
  | nil => simp [AllHold]
  | cons t ts ih => simp [AllHold, ih]

theorem someHold_iff : w.SomeHold ts ↔ ∃ t ∈ ts, w.Holds t := by
  induction ts with
  | nil => simp [SomeHold]
  | cons t ts ih => simp [SomeHold, ih]

@[simp]
theorem holds_truth (c : Bool) : w.Holds (truth c) ↔ c = true := Iff.rfl

@[simp]
theorem holds_rel : w.Holds (app (.rel r) [a, b]) ↔ w.Relates r a b := Iff.rfl

@[simp]
theorem holds_and : w.Holds (app .and ts) ↔ ∀ t ∈ ts, w.Holds t := by rw [Holds, allHold_iff]

@[simp]
theorem holds_or : w.Holds (app .or ts) ↔ ∃ t ∈ ts, w.Holds t := by rw [Holds, someHold_iff]

@[simp]
theorem holds_not : w.Holds (app .not [a]) ↔ ¬ w.Holds a := by
  rw [Holds, allHold_iff, List.forall_mem_singleton]

theorem holds_littlewoodPaley : w.Holds (app .littlewoodPaley ts) ↔ w.marks (app .littlewoodPaley ts) :=
  Iff.rfl

theorem holds_declare {v : Variable} : w.Holds (Proof.declare v) := trivial

/-- A statement has a meaning, and it says that `P`. -/
def Says (w : World M) (t : Term) (P : Prop) : Prop := w.Interprets t ∧ (w.Holds t ↔ P)

theorem Says.congr {P Q : Prop} (h : w.Says t P) (hiff : P ↔ Q) : w.Says t Q :=
  ⟨h.1, h.2.trans hiff⟩

theorem says_self (h : w.Interprets t) : w.Says t (w.Holds t) := ⟨h, Iff.rfl⟩

theorem says_top {P : Prop} (h : P) : w.Says top P := ⟨.truth true, by simpa [top] using h⟩

theorem says_bot {P : Prop} (h : ¬ P) : w.Says bot P := ⟨.truth false, by simpa [bot] using h⟩

theorem relates_of_numbers (h : w.Numbers a b) :
    w.Relates r a b ↔ r.Compares (a.val w.value) (b.val w.value) := by
  simp [Relates, h]

theorem relates_flip : w.Relates r.flip b a ↔ w.Relates r a b := by
  unfold Relates
  rw [numbers_comm (a := b), Rel.compares_flip, Rel.compares_flip]

theorem relates_negate : w.Relates r.negate a b ↔ ¬ w.Relates r a b := by
  unfold Relates
  rw [Rel.compares_negate, Rel.compares_negate]
  tauto

theorem relates_opposite (h : w.Numbers a b) :
    w.Numbers (Statement.opposite a) (Statement.opposite b) ∧
      (w.Relates r.flip (Statement.opposite a) (Statement.opposite b) ↔ w.Relates r a b) := by
  obtain ⟨ha, hb⟩ := h
  have hoppa : Statement.opposite a = a.neg := by
    rw [Statement.opposite, isOrder_of_denotes ha]
    rfl
  have hoppb : Statement.opposite b = b.neg := by
    rw [Statement.opposite, isOrder_of_denotes hb]
    rfl
  have hneg : w.Numbers a.neg b.neg := ⟨inherited_denotes.neg ha, inherited_denotes.neg hb⟩
  rw [hoppa, hoppb]
  refine ⟨hneg, ?_⟩
  rw [relates_of_numbers hneg, relates_of_numbers ⟨ha, hb⟩, val_neg ha, val_neg hb]
  cases r <;> simp [Rel.flip, Rel.Compares]

/-- A comparison in another form: the sides are clear as before, and it says the same. -/
def SameAs (w : World M) (r : Rel) (a b : Term) (c : Rel × Term × Term) : Prop :=
  w.Clear c.2.1 c.2.2 ∧ (w.Relates c.1 c.2.1 c.2.2 ↔ w.Relates r a b)

theorem sameAs_arranged (h : w.Clear a b) : w.SameAs r a b (Statement.arranged r a b) := by
  have hsame : w.SameAs r a b (r, a, b) := ⟨h, Iff.rfl⟩
  have hflip : w.SameAs r a b (r.flip, b, a) := ⟨h.comm, relates_flip⟩
  unfold Statement.arranged
  exact iteInduction (motive := w.SameAs r a b) (fun _ => hflip) fun _ => hsame

theorem sameAs_canonicalParts (h : w.Clear a b) :
    w.SameAs r a b (Statement.canonicalParts r a b) := by
  obtain ⟨hclear, hiff⟩ := sameAs_arranged (r := r) h
  unfold Statement.canonicalParts
  generalize Statement.arranged r a b = parts at hclear hiff ⊢
  obtain ⟨r', a', b'⟩ := parts
  dsimp only at hclear hiff ⊢
  have hsame : w.SameAs r a b (r', a', b') := ⟨hclear, hiff⟩
  refine iteInduction (motive := w.SameAs r a b) (fun _ => hsame) fun _ => ?_
  refine iteInduction (motive := w.SameAs r a b) (fun hminus => ?_) fun _ => ?_
  · obtain ⟨hnumbers, hopp⟩ := relates_opposite (r := r') (hclear.numbers_left hminus)
    exact ⟨.inl hnumbers, hopp.trans hiff⟩
  · refine iteInduction (motive := w.SameAs r a b) (fun hminus => ?_) fun _ => hsame
    refine iteInduction (motive := w.SameAs r a b) (fun _ => hsame) fun _ => ?_
    -- both signs change, and the sides are exchanged
    have hb : b'.leadingMinus = true := (Bool.and_eq_true_iff.1 hminus).2
    obtain ⟨hnumbers, hopp⟩ := relates_opposite (r := r'.flip) (hclear.comm.numbers_left hb)
    rw [Rel.flip_flip, relates_flip] at hopp
    exact ⟨.inl hnumbers, hopp.trans hiff⟩

theorem says_canonical (h : w.Interprets t) (hrel : t.isRel = true) :
    w.Says (Statement.canonical t) (w.Holds t) := by
  obtain ⟨r, a, b, rfl⟩ := exists_of_isRel hrel
  obtain ⟨hclear, hiff⟩ := sameAs_canonicalParts (r := r) h.clear
  have heq : Statement.canonical (app (.rel r) [a, b]) =
      app (.rel (Statement.canonicalParts r a b).1)
        [(Statement.canonicalParts r a b).2.1, (Statement.canonicalParts r a b).2.2] := rfl
  rw [heq, Says, holds_rel, holds_rel]
  exact ⟨.rel hclear, hiff⟩

theorem says_not (h : w.Interprets t) (hu : (Statement.not t).result = .ok u) :
    w.Says u (¬ w.Holds t) := by
  -- a statement that is no comparison and no negation gets a sign in front
  have hsign : (Statement.not t).result = .ok (app .not [t]) → w.Says u (¬ w.Holds t) := by
    intro heq
    rw [heq] at hu
    cases hu
    exact ⟨.not h, holds_not⟩
  cases h with
  | truth c =>
    cases hu
    exact ⟨.truth _, by cases c <;> simp⟩
  | var v => exact hsign rfl
  | rel hclear =>
    cases hu
    rw [Says, holds_rel, holds_rel]
    exact ⟨.rel hclear, relates_negate⟩
  | and => exact hsign rfl
  | or => exact hsign rfl
  | not h =>
    cases hu
    rw [Says, holds_not, not_not]
    exact ⟨h, Iff.rfl⟩
  | @marker g hh ts => cases g <;> first | exact hsign rfl | cases hh

theorem nonzero_of_ask {k : Kind} {z : Bool} (hz : (Knowledge.ofKind k).ask .zero = some z) :
    z = false ∧ k.isNumeric = true ∧ ∀ x, k.SignFits x → x ≠ 0 := by
  cases k <;> cases z <;> first
    | exact absurd hz (by decide)
    | exact ⟨rfl, rfl, fun x hx => hx⟩
    | exact ⟨rfl, rfl, fun x hx => ne_of_gt hx⟩

theorem holds_var_of_ask {v : Variable} {z : Bool} (hz : (var v).ask .zero = some z) :
    w.Holds (var v) ↔ z = false := by
  rw [Term.ask, facts_var] at hz
  obtain ⟨rfl, hnumeric, hsign⟩ := nonzero_of_ask hz
  rw [Holds, hnumeric]
  exact iff_of_true (hsign _ (w.fits v hnumeric).2) rfl

theorem eq_of_member_app {h : Head} (hu : (Statement.member (app h ts)).result = .ok u) :
    u = app h ts := by
  have heq : Statement.member (app h ts) =
      if (app h ts).isStatement then pure (app h ts) else .fail .mistyped := rfl
  rw [heq] at hu
  split at hu
  · exact (Except.ok.inj hu).symm
  · cases hu

theorem says_member (h : w.Interprets t) (hu : (Statement.member t).result = .ok u) :
    w.Says u (w.Holds t) := by
  cases t with
  | truth c =>
    cases hu
    exact ⟨.truth c, Iff.rfl⟩
  | var v =>
    simp only [Statement.member] at hu
    cases hz : (var v).ask .zero with
    | some z =>
      rw [hz] at hu
      cases hu
      rw [Says, holds_var_of_ask hz, holds_truth]
      exact ⟨.truth _, by cases z <;> simp⟩
    | none =>
      rw [hz] at hu
      cases hu
      exact ⟨.var v, Iff.rfl⟩
  | app g ts =>
    rw [eq_of_member_app hu]
    exact ⟨h, Iff.rfl⟩
  | lit | num | special => cases h

theorem holds_of_follows {h g : Term} (hh : w.Interprets h) (hg : w.Interprets g)
    (hfollows : (Statement.follows h g).result = .ok true) (hholds : w.Holds h) : w.Holds g := by
  unfold Statement.follows at hfollows
  rw [asTruth_of_interprets hh, asTruth_of_interprets hg] at hfollows
  split at hfollows
  · simp
  · simp at hholds
  · obtain ⟨m, hm, heq⟩ := Outcome.result_bind_eq_ok.1 hfollows
    have htop : m = top := by simpa using heq
    have hiff := (says_member hg hm).2
    rw [htop] at hiff
    exact hiff.1 (by simp [top])
  · cases hfollows
  · split at hfollows
    · next heq => rwa [← heq]
    · have hforms : (h.isRel && g.isRel && Statement.canonical h == Statement.canonical g) = true :=
        Except.ok.inj hfollows
      simp only [Bool.and_eq_true, beq_iff_eq] at hforms
      obtain ⟨⟨hrel, grel⟩, heq⟩ := hforms
      rw [← (says_canonical hg grel).2, ← heq, (says_canonical hh hrel).2]
      exact hholds

theorem exists_of_test {hyps : List Term} {g : Term} {verbose : Bool}
    (htest : (Statement.test hyps g verbose).result = .ok true) :
    g = top ∨ g = lit (.bool true) ∨
      ∃ h ∈ hyps, (Statement.follows h g).result = .ok true := by
  unfold Statement.test at htest
  split at htest
  · next hgoal =>
    rcases Bool.or_eq_true_iff.1 hgoal with hgoal | hgoal
    · exact .inl (of_decide_eq_true hgoal)
    · exact .inr (.inl (of_decide_eq_true hgoal))
  · refine .inr (.inr ?_)
    induction hyps with
    | nil => cases htest
    | cons h hs ih =>
      have hrest : (Statement.test.search g verbose hs).result = .ok true →
          ∃ k ∈ h :: hs, (Statement.follows k g).result = .ok true := by
        intro hsearch
        obtain ⟨k, hk, hfollows⟩ := ih hsearch
        exact ⟨k, List.mem_cons_of_mem h hk, hfollows⟩
      rw [Statement.test.search] at htest
      split at htest
      · exact hrest htest
      · obtain ⟨found, hfound, htest⟩ := Outcome.result_bind_eq_ok.1 htest
        cases found with
        | true => exact ⟨h, List.mem_cons_self, hfound⟩
        | false => exact hrest htest

/-- **What follows at once** from some hypotheses holds where they do. -/
theorem holds_of_test {hyps : List Term} {g : Term} {verbose : Bool}
    (hhyps : ∀ h ∈ hyps, w.Interprets h) (hg : w.Interprets g)
    (htest : (Statement.test hyps g verbose).result = .ok true) (hhold : ∀ h ∈ hyps, w.Holds h) :
    w.Holds g := by
  rcases exists_of_test htest with rfl | rfl | ⟨h, hmem, hfollows⟩
  · simp [top]
  · cases hg
  · exact holds_of_follows (hhyps h hmem) hg hfollows (hhold h hmem)

end World
end Majorant
