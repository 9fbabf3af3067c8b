import Majorant.Proofs.Real.Truth
import Mathlib.NumberTheory.Real.Irrational

/-!
# What is known of real numbers is right

Knowledge about a value lists the classes it may have.  It *allows* a real number if one of the classes
describes it.
-/

namespace Majorant

/-- **A real number has a property.** -/
def Property.Of : Property → ℝ → Prop
  | commutative, _ | finite, _ | complex, _ | real, _ | extReal, _ => True
  | infinite, _ | imaginary, _ => False
  | rational, x => ∃ q : ℚ, x = q
  | irrational, x => ¬ ∃ q : ℚ, x = q
  | integer, x => ∃ n : ℤ, x = n
  | even, x => ∃ n : ℤ, Even n ∧ x = n
  | odd, x => ∃ n : ℤ, Odd n ∧ x = n
  | zero, x => x = 0
  | positive, x | extPositive, x => 0 < x
  | negative, x | extNegative, x => x < 0
  | nonnegative, x | extNonnegative, x => 0 ≤ x
  | nonpositive, x | extNonpositive, x => x ≤ 0
  | nonzero, x | extNonzero, x => x ≠ 0

/-- An answer to a question, if there is one, is right. -/
def Answers (P : Prop) (a : Option Bool) : Prop := ∀ b, a = some b → (P ↔ b = true)

theorem answers_none (P : Prop) : Answers P none := nofun

theorem answers_true {P : Prop} (h : P) : Answers P (some true) := by
  rintro _ ⟨⟩
  simpa using h

theorem answers_false {P : Prop} (h : ¬ P) : Answers P (some false) := by
  rintro _ ⟨⟩
  simpa using h

theorem answers_yesIf {P : Prop} {c : Bool} (h : c = true → P) : Answers P (Facts.yesIf c) := by
  unfold Facts.yesIf
  split
  · next hc => exact answers_true (h hc)
  · exact answers_none P

theorem Property.odd_of_intCast {n : ℤ} : Property.odd.Of n ↔ Odd n := by
  constructor
  · rintro ⟨m, hm, heq⟩
    rwa [Int.cast_injective heq]
  · exact fun hn => ⟨n, hn, rfl⟩

namespace ValueClass

/-- **A class describes a real number** if it has the same properties. -/
def Describes (c : ValueClass) (x : ℝ) : Prop := ∀ p : Property, p.holds c = true ↔ p.Of x

variable {c : ValueClass} {x : ℝ}

theorem odd_iff : (∃ n : ℤ, Odd n ∧ x = n) ↔ (∃ n : ℤ, x = n) ∧ ¬ ∃ n : ℤ, Even n ∧ x = n := by
  constructor
  · rintro ⟨n, hn, rfl⟩
    refine ⟨⟨n, rfl⟩, ?_⟩
    rintro ⟨m, hm, heq⟩
    rw [Int.cast_injective heq] at hn
    exact Int.not_odd_iff_even.2 hm hn
  · rintro ⟨⟨n, rfl⟩, heven⟩
    exact ⟨n, Int.not_even_iff_odd.1 fun hn => heven ⟨n, hn, rfl⟩, rfl⟩

/-- A class of real numbers describes those that are of the same nature and have the same sign. -/
theorem describes_of (hreal : c.isReal = true) (hrational : c.isRational = true ↔ ∃ q : ℚ, x = q)
    (hinteger : c.isInteger = true ↔ ∃ n : ℤ, x = n)
    (heven : Property.even.holds c = true ↔ ∃ n : ℤ, Even n ∧ x = n)
    (hpositive : c.isPositive = true ↔ 0 < x) (hnegative : c.isNegative = true ↔ x < 0) :
    c.Describes x := by
  have hodd : Property.odd.holds c = true ↔ ∃ n : ℤ, Odd n ∧ x = n := by
    rw [odd_iff, ← hinteger, ← heven]
    revert hreal
    cases c <;> decide
  have hzero : (c == .zero) = true ↔ x = 0 := by
    have hsign : x = 0 ↔ ¬ 0 < x ∧ ¬ x < 0 := by
      rw [not_lt, not_lt, le_antisymm_iff]
    rw [hsign, ← hpositive, ← hnegative]
    revert hreal
    cases c <;> decide
  -- every other property is one of these or the negation of one
  intro p
  cases p with
  | rational => exact hrational
  | integer => exact hinteger
  | even => exact heven
  | odd => exact hodd
  | zero => exact hzero
  | extPositive => exact hpositive
  | extNegative => exact hnegative
  | irrational =>
    rw [Property.Of, ← hrational]
    revert hreal
    cases c <;> decide
  | positive =>
    rw [Property.Of, ← hpositive]
    revert hreal
    cases c <;> decide
  | negative =>
    rw [Property.Of, ← hnegative]
    revert hreal
    cases c <;> decide
  | nonnegative | extNonnegative =>
    rw [Property.Of, ← not_lt, ← hnegative]
    revert hreal
    cases c <;> decide
  | nonpositive | extNonpositive =>
    rw [Property.Of, ← not_lt, ← hpositive]
    revert hreal
    cases c <;> decide
  | nonzero | extNonzero =>
    rw [Property.Of, ne_eq, ← hzero]
    revert hreal
    cases c <;> decide
  | _ =>
    rw [Property.Of]
    revert hreal
    cases c <;> decide

/-- Of two classes of the same nature and of opposite signs, one describes a number of this nature. -/
theorem exists_describes_of_nature (neg pos : ValueClass) (hzero : x ≠ 0)
    (hneg : neg.isPositive = false ∧ neg.isNegative = true)
    (hpos : pos.isPositive = true ∧ pos.isNegative = false)
    (hnature : ∀ c ∈ [neg, pos], c.isReal = true ∧ (c.isRational = true ↔ ∃ q : ℚ, x = q) ∧
      (c.isInteger = true ↔ ∃ n : ℤ, x = n) ∧
      (Property.even.holds c = true ↔ ∃ n : ℤ, Even n ∧ x = n)) : ∃ c : ValueClass, c.Describes x := by
  simp only [List.forall_mem_cons] at hnature
  obtain ⟨⟨hreal, hrational, hinteger, heven⟩, ⟨hreal', hrational', hinteger', heven'⟩, -⟩ := hnature
  rcases lt_or_gt_of_ne hzero with hsign | hsign
  · refine ⟨neg, describes_of hreal hrational hinteger heven ?_ (iff_of_true hneg.2 hsign)⟩
    exact iff_of_false (Bool.eq_false_iff.1 hneg.1) hsign.not_gt
  · refine ⟨pos, describes_of hreal' hrational' hinteger' heven' (iff_of_true hpos.1 hsign) ?_⟩
    exact iff_of_false (Bool.eq_false_iff.1 hpos.2) hsign.not_gt

theorem exists_describes (x : ℝ) : ∃ c : ValueClass, c.Describes x := by
  by_cases hzero : x = 0
  · refine ⟨.zero, describes_of rfl (iff_of_true rfl ⟨0, ?_⟩) (iff_of_true rfl ⟨0, ?_⟩)
      (iff_of_true rfl ⟨0, Even.zero, ?_⟩) (iff_of_false nofun ?_) (iff_of_false nofun ?_)⟩ <;>
      simp [hzero]
  have hinteger_of : (∃ n : ℤ, Even n ∧ x = n) → ∃ n : ℤ, x = n := fun ⟨n, _, hn⟩ => ⟨n, hn⟩
  have hrational_of : (∃ n : ℤ, x = n) → ∃ q : ℚ, x = q := fun ⟨n, hn⟩ => ⟨n, by simpa using hn⟩
  by_cases heven : ∃ n : ℤ, Even n ∧ x = n
  · have hinteger := hinteger_of heven
    refine exists_describes_of_nature .negEven .posEven hzero ⟨rfl, rfl⟩ ⟨rfl, rfl⟩ ?_
    simp [isReal, isRational, isInteger, Property.holds, heven, hinteger, hrational_of hinteger]
  by_cases hinteger : ∃ n : ℤ, x = n
  · refine exists_describes_of_nature .negOdd .posOdd hzero ⟨rfl, rfl⟩ ⟨rfl, rfl⟩ ?_
    simp [isReal, isRational, isInteger, Property.holds, heven, hinteger, hrational_of hinteger]
  by_cases hrational : ∃ q : ℚ, x = q
  · refine exists_describes_of_nature .negRatio .posRatio hzero ⟨rfl, rfl⟩ ⟨rfl, rfl⟩ ?_
    simp [isReal, isRational, isInteger, Property.holds, heven, hinteger, hrational]
  · refine exists_describes_of_nature .negIrrational .posIrrational hzero ⟨rfl, rfl⟩ ⟨rfl, rfl⟩ ?_
    simp [isReal, isRational, isInteger, Property.holds, heven, hinteger, hrational]

theorem integer_iff_den (q : ℚ) : (∃ n : ℤ, (q : ℝ) = n) ↔ q.den = 1 := by
  constructor
  · rintro ⟨n, hn⟩
    have hq : q = n := by exact_mod_cast hn
    rw [hq]
    rfl
  · intro hden
    exact ⟨q.num, by exact_mod_cast (Rat.coe_int_num_of_den_eq_one hden).symm⟩

theorem even_iff_num (q : ℚ) : (∃ n : ℤ, Even n ∧ (q : ℝ) = n) ↔ q.den = 1 ∧ q.num % 2 = 0 := by
  constructor
  · rintro ⟨n, heven, hn⟩
    have hq : q = n := by exact_mod_cast hn
    rw [hq]
    exact ⟨rfl, Int.even_iff.1 heven⟩
  · rintro ⟨hden, hnum⟩
    exact ⟨q.num, Int.even_iff.2 hnum, by exact_mod_cast (Rat.coe_int_num_of_den_eq_one hden).symm⟩

theorem describes_ofRat (q : ℚ) : (ofRat q).Describes q := by
  have hpos : (0 : ℝ) < q ↔ 0 < q.num := by rw [Rat.cast_pos, Rat.num_pos]
  have hneg : (q : ℝ) < 0 ↔ q.num < 0 := by rw [Rat.cast_lt_zero, Rat.num_neg]
  have hzero : q = 0 ↔ q.num = 0 := Rat.num_eq_zero.symm
  apply describes_of
  · unfold ofRat
    split_ifs <;> rfl
  · refine iff_of_true ?_ ⟨q, rfl⟩
    unfold ofRat
    split_ifs <;> rfl
  · rw [integer_iff_den]
    unfold ofRat
    split_ifs <;> simp_all [isInteger]
  · rw [even_iff_num]
    unfold ofRat
    split_ifs <;> simp_all [Property.holds]
  · rw [hpos]
    unfold ofRat
    split_ifs <;> simp_all [isPositive]
  · rw [hneg]
    simp only [ofRat, hzero]
    split_ifs <;> first
      | exact iff_of_true rfl (by omega)
      | exact iff_of_false Bool.false_ne_true (by omega)

end ValueClass

namespace Knowledge
open ValueClass

/-- **A real number is among the values that are possible.** -/
def Allows (k : Knowledge) (x : ℝ) : Prop := ∃ c ∈ k.possible, c.Describes x

variable {k : Knowledge} {p : Property} {x : ℝ}

theorem Allows.ne_nil (h : k.Allows x) : k.possible ≠ [] := by
  obtain ⟨c, hc, -⟩ := h
  exact List.ne_nil_of_mem hc

theorem Allows.of_is (h : k.Allows x) (hp : k.is p = true) : p.Of x := by
  obtain ⟨c, hc, hdescribes⟩ := h
  exact (hdescribes p).1 (is_iff.1 hp c hc)

/-- **Answers about a number that is allowed are right.** -/
theorem Allows.answers_ask (h : k.Allows x) (p : Property) : Answers (p.Of x) (k.ask p) := by
  have hne := h.ne_nil
  obtain ⟨c, hc, hdescribes⟩ := h
  intro b hb
  rw [← hdescribes p]
  cases b with
  | true => simp [ask_eq_some_true_iff.1 hb c hc]
  | false => simp [(ask_eq_some_false_iff hne).1 hb c hc]

theorem Allows.of_isNot (h : k.Allows x) (hp : k.isNot p = true) : ¬ p.Of x := by
  have hask : k.ask p = some false := by simpa [isNot] using hp
  simpa using h.answers_ask p false hask

/-- **Learning what is right** leaves the number possible. -/
theorem Allows.learn {a : Option Bool} (h : k.Allows x) (ha : Answers (p.Of x) a) :
    (k.learn p a).Allows x := by
  obtain ⟨c, hc, hdescribes⟩ := h
  cases a with
  | none => exact ⟨c, hc, hdescribes⟩
  | some b =>
    have hkept : c ∈ k.possible.filter fun c => p.holds c == b := by
      rw [List.mem_filter, beq_iff_eq, Bool.eq_iff_iff, hdescribes p]
      exact ⟨hc, ha b rfl⟩
    have hrest : (k.possible.filter fun c => p.holds c == b).isEmpty = false := by
      rw [List.isEmpty_eq_false_iff]
      exact List.ne_nil_of_mem hkept
    refine ⟨c, ?_, hdescribes⟩
    unfold Knowledge.learn
    dsimp only
    rw [hrest]
    exact hkept

theorem Allows.learnAll {as : List (Property × Option Bool)} (h : k.Allows x)
    (has : ∀ a ∈ as, Answers (a.1.Of x) a.2) : (k.learnAll as).Allows x := by
  unfold Knowledge.learnAll
  induction as generalizing k with
  | nil => exact h
  | cons a as ih =>
    obtain ⟨ha, has⟩ := List.forall_mem_cons.1 has
    exact ih (h.learn ha) has

theorem allows_unknown (x : ℝ) : unknown.Allows x := by
  obtain ⟨c, hc⟩ := exists_describes x
  exact ⟨c, mem_all c, hc⟩

theorem allows_exact (q : ℚ) : (exact q).Allows q :=
  ⟨ofRat q, List.mem_singleton_self _, describes_ofRat q⟩

theorem allows_ofKind {κ : Kind} (h : κ.Admits x) : (ofKind κ).Allows x := by
  obtain ⟨hcontains, hsign⟩ := h
  cases κ with
  | prop | order => cases hcontains
  | int | rat => exact (allows_unknown x).learn (answers_true hcontains)
  | real | complex => exact (allows_unknown x).learn (answers_true trivial)
  | posReal | nonnegReal | nonzeroReal => exact (allows_unknown x).learn (answers_true hsign)
  | posInt | nonnegInt | nonzeroInt =>
    exact ((allows_unknown x).learn (p := .integer) (answers_true hcontains)).learn (answers_true hsign)
  | posRat | nonnegRat | nonzeroRat =>
    exact ((allows_unknown x).learn (p := .rational) (answers_true hcontains)).learn (answers_true hsign)

end Knowledge

end Majorant
