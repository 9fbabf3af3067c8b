import Majorant.Number.Binary64
import Mathlib.Algebra.Order.Floor.Ring
import Mathlib.Data.Nat.Log
import Mathlib.Data.Rat.Floor
import Mathlib.Tactic.FieldSimp
import Mathlib.Tactic.Linarith

/-!
# Rounding to the grid
-/

namespace Majorant
namespace Binary64

theorem pow2_eq (e : Int) : pow2 e = (2 : ℚ) ^ e := by
  unfold pow2
  split
  · next h =>
    obtain ⟨n, rfl⟩ := Int.eq_ofNat_of_zero_le h
    simp
  · next h =>
    obtain ⟨n, hn⟩ := Int.eq_ofNat_of_zero_le (Int.neg_nonneg.2 (le_of_not_ge h))
    obtain rfl : e = -(n : ℤ) := by omega
    simp

theorem pow2_pos (e : Int) : 0 < pow2 e := by
  rw [pow2_eq]
  exact zpow_pos two_pos e

theorem one_le_roundHalfEven {x : ℚ} (h : 1 ≤ x) : 1 ≤ roundHalfEven x := by
  have hfloor : 1 ≤ x.floor := Rat.le_floor_iff.2 (by simpa using h)
  unfold roundHalfEven
  dsimp only
  split_ifs <;> omega

theorem roundHalfEven_le {x : ℚ} : (roundHalfEven x : ℚ) ≤ x + 1 := by
  have hfloor : (x.floor : ℚ) ≤ x := Rat.floor_le x
  unfold roundHalfEven
  dsimp only
  split_ifs <;> push_cast <;> linarith

theorem zpow_log2_le {q : ℚ} (h : 0 < q) :
    (2 : ℚ) ^ ((q.num.natAbs.log2 : ℤ) - (q.den.log2 : ℤ) - 1) ≤ q := by
  have hnum : ((2 ^ q.num.natAbs.log2 : ℕ) : ℚ) ≤ q.num := by
    have hle := Nat.log2_self_le (Int.natAbs_ne_zero.2 (Rat.num_pos.2 h).ne')
    have habs : (q.num.natAbs : ℤ) = q.num := Int.natAbs_of_nonneg (Rat.num_pos.2 h).le
    rw [← habs, Int.cast_natCast]
    exact_mod_cast hle
  have hden : (q.den : ℚ) ≤ ((2 ^ (q.den.log2 + 1) : ℕ) : ℚ) := by
    exact_mod_cast (Nat.lt_log2_self).le
  have hpos : (0 : ℚ) < q.den := by exact_mod_cast q.den_pos
  calc (2 : ℚ) ^ ((q.num.natAbs.log2 : ℤ) - (q.den.log2 : ℤ) - 1)
      = ((2 ^ q.num.natAbs.log2 : ℕ) : ℚ) / ((2 ^ (q.den.log2 + 1) : ℕ) : ℚ) := by
        rw [sub_sub, zpow_sub₀ two_ne_zero]
        push_cast
        norm_cast
    _ ≤ q.num / q.den := by gcongr
    _ = q := Rat.num_div_den q

theorem pow2_exponent_le {q : ℚ} (h : pow2 (-1074) ≤ q) : pow2 (exponent q) ≤ q := by
  have hpos : 0 < q := (pow2_pos _).trans_le h
  unfold exponent
  dsimp only
  generalize hguess : (q.num.natAbs.log2 : ℤ) - (q.den.log2 : ℤ) = guess
  have hbelow := zpow_log2_le hpos
  rw [hguess] at hbelow
  -- the guess for the leading digit is right, or one too large
  have htop : (2 : ℚ) ^ (if q < pow2 guess then guess - 1 else guess) ≤ q := by
    split
    · exact hbelow
    · next hle => rwa [pow2_eq, not_lt] at hle
  generalize (if q < pow2 guess then guess - 1 else guess) = top at htop
  rcases max_choice (top - 52) (-1074) with hmax | hmax <;> rw [hmax]
  · rw [pow2_eq]
    exact (zpow_le_zpow_right₀ one_le_two (by omega)).trans htop
  · exact h

theorem nearest_eq {q : ℚ} (h : 0 < q) :
    nearest q = roundHalfEven (q / pow2 (exponent q)) * pow2 (exponent q) := by
  unfold nearest
  rw [if_neg h.ne', if_neg h.le.not_gt]

theorem nearest_pos {q : ℚ} (h : pow2 (-1074) ≤ q) : 0 < nearest q := by
  have hunit := pow2_pos (exponent q)
  have hround : 1 ≤ roundHalfEven (q / pow2 (exponent q)) :=
    one_le_roundHalfEven ((one_le_div hunit).2 (pow2_exponent_le h))
  rw [nearest_eq ((pow2_pos _).trans_le h)]
  exact mul_pos (by exact_mod_cast hround) hunit

theorem nearest_le {q : ℚ} (h : pow2 (-1074) ≤ q) : nearest q ≤ 2 * q := by
  have hunit := pow2_pos (exponent q)
  rw [nearest_eq ((pow2_pos _).trans_le h)]
  calc (roundHalfEven (q / pow2 (exponent q)) : ℚ) * pow2 (exponent q)
      ≤ (q / pow2 (exponent q) + 1) * pow2 (exponent q) := by
        gcongr
        exact roundHalfEven_le
    _ = q + pow2 (exponent q) := by field_simp
    _ ≤ 2 * q := by linarith [pow2_exponent_le h]

/-- **A positive whole number that can be measured** has a positive measured reciprocal. -/
theorem nearest_reciprocal_pos {n : ℤ} (hn : 0 < n) (hfits : overflows n = false) :
    0 < nearest n ∧ 0 < nearest (1 / nearest n) := by
  have hone : (1 : ℚ) ≤ n := by exact_mod_cast hn
  have hsmall : pow2 (-1074) ≤ (n : ℚ) := by
    rw [pow2_eq]
    exact (zpow_le_one_of_nonpos₀ one_le_two (by norm_num)).trans hone
  have hpos := nearest_pos hsmall
  refine ⟨hpos, nearest_pos ?_⟩
  have hlimit : (n : ℚ) ≤ pow2 1024 := by
    have hlt : (n : ℚ) < limit := by
      unfold overflows at hfits
      simpa using (Bool.or_eq_false_iff.1 hfits).1
    exact (hlt.trans (sub_lt_self _ (pow2_pos 970))).le
  have hbound : nearest n ≤ pow2 1074 := by
    calc nearest n ≤ 2 * n := nearest_le hsmall
      _ ≤ 2 * pow2 1024 := by gcongr
      _ ≤ pow2 1074 := by
        rw [pow2_eq, pow2_eq, ← zpow_one_add₀ two_ne_zero]
        exact zpow_le_zpow_right₀ one_le_two (by norm_num)
  have hinv : pow2 (-1074) = 1 / pow2 1074 := by
    rw [pow2_eq, pow2_eq, zpow_neg, one_div]
  rw [hinv]
  exact one_div_le_one_div_of_le hpos hbound

end Binary64
end Majorant
