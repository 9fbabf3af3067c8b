import Majorant.Proofs.Growth.Regime
import Mathlib.Analysis.Real.Hyperreal

/-!
# Hyperreal regimes

The hyperreal numbers contain the real numbers and elements that are larger than all of them, and
positive hyperreal numbers have roots.
-/

namespace Majorant

theorem Kind.fits_of_one_le {K : Type} [Field K] [LinearOrder K] [IsStrictOrderedRing K] {k : Kind} {x : K}
    (hx : 1 ≤ x) : k.Fits x := by
  have hpos : 0 < x := one_pos.trans_le hx
  cases k <;> simp only [Kind.Fits] <;> first | exact hx | exact hpos | exact hpos.le | exact hpos.ne'

/-- **Positive hyperreal numbers have roots**, which are taken in each place of a sequence. -/
theorem Growth.hasRoots_hyperreal : HasRoots Hyperreal := by
  intro x hx n hn
  obtain ⟨f, rfl⟩ := Hyperreal.ofSeq_surjective x
  have hpos : ∀ᶠ k in Filter.hyperfilter ℕ, 0 < f k := Hyperreal.ofSeq_lt_ofSeq.1 hx
  refine ⟨Hyperreal.ofSeq fun k => f k ^ (n : ℝ)⁻¹, ?_, ?_⟩
  · exact Hyperreal.ofSeq_lt_ofSeq.2 (hpos.mono fun k hk => Real.rpow_pos_of_pos hk _)
  · exact Filter.Germ.coe_eq.2 (hpos.mono fun k hk => Real.rpow_inv_natCast_pow hk.le hn)

namespace Regime

open Classical in
/-- The regime in which a variable is infinitely large, all others are one, and every statement holds that
is not about magnitudes. -/
noncomputable def infinite (v : Variable) : Regime Hyperreal where
  real := Hyperreal.coeRingHom
  value u := if u = v then Hyperreal.omega else 1
  fits u := by
    refine Kind.fits_of_one_le ?_
    split
    · exact (Hyperreal.coe_lt_omega 1).le
    · exact le_rfl
  marks _ := True

theorem value_infinite_self (v : Variable) : (infinite v).value v = Hyperreal.omega := if_pos rfl

theorem value_infinite_of_ne {u v : Variable} (h : u ≠ v) : (infinite v).value u = 1 := if_neg h

theorem not_dominated_omega : ¬ Growth.Dominated Hyperreal.omega 1 := by
  rintro ⟨n, hn⟩
  have hlt := Hyperreal.coe_lt_omega n
  have hcast : Hyperreal.ofReal n = n := map_natCast Hyperreal.coeRingHom n
  rw [mul_one, ← hcast] at hn
  exact absurd hn hlt.not_ge

end Regime
end Majorant
