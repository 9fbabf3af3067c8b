import Majorant.Linear.Feasibility
import Majorant.Proofs.Magnitude.Logarithm

/-!
# Names of orders of magnitude

The text of a composed order is put together from the names of its variables, rational numbers and a few
signs, so it can be written whenever the names of the variables can.
-/

namespace Majorant

namespace Linear

theorem encodable_append {s t : String} (hs : encodable s = true) (ht : encodable t = true) :
    encodable (s ++ t) = true := by
  unfold encodable at hs ht ⊢
  rw [String.toList_append, List.all_append, hs, ht]
  rfl

theorem encodable_intercalate {sep : String} (hsep : encodable sep = true) {ss : List String}
    (hss : ∀ s ∈ ss, encodable s = true) : encodable (sep.intercalate ss) = true := by
  induction ss with
  | nil => rfl
  | cons s ss ih =>
    obtain ⟨hs, hrest⟩ := List.forall_mem_cons.1 hss
    cases ss with
    | nil => rwa [String.intercalate_singleton]
    | cons t ss =>
      rw [String.intercalate_cons_cons]
      exact encodable_append (encodable_append hs hsep) (ih hrest)

theorem encodable_nat (n : Nat) : encodable (toString n) = true := by
  simp only [encodable, List.all_eq_true, decide_eq_true_eq]
  intro c hc
  have hdigit : c.isDigit = true :=
    Nat.isDigit_of_mem_toDigits (by decide) (by decide) (Nat.toList_repr ▸ hc)
  have hle : c.toNat ≤ 57 := (Char.isDigit_iff_toNat.1 hdigit).2
  omega

theorem encodable_int (n : Int) : encodable (toString n) = true := by
  cases n with
  | ofNat m => exact encodable_nat m
  | negSucc m => exact encodable_append (by decide) (encodable_nat (m + 1))

theorem encodable_ratText (q : Rat) : encodable (ratText q) = true := by
  unfold ratText
  split
  · exact encodable_int q.num
  · exact encodable_append (encodable_append (encodable_int q.num) (by decide)) (encodable_nat q.den)

end Linear

namespace Magnitude
open Term Linear

/-- However it is printed, the term can be written. -/
def Printable (t : Term) : Prop :=
  ∀ n, encodable (innerAux n t) = true ∧ encodable (textAux n t) = true ∧
    encodable (quotedAux n t) = true

variable {t : Term} {as : List Term}

theorem printable_of_inner (htext : ∀ n, textAux (n + 1) t = innerAux n t)
    (hquoted : ∀ n, quotedAux (n + 1) t = textAux n t)
    (h : ∀ n, encodable (innerAux (n + 1) t) = true) : Printable t := by
  have hempty : encodable "" = true := by decide
  have hinner : ∀ n, encodable (innerAux n t) = true
    | 0 => by rwa [innerAux]
    | n + 1 => h n
  have hall : ∀ n, encodable (textAux n t) = true
    | 0 => by rwa [textAux]
    | n + 1 => by rw [htext]; exact hinner n
  refine fun n => ⟨hinner n, hall n, ?_⟩
  cases n with
  | zero => rwa [quotedAux]
  | succ n => rw [hquoted]; exact hall n

theorem printable_num (q : Rat) : Printable (num q) :=
  printable_of_inner (fun _ => rfl) (fun _ => rfl) fun _ => encodable_ratText q

theorem printable_var {v : Variable} (h : encodable v.name = true) : Printable (var v) :=
  printable_of_inner (fun _ => rfl) (fun _ => rfl) fun _ => h

theorem encodable_call {label : String} (hlabel : encodable label = true) {print : Term → String}
    (has : ∀ a ∈ as, encodable (print a) = true) :
    encodable (label ++ commas (as.map print) ++ ")") = true := by
  refine encodable_append (encodable_append hlabel ?_) (by decide)
  exact encodable_intercalate (by decide) (List.forall_mem_map.2 has)

theorem printable_theta {a : Term} (ha : Printable a) : Printable (app .theta [a]) :=
  printable_of_inner (fun _ => rfl) (fun _ => rfl) fun n =>
    encodable_call (by decide) (List.forall_mem_singleton.2 (ha n).2.2)

theorem printable_args {h : Head}
    (hh : h = .orderMul ∨ h = .orderPow ∨ h = .orderMax ∨ h = .orderMin)
    (has : ∀ a ∈ as, Printable a) : Printable (app h as) := by
  have htexts : ∀ n, ∀ a ∈ as, encodable (textAux n a) = true := fun n a ha => (has a ha n).2.1
  rcases hh with rfl | rfl | rfl | rfl <;>
    refine printable_of_inner (fun _ => rfl) (fun _ => rfl) fun n => ?_
  · exact encodable_intercalate (by decide) (List.forall_mem_map.2 (htexts n))
  · exact encodable_intercalate (by decide) (List.forall_mem_map.2 (htexts n))
  · exact encodable_call (by decide) (htexts n)
  · exact encodable_call (by decide) (htexts n)

/-- **The text of a composed order can be written** if the names of its variables can. -/
theorem Composed.encodable_text {N : Variable → Prop} (hN : ∀ v, N v → encodable v.name = true)
    (h : Composed N t) : encodable t.text = true := by
  have hprintable : Printable t := by
    induction h with
    | @order v hv => exact printable_var (hN v hv)
    | @theta v hv => exact printable_theta (printable_var (hN v hv))
    | unit => exact printable_theta (printable_num 1)
    | product _ ih => exact printable_args (.inl rfl) ih
    | power _ q ih =>
      exact printable_args (.inr (.inl rfl))
        (List.forall_mem_cons.2 ⟨ih, List.forall_mem_singleton.2 (printable_num q)⟩)
    | extremum hh _ _ _ _ ih => exact printable_args (.inr (.inr hh)) ih
  exact (hprintable _).2.1

end Magnitude
end Majorant
