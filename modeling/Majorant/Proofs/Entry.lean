import Mathlib.Algebra.BigOperators.Group.List.Basic
import Mathlib.Data.List.Nodup
import Mathlib.Tactic.Common

/-!
# Lists of entries under keys

Like terms of a sum, like factors of a product and like bases of a power are gathered in the same way: the
entry under a key is changed if there is one, and a new entry is added otherwise.
-/

namespace Majorant

variable {κ β : Type} [DecidableEq κ]

/-- Change the entry under a key; if there is none, add a new one. -/
def putEntry (k : κ) (change : β → β) (new : β) (es : List (κ × β)) : List (κ × β) :=
  if es.any (·.1 == k) then es.map fun p => if p.1 == k then (k, change p.2) else p
  else es ++ [(k, new)]

variable {k : κ} {change : β → β} {new : β} {es : List (κ × β)}

theorem putEntry_of_mem (h : k ∈ es.map (·.1)) :
    putEntry k change new es = es.map fun p => if p.1 == k then (k, change p.2) else p :=
  if_pos (by simpa using h)

theorem putEntry_of_notMem (h : k ∉ es.map (·.1)) :
    putEntry k change new es = es ++ [(k, new)] :=
  if_neg (by simpa using h)

theorem keys_putEntry :
    (putEntry k change new es).map (·.1) =
      if k ∈ es.map (·.1) then es.map (·.1) else es.map (·.1) ++ [k] := by
  by_cases h : k ∈ es.map (·.1)
  · rw [putEntry_of_mem h, if_pos h, List.map_map]
    apply List.map_congr_left
    intro p _
    by_cases hp : p.1 = k <;> simp [hp]
  · rw [putEntry_of_notMem h, if_neg h, List.map_append]
    rfl

theorem mem_keys_putEntry {j : κ} :
    j ∈ (putEntry k change new es).map (·.1) ↔ j ∈ es.map (·.1) ∨ j = k := by
  rw [keys_putEntry]
  by_cases h : k ∈ es.map (·.1)
  · rw [if_pos h]
    exact ⟨.inl, fun hj => hj.elim id fun heq => heq ▸ h⟩
  · rw [if_neg h, List.mem_append, List.mem_singleton]

theorem nodup_putEntry (h : (es.map (·.1)).Nodup) : ((putEntry k change new es).map (·.1)).Nodup := by
  rw [keys_putEntry]
  by_cases hk : k ∈ es.map (·.1)
  · rwa [if_pos hk]
  · rw [if_neg hk]
    exact List.nodup_append.2
      ⟨h, List.nodup_singleton k, fun a ha b hb hab => hk (List.mem_singleton.1 hb ▸ hab ▸ ha)⟩

theorem forall_mem_putEntry {P : κ × β → Prop} (h : ∀ p ∈ es, P p) (hnew : P (k, new))
    (hchange : ∀ b, P (k, b) → P (k, change b)) : ∀ p ∈ putEntry k change new es, P p := by
  intro p hp
  by_cases hk : k ∈ es.map (·.1)
  · rw [putEntry_of_mem hk] at hp
    obtain ⟨⟨j, b⟩, hmem, rfl⟩ := List.mem_map.1 hp
    by_cases hj : j = k
    · subst hj
      simpa using hchange b (h _ hmem)
    · simpa [hj] using h _ hmem
  · rw [putEntry_of_notMem hk] at hp
    rcases List.mem_append.1 hp with hp | hp
    · exact h p hp
    · rw [List.mem_singleton.1 hp]
      exact hnew

/-- **A total over the entries** grows by the share of what is put in. -/
theorem sum_map_putEntry {M : Type} [AddCommMonoid M] {f : κ × β → M} {w : M}
    (hes : (es.map (·.1)).Nodup) (hnew : f (k, new) = w)
    (hchange : ∀ b, (k, b) ∈ es → f (k, change b) = f (k, b) + w) :
    ((putEntry k change new es).map f).sum = (es.map f).sum + w := by
  by_cases hk : k ∈ es.map (·.1)
  · rw [putEntry_of_mem hk]
    clear hnew
    induction es with
    | nil => cases hk
    | cons p es ih =>
      rw [List.map_cons, List.nodup_cons] at hes
      by_cases hp : p.1 = k
      · -- The key stands nowhere else, so the rest of the list stays as it is.
        have hrest : (es.map fun p => if p.1 == k then (k, change p.2) else p) = es := by
          refine (List.map_congr_left fun q hq => ?_).trans (List.map_id es)
          have hne : q.1 ≠ k := fun heq => hes.1 (List.mem_map.2 ⟨q, hq, heq.trans hp.symm⟩)
          simp [hne]
        obtain ⟨j, b⟩ := p
        subst hp
        rw [List.map_cons, hrest]
        simp only [BEq.rfl, if_true, List.map_cons, List.sum_cons,
          hchange b List.mem_cons_self]
        exact add_right_comm _ _ _
      · have hk' : k ∈ es.map (·.1) := by
          rcases List.mem_cons.1 hk with heq | hk
          · exact absurd heq.symm hp
          · exact hk
        have hsame : (p.1 == k) = false := by simpa using hp
        have hsum := ih hes.2 (fun b hb => hchange b (List.mem_cons_of_mem p hb)) hk'
        simp only [List.map_cons, hsame, Bool.false_eq_true, if_false, List.sum_cons, hsum,
          add_assoc]
  · rw [putEntry_of_notMem hk, List.map_append, List.sum_append]
    simp [hnew]

theorem sum_map_filter {α M : Type} [AddCommMonoid M] {p : α → Bool} {f : α → M} {as : List α}
    (h : ∀ a ∈ as, p a = false → f a = 0) : ((as.filter p).map f).sum = (as.map f).sum := by
  induction as with
  | nil => rfl
  | cons a as ih =>
    have hrest := ih fun b hb => h b (List.mem_cons_of_mem a hb)
    by_cases hp : p a = true
    · rw [List.filter_cons_of_pos hp, List.map_cons, List.sum_cons, hrest, List.map_cons,
        List.sum_cons]
    · rw [List.filter_cons_of_neg hp, hrest, List.map_cons, List.sum_cons,
        h a List.mem_cons_self (Bool.eq_false_iff.2 hp), zero_add]

theorem nodup_eraseDups {α : Type} [BEq α] [LawfulBEq α] (as : List α) : as.eraseDups.Nodup := by
  -- The tail that is left after the first element is shorter, but no sublist at the same place.
  induction h : as.length using Nat.strongRecOn generalizing as with
  | _ n ih =>
    cases as with
    | nil => simp
    | cons a as =>
      rw [List.eraseDups_cons, List.nodup_cons]
      have hlt : (as.filter fun b => !b == a).length < n := by
        have := List.length_filter_le (fun b => !b == a) as
        simp only [List.length_cons] at h
        omega
      refine ⟨?_, ih _ hlt _ rfl⟩
      rw [List.mem_eraseDups, List.mem_filter]
      simp

theorem eraseDups_of_nodup {α : Type} [BEq α] [LawfulBEq α] {as : List α} (h : as.Nodup) : as.eraseDups = as := by
  induction as with
  | nil => rfl
  | cons a as ih =>
    rw [List.nodup_cons] at h
    have hfilter : (as.filter fun b => !b == a) = as := by
      refine List.filter_eq_self.2 fun b hb => ?_
      have hne : b ≠ a := fun heq => h.1 (heq ▸ hb)
      simpa using hne
    rw [List.eraseDups_cons, hfilter, ih h.2]

end Majorant
