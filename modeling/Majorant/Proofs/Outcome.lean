import Majorant.Outcome
import Mathlib.Data.List.Forall2
import Mathlib.Tactic.Common

/-!
# Results of outcomes

Equations for the result of an outcome that is put together from others; the lines that are written do
not matter for it.
-/

namespace Majorant
namespace Outcome

variable {α β : Type}

@[simp]
theorem result_pure (a : α) : (pure a : Outcome α).result = .ok a := rfl

@[simp]
theorem result_fail (e : Failure) : (fail e : Outcome α).result = .error e := rfl

@[simp]
theorem result_say (text : String) : (say text).result = .ok () := rfl

@[simp]
theorem result_sayAll (texts : List String) : (sayAll texts).result = .ok () := rfl

theorem andThen_ret (x : Outcome α) : x.andThen ret = x := by
  obtain ⟨r, log⟩ := x
  cases r <;> simp [andThen, ret]

theorem andThen_assoc {γ : Type} (x : Outcome α) (f : α → Outcome β) (g : β → Outcome γ) :
    (x.andThen f).andThen g = x.andThen fun a => (f a).andThen g := by
  obtain ⟨r, log⟩ := x
  cases r with
  | error e => rfl
  | ok a =>
    unfold andThen
    cases hf : (f a).result <;> simp [hf]

instance : LawfulMonad Outcome :=
  LawfulMonad.mk' Outcome andThen_ret ret_andThen andThen_assoc

theorem result_bind (x : Outcome α) (f : α → Outcome β) :
    (x >>= f).result = match x.result with
      | .ok a => (f a).result
      | .error e => .error e := by
  change (x.andThen f).result = _
  unfold andThen
  cases x.result <;> rfl

theorem result_bind_of_ok {x : Outcome α} {a : α} (h : x.result = .ok a) (f : α → Outcome β) :
    (x >>= f).result = (f a).result := by rw [result_bind, h]

theorem result_bind_of_error {x : Outcome α} {e : Failure} (h : x.result = .error e)
    (f : α → Outcome β) : (x >>= f).result = .error e := by rw [result_bind, h]

theorem result_bind_eq_ok {x : Outcome α} {f : α → Outcome β} {b : β} :
    (x >>= f).result = .ok b ↔ ∃ a, x.result = .ok a ∧ (f a).result = .ok b := by
  rw [result_bind]
  cases x.result with
  | ok a =>
    constructor
    · intro h
      exact ⟨a, rfl, h⟩
    · rintro ⟨a', ha, h⟩
      cases ha
      exact h
  | error e =>
    constructor
    · intro h
      cases h
    · rintro ⟨a, ha, -⟩
      cases ha

theorem result_mapM_eq_ok {f : α → Outcome β} {xs : List α} {ys : List β} :
    (xs.mapM f).result = .ok ys ↔ List.Forall₂ (fun x y => (f x).result = .ok y) xs ys := by
  induction xs generalizing ys with
  | nil =>
    rw [List.mapM_nil, result_pure, List.forall₂_nil_left_iff]
    constructor
    · intro h
      cases h
      rfl
    · rintro rfl
      rfl
  | cons x xs ih =>
    rw [List.mapM_cons, result_bind_eq_ok]
    constructor
    · rintro ⟨y, hy, h⟩
      obtain ⟨zs, hzs, h⟩ := result_bind_eq_ok.1 h
      cases h
      exact .cons hy (ih.1 hzs)
    · intro h
      cases h with
      | cons hy hys => exact ⟨_, hy, result_bind_eq_ok.2 ⟨_, ih.2 hys, rfl⟩⟩

theorem exists_mapM {f : α → Outcome β} {P : α → β → Prop} {xs : List α}
    (h : ∀ x ∈ xs, ∃ y, (f x).result = .ok y ∧ P x y) :
    ∃ ys, (xs.mapM f).result = .ok ys ∧ List.Forall₂ P xs ys := by
  induction xs with
  | nil => exact ⟨[], rfl, .nil⟩
  | cons x xs ih =>
    obtain ⟨⟨y, hy, hP⟩, hrest⟩ := List.forall_mem_cons.1 h
    obtain ⟨ys, hys, hall⟩ := ih hrest
    refine ⟨y :: ys, ?_, .cons hP hall⟩
    exact result_mapM_eq_ok.2 (.cons hy (result_mapM_eq_ok.1 hys))

theorem exists_of_mem_mapM {f : α → Outcome β} {xs : List α} {ys : List β} {y : β}
    (h : (xs.mapM f).result = .ok ys) (hy : y ∈ ys) : ∃ x ∈ xs, (f x).result = .ok y := by
  have hall := result_mapM_eq_ok.1 h
  clear h
  induction hall with
  | nil => cases hy
  | cons hx _ ih =>
    rcases List.mem_cons.1 hy with rfl | hy
    · exact ⟨_, List.mem_cons_self, hx⟩
    · obtain ⟨x', hx', h⟩ := ih hy
      exact ⟨x', List.mem_cons_of_mem _ hx', h⟩

theorem exists_mem_of_mapM {f : α → Outcome β} {xs : List α} {ys : List β} {x : α}
    (h : (xs.mapM f).result = .ok ys) (hx : x ∈ xs) : ∃ y ∈ ys, (f x).result = .ok y := by
  have hall := result_mapM_eq_ok.1 h
  clear h
  induction hall with
  | nil => cases hx
  | cons hy _ ih =>
    rcases List.mem_cons.1 hx with rfl | hx
    · exact ⟨_, List.mem_cons_self, hy⟩
    · obtain ⟨y', hy', h⟩ := ih hx
      exact ⟨y', List.mem_cons_of_mem _ hy', h⟩

theorem mapM_eq_pure {f : α → Outcome β} {g : α → β} {xs : List α} (h : ∀ x ∈ xs, f x = pure (g x)) :
    xs.mapM f = pure (xs.map g) := by
  induction xs with
  | nil => rfl
  | cons x xs ih =>
    rw [List.mapM_cons, h x List.mem_cons_self, pure_bind,
      ih fun y hy => h y (List.mem_cons_of_mem x hy), pure_bind]
    rfl

theorem result_forM_of_ok {f : α → Outcome Unit} {xs : List α}
    (h : ∀ x ∈ xs, (f x).result = .ok ()) : (xs.forM f).result = .ok () := by
  induction xs with
  | nil => rfl
  | cons x xs ih =>
    exact result_bind_eq_ok.2
      ⟨(), h x (by simp), ih fun y hy => h y (List.mem_cons_of_mem x hy)⟩

theorem result_of_forM_ok {f : α → Outcome Unit} {xs : List α} (h : (xs.forM f).result = .ok ()) :
    ∀ x ∈ xs, (f x).result = .ok () := by
  induction xs with
  | nil => exact List.forall_mem_nil _
  | cons x xs ih =>
    obtain ⟨_, hx, hxs⟩ := result_bind_eq_ok.1 h
    exact List.forall_mem_cons.2 ⟨hx, ih hxs⟩

theorem result_bind_congr {x : Outcome α} {f g : α → Outcome β}
    (h : ∀ a, (f a).result = (g a).result) : (x >>= f).result = (x >>= g).result := by
  rw [result_bind, result_bind]
  cases x.result with
  | error e => rfl
  | ok a => exact h a

theorem result_bind_eq_error {x : Outcome α} {f : α → Outcome β} {e : Failure} :
    (x >>= f).result = .error e ↔
      x.result = .error e ∨ ∃ a, x.result = .ok a ∧ (f a).result = .error e := by
  rw [result_bind]
  cases hx : x.result <;> simp

theorem exists_of_mapM_error {f : α → Outcome β} {xs : List α} {e : Failure}
    (h : (xs.mapM f).result = .error e) : ∃ x ∈ xs, (f x).result = .error e := by
  induction xs with
  | nil => cases h
  | cons x xs ih =>
    rw [List.mapM_cons] at h
    rcases result_bind_eq_error.1 h with h | ⟨y, -, h⟩
    · exact ⟨x, List.mem_cons_self, h⟩
    · rcases result_bind_eq_error.1 h with h | ⟨ys, -, h⟩
      · obtain ⟨x', hx', h⟩ := ih h
        exact ⟨x', List.mem_cons_of_mem x hx', h⟩
      · cases h

theorem result_mapM_of_error {f : α → Outcome β} {xs : List α} {x : α} {e : Failure}
    (hx : x ∈ xs) (hfails : (f x).result = .error e)
    (hall : ∀ y ∈ xs, ∀ e', (f y).result = .error e' → e' = e) : (xs.mapM f).result = .error e := by
  cases hresult : (xs.mapM f).result with
  | ok ys =>
    obtain ⟨y, -, hy⟩ := exists_mem_of_mapM hresult hx
    rw [hfails] at hy
    cases hy
  | error e' =>
    obtain ⟨y, hy, hcause⟩ := exists_of_mapM_error hresult
    rw [hall y hy e' hcause]

theorem result_require_of_true {condition : Bool} (h : condition = true) (e : Failure) :
    (require condition e).result = .ok () := by
  rw [require, if_pos h]
  rfl

theorem result_require_of_false {condition : Bool} (h : ¬ condition = true) (e : Failure) :
    (require condition e).result = .error e := by
  rw [require, if_neg h]
  rfl

theorem eq_of_require_error {condition : Bool} {e e' : Failure}
    (h : (require condition e).result = .error e') : e' = e := by
  unfold require at h
  split at h
  · cases h
  · cases h
    rfl

/-- **The outcome is a failure or has a property.** -/
def Yields (P : α → Prop) (x : Outcome α) : Prop := ∀ a, x.result = .ok a → P a

variable {P : α → Prop} {Q : β → Prop}

theorem yields_pure {a : α} (h : P a) : (pure a : Outcome α).Yields P := by
  rintro _ ⟨⟩
  exact h

theorem yields_fail (e : Failure) : (fail e : Outcome α).Yields P := nofun

theorem Yields.bind {x : Outcome α} {f : α → Outcome β} (hx : x.Yields P)
    (hf : ∀ a, P a → (f a).Yields Q) : (x >>= f).Yields Q := by
  intro b hb
  obtain ⟨a, ha, hb⟩ := result_bind_eq_ok.1 hb
  exact hf a (hx a ha) b hb

theorem yields_bind {x : Outcome α} {f : α → Outcome β} (hf : ∀ a, (f a).Yields Q) :
    (x >>= f).Yields Q :=
  Yields.bind (P := fun _ => True) (fun _ _ => True.intro) fun a _ => hf a

theorem yields_bind_of_result {x : Outcome α} {f : α → Outcome β}
    (hf : ∀ a, x.result = .ok a → (f a).Yields Q) : (x >>= f).Yields Q :=
  Yields.bind (fun _ ha => ha) hf

theorem yields_require (c : Bool) (e : Failure) : (require c e).Yields fun _ => c = true := by
  unfold require
  split
  · exact yields_pure ‹_›
  · exact yields_fail e

theorem Yields.mono {x : Outcome α} {P' : α → Prop} (hx : x.Yields P) (h : ∀ a, P a → P' a) :
    x.Yields P' := fun a ha => h a (hx a ha)

theorem Yields.map {x : Outcome α} {g : α → β} (hx : x.Yields fun a => Q (g a)) :
    (g <$> x).Yields Q := by
  rw [map_eq_pure_bind]
  exact hx.bind fun a ha => yields_pure ha

theorem Yields.and {x : Outcome α} {P' : α → Prop} (hx : x.Yields P) (hx' : x.Yields P') :
    x.Yields fun a => P a ∧ P' a := fun a ha => ⟨hx a ha, hx' a ha⟩

theorem yields_mapM_length {f : α → Outcome β} {xs : List α} :
    (xs.mapM f).Yields fun ys => ys.length = xs.length :=
  fun _ hys => (result_mapM_eq_ok.1 hys).length_eq.symm

theorem yields_mapM {f : α → Outcome β} {xs : List α} (h : ∀ x ∈ xs, (f x).Yields Q) :
    (xs.mapM f).Yields fun ys => ∀ y ∈ ys, Q y := by
  intro ys hys y hy
  obtain ⟨x, hx, hxy⟩ := exists_of_mem_mapM hys hy
  exact h x hx y hxy

theorem yields_filterMapM {f : α → Outcome (Option β)} {xs : List α}
    (h : ∀ x ∈ xs, (f x).Yields fun y => ∀ z ∈ y, Q z) :
    (xs.filterMapM f).Yields fun ys => ∀ y ∈ ys, Q y := by
  induction xs with
  | nil => exact yields_pure (List.forall_mem_nil _)
  | cons x xs ih =>
    obtain ⟨hx, hxs⟩ := List.forall_mem_cons.1 h
    rw [List.filterMapM_cons]
    refine hx.bind fun y hy => ?_
    cases y with
    | none => exact ih hxs
    | some z =>
      exact (ih hxs).bind fun zs hzs => yields_pure (List.forall_mem_cons.2 ⟨hy z rfl, hzs⟩)

theorem yields_foldlM {f : β → α → Outcome β} {xs : List α} {b : β} (hb : Q b)
    (h : ∀ b, Q b → ∀ x ∈ xs, (f b x).Yields Q) : (xs.foldlM f b).Yields Q := by
  induction xs generalizing b with
  | nil => exact yields_pure hb
  | cons x xs ih =>
    rw [List.foldlM_cons]
    exact (h b hb x (by simp)).bind fun b' hb' =>
      ih hb' fun c hc y hy => h c hc y (List.mem_cons_of_mem x hy)

theorem yields_ite {c : Prop} [Decidable c] {x y : Outcome α} (hx : x.Yields P) (hy : y.Yields P) :
    (if c then x else y).Yields P := by
  split
  · exact hx
  · exact hy

end Outcome
end Majorant
