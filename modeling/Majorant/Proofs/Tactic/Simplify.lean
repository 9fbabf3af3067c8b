import Majorant.Proofs.Simplifier.Simplify
import Majorant.Proofs.Tactic.Logic

/-!
# Simplifying everything

One hypothesis after another is simplified by the others, and then the goal by all that is left of them.  The
loop runs over the hypotheses of the state it started with, while the others are those of the moment.
-/

namespace Majorant
open Term Proof Simplifier

theorem Vocabulary.Sentence.isDeclaration {V : Vocabulary} {t : Term} (h : V.Sentence t) :
    isDeclaration t = false := by
  cases h <;> rfl

namespace Calculus

variable {ι : Type*} [Nonempty ι] {M : Type} [LinearOrder M] {worlds : ι → World M}
  {V : Vocabulary} {h : Term} {hyps : List Term} (hV : Calculus worlds V)

include hV

end Calculus

namespace Tactic

/-- Where the simplification of the hypotheses stands: those of `rest` are still to come. -/
structure Pending (V : Vocabulary) (rest current : Context) : Prop where
  names : current.names.Nodup
  rest_names : rest.names.Nodup
  subset : rest ⊆ current
  hypothesis : ∀ h ∈ current.hypotheses, V.Hypothesis h
  /-- The literal truth is left only among those to come. -/
  top_mem : ∀ p ∈ current, p.2 = top → p ∈ rest
  /-- Where it comes after a hypothesis, zero does not occur in this one. -/
  zero : rest.Pairwise fun p q => q.2 = top → p.2.hasZero = false

section Pending

variable {V : Vocabulary} {rest current : Context} {name : String} {h u : Term}

theorem Pending.mem (hp : Pending V ((name, h) :: rest) current) : (name, h) ∈ current :=
  hp.subset List.mem_cons_self

theorem Pending.ne_name (hp : Pending V ((name, h) :: rest) current) {p : String × Term}
    (hmem : p ∈ rest) : p.1 ≠ name := by
  have hfresh : name ∉ rest.map (·.1) := (List.nodup_cons.1 hp.rest_names).1
  rintro rfl
  exact hfresh (List.mem_map_of_mem hmem)

theorem Pending.erase (hp : Pending V ((name, h) :: rest) current) :
    Pending V rest (current.erase name) where
  names := Context.nodup_names_erase hp.names name
  rest_names := (List.nodup_cons.1 hp.rest_names).2
  subset p hmem :=
    Context.mem_erase.2 ⟨hp.subset (List.mem_cons_of_mem _ hmem), hp.ne_name hmem⟩
  hypothesis k hk := hp.hypothesis k (Context.mem_hypotheses_erase hk)
  top_mem p hmem htop := by
    obtain ⟨hmem, hname⟩ := Context.mem_erase.1 hmem
    rcases List.mem_cons.1 (hp.top_mem p hmem htop) with rfl | hrest
    · exact absurd rfl hname
    · exact hrest
  zero := (List.pairwise_cons.1 hp.zero).2

theorem Pending.put (hp : Pending V ((name, h) :: rest) current) (hu : V.Hypothesis u)
    (htop : u ≠ top) : Pending V rest (current.put name u) where
  names := by
    rw [Context.names_put_of_mem hp.mem]
    exact hp.names
  rest_names := (List.nodup_cons.1 hp.rest_names).2
  subset p hmem := (Context.mem_put_of_mem hp.mem).2
    (.inr ⟨hp.subset (List.mem_cons_of_mem _ hmem), hp.ne_name hmem⟩)
  hypothesis k hk := by
    rcases Context.mem_hypotheses_put hk with rfl | hk
    · exact hu
    · exact hp.hypothesis k hk
  top_mem p hmem hp2 := by
    rcases (Context.mem_put_of_mem hp.mem).1 hmem with rfl | ⟨hmem, hname⟩
    · exact absurd hp2 htop
    · rcases List.mem_cons.1 (hp.top_mem p hmem hp2) with rfl | hrest
      · exact absurd rfl hname
      · exact hrest
  zero := (List.pairwise_cons.1 hp.zero).2

end Pending

section Run

variable {ι : Type*} [Nonempty ι] {M : Type} [LinearOrder M] {worlds : ι → World M}
  {V : Vocabulary} {rest current : Context} (hV : Calculus worlds V)

include hV

end Run

end Tactic
end Majorant
