import Majorant.Proof.State
import Mathlib.Data.List.Nodup
import Mathlib.Data.List.Perm.Subperm

/-!
# Named hypotheses

A context gives each name one hypothesis.
-/

namespace Majorant
namespace Proof

theorem exists_of_isDeclaration {t : Term} (h : isDeclaration t = true) :
    ∃ as, t = .app .declared as := by
  unfold isDeclaration at h
  split at h
  · exact ⟨_, rfl⟩
  · cases h

namespace Context

variable {c : Context} {name : String} {h k : Term} {P : Term → Prop}

theorem mem_hypotheses_put (hk : k ∈ (c.put name h).hypotheses) : k = h ∨ k ∈ c.hypotheses := by
  obtain ⟨p, hp, rfl⟩ := List.mem_map.1 hk
  unfold put at hp
  split at hp
  · obtain ⟨q, hq, rfl⟩ := List.mem_map.1 hp
    split
    · exact .inl rfl
    · exact .inr (List.mem_map_of_mem hq)
  · rcases List.mem_append.1 hp with hp | hp
    · exact .inr (List.mem_map_of_mem hp)
    · rw [List.mem_singleton.1 hp]
      exact .inl rfl

theorem mem_put_self (c : Context) (name : String) (h : Term) : h ∈ (c.put name h).hypotheses := by
  unfold put
  split
  · next hname =>
    obtain ⟨p, hp, hname⟩ := List.any_eq_true.1 hname
    refine List.mem_map.2 ⟨_, List.mem_map_of_mem hp, ?_⟩
    rw [if_pos hname]
  · exact List.mem_map.2 ⟨(name, h), List.mem_append_right c (List.mem_singleton_self _), rfl⟩

theorem mem_hypotheses_of_get? (hget : c.get? name = some h) : h ∈ c.hypotheses := by
  obtain ⟨p, hp, rfl⟩ := Option.map_eq_some_iff.1 hget
  exact List.mem_map_of_mem (List.mem_of_find?_eq_some hp)

theorem contains_iff : c.contains name = true ↔ name ∈ c.names := by
  simp [contains, names]

theorem ne_of_not_contains (hfree : c.contains name = false) {p : String × Term} (hp : p ∈ c) :
    p.1 ≠ name := by
  rintro rfl
  rw [contains_iff.2 (List.mem_map_of_mem hp)] at hfree
  cases hfree

theorem mem_erase {p : String × Term} : p ∈ c.erase name ↔ p ∈ c ∧ p.1 ≠ name := by
  simp [erase]

theorem mem_hypotheses_erase (hk : k ∈ (c.erase name).hypotheses) : k ∈ c.hypotheses := by
  obtain ⟨p, hp, rfl⟩ := List.mem_map.1 hk
  exact List.mem_map_of_mem (mem_erase.1 hp).1

theorem eq_of_mem (hnames : c.names.Nodup) (hmem : (name, h) ∈ c) {p : String × Term} (hp : p ∈ c)
    (hname : p.1 = name) : p = (name, h) :=
  List.inj_on_of_nodup_map hnames hp hmem hname

theorem put_of_mem (hmem : (name, h) ∈ c) (k : Term) :
    c.put name k = c.map fun p => if p.1 == name then (name, k) else p := by
  rw [put, if_pos (contains_iff.2 (List.mem_map_of_mem hmem))]

theorem put_self (hnames : c.names.Nodup) (hmem : (name, h) ∈ c) : c.put name h = c := by
  rw [put_of_mem hmem]
  refine (List.map_congr_left fun p hp => ?_).trans (List.map_id c)
  split
  · next hname => exact (eq_of_mem hnames hmem hp (eq_of_beq hname)).symm
  · rfl

theorem names_put_of_mem (hmem : (name, h) ∈ c) (k : Term) : (c.put name k).names = c.names := by
  rw [put_of_mem hmem, names, names, List.map_map]
  refine List.map_congr_left fun p _ => ?_
  by_cases hname : p.1 = name <;> simp [hname]

theorem mem_put_of_mem (hmem : (name, h) ∈ c) {p : String × Term} :
    p ∈ c.put name k ↔ p = (name, k) ∨ p ∈ c ∧ p.1 ≠ name := by
  rw [put_of_mem hmem, List.mem_map]
  constructor
  · rintro ⟨q, hq, rfl⟩
    by_cases hname : q.1 = name
    · simp [hname]
    · simp [hname, hq]
  · rintro (rfl | ⟨hp, hname⟩)
    · exact ⟨_, hmem, by simp⟩
    · exact ⟨p, hp, by simp [hname]⟩

theorem mem_put {p : String × Term} : p ∈ c.put name k ↔ p = (name, k) ∨ p ∈ c ∧ p.1 ≠ name := by
  cases hused : c.contains name with
  | true =>
    obtain ⟨⟨_, h⟩, hmem, rfl⟩ := List.mem_map.1 (contains_iff.1 hused)
    exact mem_put_of_mem hmem
  | false =>
    rw [put, if_neg (by simp [hused]), List.mem_append, List.mem_singleton, or_comm]
    exact or_congr_right (and_iff_left_of_imp (ne_of_not_contains hused)).symm

theorem put_of_not_contains (hfree : c.contains name = false) : c.put name k = c ++ [(name, k)] := by
  rw [put, if_neg (by simp [hfree])]

theorem nodup_names_put (hnames : c.names.Nodup) (name : String) (k : Term) :
    (c.put name k).names.Nodup := by
  cases hused : c.contains name with
  | true =>
    obtain ⟨⟨_, h⟩, hmem, rfl⟩ := List.mem_map.1 (contains_iff.1 hused)
    rwa [names_put_of_mem hmem]
  | false =>
    rw [put_of_not_contains hused, names, List.map_append, List.nodup_append']
    refine ⟨hnames, List.nodup_singleton _, ?_⟩
    rintro n hn hname
    rw [List.map_singleton, List.mem_singleton] at hname
    rw [hname] at hn
    rw [contains_iff.2 hn] at hused
    cases hused

theorem nodup_names_erase (hnames : c.names.Nodup) (name : String) : (c.erase name).names.Nodup :=
  hnames.sublist (List.filter_sublist.map _)

def declarations (c : Context) : Context := c.filter fun p => isDeclaration p.2

theorem exists_of_contains_prime {n : Nat} (h : c.contains (prime n c name) = true) :
    ∃ ns : List String, ns.length = n + 1 ∧ ns.Nodup ∧ (∀ m ∈ ns, m ∈ c.names) ∧
      ∀ m ∈ ns, name.length ≤ m.length := by
  induction n generalizing name with
  | zero => exact ⟨[name], by simp, by simp, List.forall_mem_singleton.2 (contains_iff.1 h), by simp⟩
  | succ n ih =>
    rw [prime] at h
    split at h
    · next hused =>
      obtain ⟨ns, hlength, hnodup, hmem, hlong⟩ := ih h
      have hlonger : ∀ m ∈ ns, name.length < m.length := by
        intro m hm
        have hone : (name ++ "'").length = name.length + 1 := by
          rw [String.length_append]
          rfl
        have := hlong m hm
        omega
      refine ⟨name :: ns, by rw [List.length_cons, hlength], List.nodup_cons.2 ⟨?_, hnodup⟩,
        List.forall_mem_cons.2 ⟨contains_iff.1 hused, hmem⟩,
        List.forall_mem_cons.2 ⟨Nat.le_refl _, fun m hm => Nat.le_of_lt (hlonger m hm)⟩⟩
      intro hm
      exact absurd (hlonger name hm) (Nat.lt_irrefl _)
    · next hfree => exact absurd h hfree

theorem not_contains_fresh (c : Context) (name : String) : c.contains (c.fresh name) = false := by
  by_contra hused
  rw [Bool.not_eq_false] at hused
  obtain ⟨ns, hlength, hnodup, hmem, -⟩ := exists_of_contains_prime hused
  have hle := (List.subperm_of_subset hnodup hmem).length_le
  rw [hlength, names, List.length_map] at hle
  omega

theorem exists_toList_prime (n : Nat) (c : Context) (name : String) :
    ∃ primes : List Char, (prime n c name).toList = name.toList ++ primes ∧
      ∀ x ∈ primes, x ∈ "'".toList := by
  induction n generalizing name with
  | zero => exact ⟨[], (List.append_nil _).symm, List.forall_mem_nil _⟩
  | succ n ih =>
    rw [prime]
    split
    · obtain ⟨primes, heq, hprimes⟩ := ih (name ++ "'")
      refine ⟨"'".toList ++ primes, ?_, List.forall_mem_append.2 ⟨fun x hx => hx, hprimes⟩⟩
      rw [heq, String.toList_append, List.append_assoc]
    · exact ⟨[], (List.append_nil _).symm, List.forall_mem_nil _⟩

/-- Fresh variants of a name and of a longer one differ, if it is not longer by primes only. -/
theorem fresh_ne_fresh_append (c d : Context) (name : String) {suffix : String} {x : Char}
    (hx : x ∈ suffix.toList) (hprime : x ∉ "'".toList) : c.fresh name ≠ d.fresh (name ++ suffix) := by
  intro heq
  obtain ⟨primes, hshort, hprimes⟩ := exists_toList_prime (c.length + 1) c name
  obtain ⟨primes', hlong, -⟩ := exists_toList_prime (d.length + 1) d (name ++ suffix)
  have hsame : name.toList ++ primes = name.toList ++ (suffix.toList ++ primes') := by
    rw [← hshort, ← List.append_assoc, ← String.toList_append, ← hlong]
    exact congrArg String.toList heq
  exact hprime (hprimes x (List.append_cancel_left hsame ▸ List.mem_append_left _ hx))

end Context
end Proof
end Majorant
