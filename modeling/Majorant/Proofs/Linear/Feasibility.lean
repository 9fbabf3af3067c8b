import Majorant.Proofs.Linear.Certificate

/-!
# Feasibility is decided exactly

If no two variables share a name, exactly one of the searches for a point and for multipliers
succeeds.
-/

namespace Majorant
namespace Linear

variable {V : Type}

section Names

variable (name : V → String)

theorem representatives_foldl (vars acc : List V) (hacc : (acc.map name).Nodup) :
    let out := vars.foldl
      (fun acc v => if acc.any (fun w => name w == name v) then acc else acc ++ [v]) acc
    (out.map name).Nodup ∧ (∀ w ∈ acc, w ∈ out) ∧ (∀ v ∈ vars, ∃ w ∈ out, name w = name v) ∧
      out.length ≤ acc.length + vars.length ∧
      (out.length = acc.length + vars.length → out = acc ++ vars) := by
  induction vars generalizing acc with
  | nil => simpa using hacc
  | cons v vars ih =>
    simp only [List.foldl_cons]
    by_cases hany : (acc.any fun w => name w == name v) = true
    · rw [if_pos hany]
      obtain ⟨hnodup, hsub, hcover, hlen, -⟩ := ih acc hacc
      obtain ⟨w, hw, hname⟩ := List.any_eq_true.1 hany
      refine ⟨hnodup, hsub, ?_, ?_, ?_⟩
      · intro u hu
        rcases List.mem_cons.1 hu with rfl | hu
        · exact ⟨w, hsub w hw, by simpa using hname⟩
        · exact hcover u hu
      · simp only [List.length_cons]
        omega
      · intro heq
        simp only [List.length_cons] at heq
        omega
    · rw [if_neg hany]
      have hnew : name v ∉ acc.map name := by
        intro hmem
        obtain ⟨w, hw, hname⟩ := List.mem_map.1 hmem
        exact hany (List.any_eq_true.2 ⟨w, hw, by simpa using hname⟩)
      have hacc' : ((acc ++ [v]).map name).Nodup := by
        rw [List.map_append, List.nodup_append]
        refine ⟨hacc, by simp, ?_⟩
        intro a ha b hb
        simp only [List.map_cons, List.map_nil, List.mem_singleton] at hb
        rintro rfl
        exact hnew (hb ▸ ha)
      obtain ⟨hnodup, hsub, hcover, hlen, heq⟩ := ih (acc ++ [v]) hacc'
      simp only [List.length_append, List.length_cons, List.length_nil] at hlen heq
      refine ⟨hnodup, fun w hw => hsub w (by simp [hw]), ?_, ?_, ?_⟩
      · intro u hu
        rcases List.mem_cons.1 hu with rfl | hu
        · exact ⟨u, hsub u (by simp), rfl⟩
        · exact hcover u hu
      · simp only [List.length_cons]
        omega
      · intro h
        simp only [List.length_cons] at h
        rw [heq (by omega)]
        simp

variable (vars : List V)

theorem nodup_representatives : ((representatives name vars).map name).Nodup :=
  (representatives_foldl name vars [] (by simp)).1

theorem exists_representative {v : V} (hv : v ∈ vars) :
    ∃ w ∈ representatives name vars, name w = name v :=
  (representatives_foldl name vars [] (by simp)).2.2.1 v hv

theorem representatives_eq (h : (representatives name vars).length = vars.length) :
    representatives name vars = vars := by
  have hfull := (representatives_foldl name vars [] (by simp)).2.2.2.2
  exact hfull (h.trans (Nat.zero_add _).symm)

end Names

theorem total_map_mul {α : Type} (f g : α → Rat) (as : List α) :
    Rational.total (as.map fun a => f a * g a) = dot (as.map f) (as.map g) := by
  induction as with
  | nil => rfl
  | cons a as ih => simp only [List.map_cons, Rational.total, dot, ih]

section Keys

variable {κ : Type} [BEq κ] [LawfulBEq κ] {key : V → κ} {reps : List V}

theorem dot_single_key (hreps : (reps.map key).Nodup) {k : κ} (hk : ∃ w ∈ reps, key w = k)
    (c : Rat) (x : List Rat) :
    dot (reps.map fun w => if k == key w then c else 0) x =
      c * x.getD (reps.findIdx fun w => key w == k) 0 := by
  induction reps generalizing x with
  | nil => simp at hk
  | cons r reps ih =>
    rw [List.map_cons, List.nodup_cons] at hreps
    obtain ⟨hnew, hreps⟩ := hreps
    by_cases hr : key r = k
    · subst hr
      have hzero : ∀ a ∈ reps.map (fun w => if key r == key w then c else 0), a = 0 := by
        intro a ha
        obtain ⟨w, hw, rfl⟩ := List.mem_map.1 ha
        rw [if_neg]
        intro h
        exact hnew (List.mem_map.2 ⟨w, hw, (eq_of_beq h).symm⟩)
      cases x with
      | nil => simp
      | cons y ys =>
        simp only [List.map_cons, dot, BEq.rfl, if_true, dot_eq_zero hzero, add_zero,
          List.findIdx_cons, cond_true, List.getD_cons_zero]
    · obtain ⟨w, hw, hkey⟩ := hk
      have hk' : ∃ w ∈ reps, key w = k := by
        rcases List.mem_cons.1 hw with rfl | hw
        · exact absurd hkey hr
        · exact ⟨w, hw, hkey⟩
      cases x with
      | nil => simp
      | cons y ys =>
        have hne : (k == key r) = false := beq_eq_false_iff_ne.2 (Ne.symm hr)
        have hne' : (key r == k) = false := beq_eq_false_iff_ne.2 hr
        simp only [List.map_cons, dot, hne, Bool.false_eq_true, if_false, zero_mul, zero_add,
          List.findIdx_cons, hne', cond_false, List.getD_cons_succ]
        exact ih hreps hk' ys

/-- **A row over keys**, at a list of coordinates, has the value of its coefficients at the point that
gives each variable the coordinate of its key. -/
theorem dot_keyed (hreps : (reps.map key).Nodup) {cs : List (V × Rat)}
    (hcover : ∀ p ∈ cs, ∃ w ∈ reps, key w = key p.1) (x : List Rat) :
    dot (reps.map fun w => Rational.total ((cs.filter fun p => key p.1 == key w).map (·.2))) x =
      Rational.total (cs.map fun p => p.2 * x.getD (reps.findIdx fun w => key w == key p.1) 0) := by
  induction cs with
  | nil => exact dot_eq_zero (by simp [Rational.total]) x
  | cons p cs ih =>
    have hsplit : (fun w => Rational.total
          (((p :: cs).filter fun p => key p.1 == key w).map (·.2))) =
        fun w => (if key p.1 == key w then p.2 else 0) +
          Rational.total ((cs.filter fun p => key p.1 == key w).map (·.2)) := by
      funext w
      rw [List.filter_cons]
      split <;> simp [Rational.total]
    rw [hsplit, dot_comm, dot_map_add, dot_comm x, dot_comm x,
      dot_single_key hreps (hcover p (by simp)), ih fun q hq => hcover q (by simp [hq])]
    simp [Rational.total]

end Keys

variable [DecidableEq V]

theorem total_filter_eq_coeff {i : Inequality V} (hkeys : i.unknowns.Nodup) (v : V) :
    Rational.total ((i.coeffs.filter fun p => p.1 == v).map (·.2)) = i.coeff v := by
  obtain ⟨cs, sense, rhs⟩ := i
  simp only [Inequality.coeff, Inequality.unknowns] at hkeys ⊢
  induction cs with
  | nil => rfl
  | cons p ps ih =>
    rw [List.map_cons, List.nodup_cons] at hkeys
    by_cases hp : p.1 = v
    · have hrest : ps.filter (fun q => q.1 == v) = [] := by
        rw [List.filter_eq_nil_iff]
        intro q hq h
        exact hkeys.1 (List.mem_map.2 ⟨q, hq, (by simpa using h : q.1 = v).trans hp.symm⟩)
      simp [hp, hrest, Rational.total]
    · simpa [List.filter_cons, hp] using ih hkeys.2

theorem namedCoeff_eq_coeff {name : V → String} {vars : List V} (hnames : (vars.map name).Nodup)
    {i : Inequality V} (hkeys : i.unknowns.Nodup) (hvars : ∀ v ∈ i.unknowns, v ∈ vars) {v : V}
    (hv : v ∈ vars) : namedCoeff name i v = i.coeff v := by
  have hfilter : (i.coeffs.filter fun p => name p.1 == name v) =
      i.coeffs.filter fun p => p.1 == v := by
    apply List.filter_congr
    intro p hp
    have hp' := hvars p.1 (List.mem_map.2 ⟨p, hp, rfl⟩)
    by_cases h : p.1 = v
    · simp [h]
    · have : name p.1 ≠ name v := fun hn => h (List.inj_on_of_nodup_map hnames hp' hv hn)
      simp [h, this]
  unfold namedCoeff
  rw [hfilter, total_filter_eq_coeff hkeys]

namespace Inequality

def Feasible (is : List (Inequality V)) : Prop := ∃ x : V → Rat, ∀ i ∈ is, i.holdsAt x = true

end Inequality

theorem Refutes.not_feasible {is : List (Inequality V)} {ms : List Rat} (h : Refutes is ms)
    (hkeys : ∀ i ∈ is, i.unknowns.Nodup) : ¬ Inequality.Feasible is := by
  rintro ⟨x, hx⟩
  exact h.not_holdsIn hkeys x fun i hi => (i.holdsAt_iff x).1 (hx i hi)

section Names

variable (name : V → String) (reps : List V)

/-- An inequality with the variables of one name taken together. -/
def Inequality.overNames (i : Inequality V) : Inequality String :=
  ⟨reps.map fun w => (name w, namedCoeff name i w), i.sense, i.rhs⟩

variable {name reps}

omit [DecidableEq V] in
theorem unknowns_overNames (i : Inequality V) : (i.overNames name reps).unknowns = reps.map name := by
  simp [Inequality.unknowns, Inequality.overNames]

omit [DecidableEq V] in
theorem coeff_overNames (hreps : (reps.map name).Nodup) (i : Inequality V) {w : V} (hw : w ∈ reps) :
    (i.overNames name reps).coeff (name w) = namedCoeff name i w := by
  have hkeys : (i.overNames name reps).unknowns.Nodup := by rwa [unknowns_overNames]
  have hmem : (name w, namedCoeff name i w) ∈ (i.overNames name reps).coeffs :=
    List.mem_map.2 ⟨w, hw, rfl⟩
  exact Inequality.coeff_of_mem hkeys hmem

omit [DecidableEq V] in
theorem toRows_overNames (hreps : (reps.map name).Nodup) (is : List (Inequality V)) :
    toRows (reps.map name) Inequality.coeff (is.map (·.overNames name reps)) =
      toRows reps (namedCoeff name) is := by
  have hrow : ∀ (i : Inequality V), (reps.map name).map (i.overNames name reps).coeff =
      reps.map (namedCoeff name i) := by
    intro i
    rw [List.map_map]
    apply List.map_congr_left
    intro w hw
    exact coeff_overNames hreps i hw
  apply List.ext_getElem?
  intro k
  rw [toRows_getElem?, toRows_getElem?, List.getElem?_map, List.length_map]
  cases is[k]? with
  | none => rfl
  | some i =>
    simp only [Option.map_some, toRow, hrow i]
    rfl

omit [DecidableEq V] in
theorem value_overNames (hreps : (reps.map name).Nodup) {i : Inequality V}
    (hcover : ∀ v ∈ i.unknowns, ∃ w ∈ reps, name w = name v) (y : String → Rat) :
    (i.overNames name reps).value y = i.value fun v => y (name v) := by
  have hcover' : ∀ p ∈ i.coeffs, ∃ w ∈ reps, name w = name p.1 := fun p hp =>
    hcover p.1 (List.mem_map.2 ⟨p, hp, rfl⟩)
  have hdot : (i.overNames name reps).value y =
      dot (reps.map (namedCoeff name i)) (reps.map fun w => y (name w)) := by
    rw [← total_map_mul]
    unfold Inequality.value Inequality.overNames
    rw [List.map_map]
    rfl
  rw [hdot]
  refine (dot_keyed hreps hcover' _).trans ?_
  unfold Inequality.value
  congr 1
  apply List.map_congr_left
  intro p hp
  obtain ⟨w, hw, hname⟩ := hcover' p hp
  have hlt : (reps.findIdx fun w => name w == name p.1) < reps.length :=
    List.findIdx_lt_length_of_exists ⟨w, hw, by simpa using hname⟩
  have hfound : name reps[reps.findIdx fun w => name w == name p.1] = name p.1 := by
    simpa using List.findIdx_getElem (w := hlt)
  rw [List.getD_eq_getElem?_getD, List.getElem?_map, List.getElem?_eq_getElem hlt]
  simp [hfound]

end Names

section Decision

variable {name : V → String} {is : List (Inequality V)}

/-- The variables of a system, with the solver able to write their names. -/
def Inequality.Writable (name : V → String) (is : List (Inequality V)) : Prop :=
  ∀ v ∈ Inequality.allUnknowns is, encodable (name v) = true

theorem feasibility_of_not_writable (h : ¬ Inequality.Writable name is) :
    feasibility name is = .fail .unencodable := by
  have hall : (Inequality.allUnknowns is).all (fun v => encodable (name v)) = false := by
    rw [Bool.eq_false_iff]
    intro hall
    exact h fun v hv => List.all_eq_true.1 hall v hv
  unfold feasibility
  simp only [hall, Outcome.require, Bool.false_eq_true, if_false, Outcome.bind_eq,
    Outcome.fail_andThen]

theorem feasibility_eq (h : Inequality.Writable name is) :
    feasibility name is =
      let vars := Inequality.allUnknowns is
      let reps := representatives name vars
      match decideRows reps.length (toRows reps (namedCoeff name) is) with
      | .point x => pure (.point (vars.map fun v =>
          (v, x.getD (reps.findIdx fun w => name w == name v) 0)))
      | .weights ws =>
        if reps.length = vars.length then
          pure (.multipliers (normalizeMultipliers is (toMultipliers is ws)))
        else match decideRows vars.length (toRows vars Inequality.coeff is) with
          | .weights ws => pure (.multipliers (normalizeMultipliers is (toMultipliers is ws)))
          | .point _ => .fail .neitherFeasible := by
  have hall : (Inequality.allUnknowns is).all (fun v => encodable (name v)) = true :=
    List.all_eq_true.2 h
  unfold feasibility
  dsimp only
  rw [hall]
  rfl

omit [DecidableEq V] in
theorem Inequality.value_congr {i : Inequality V} {x y : V → Rat}
    (h : ∀ v ∈ i.unknowns, x v = y v) : i.value x = i.value y := by
  unfold Inequality.value
  congr 1
  apply List.map_congr_left
  intro p hp
  rw [h p.1 (List.mem_map.2 ⟨p, hp, rfl⟩)]

omit [DecidableEq V] in
theorem Inequality.holdsAt_congr {i : Inequality V} {x y : V → Rat}
    (h : ∀ v ∈ i.unknowns, x v = y v) : i.holdsAt x = i.holdsAt y := by
  unfold Inequality.holdsAt
  rw [value_congr h]

theorem valueOf_map {vars : List V} (f : V → Rat) {v : V} (hv : v ∈ vars) :
    valueOf (vars.map fun v => (v, f v)) v = f v := by
  unfold valueOf
  induction vars with
  | nil => cases hv
  | cons w vars ih =>
    by_cases h : w = v
    · simp [h]
    · rcases List.mem_cons.1 hv with rfl | hv
      · exact absurd rfl h
      · simpa [List.find?_cons, h] using ih hv

/-- Some point that gives variables of one name one value satisfies all inequalities. -/
def Inequality.FeasibleByName (name : V → String) (is : List (Inequality V)) : Prop :=
  ∃ y : String → Rat, ∀ i ∈ is, i.holdsAt (fun v => y (name v)) = true

theorem exists_representative_unknown {i : Inequality V} (hi : i ∈ is) {v : V}
    (hv : v ∈ i.unknowns) :
    ∃ w ∈ representatives name (Inequality.allUnknowns is), name w = name v :=
  exists_representative name _ (mem_allUnknowns.2 ⟨i, hi, hv⟩)

theorem holdsAt_of_decideRows_names {x : List Rat}
    (h : decideRows (representatives name (Inequality.allUnknowns is)).length
      (toRows (representatives name (Inequality.allUnknowns is)) (namedCoeff name) is) = .point x)
    {i : Inequality V} (hi : i ∈ is) :
    i.holdsAt (fun v => x.getD ((representatives name (Inequality.allUnknowns is)).findIdx
      fun w => name w == name v) 0) = true := by
  have hrow := decideRows_point _ _ _ h hi
  have hdot := dot_keyed (nodup_representatives name (Inequality.allUnknowns is))
    (fun p hp => exists_representative_unknown hi (List.mem_map.2 ⟨p, hp, rfl⟩)) x
  unfold namedCoeff at hrow
  rw [hdot] at hrow
  exact hrow

theorem not_feasibleByName_of_decideRows {ws : List Rat}
    (h : decideRows (representatives name (Inequality.allUnknowns is)).length
      (toRows (representatives name (Inequality.allUnknowns is)) (namedCoeff name) is) =
        .weights ws) : ¬ Inequality.FeasibleByName name is := by
  set reps := representatives name (Inequality.allUnknowns is) with hdef
  have hreps : (reps.map name).Nodup := nodup_representatives name _
  rw [← toRows_overNames hreps, ← List.length_map (f := name)] at h
  have hrefutes := refutes_of_decideRows h (fun s hs => by
    obtain ⟨j, hj, hs⟩ := mem_allUnknowns.1 hs
    obtain ⟨i, -, rfl⟩ := List.mem_map.1 hj
    rw [unknowns_overNames] at hs
    exact ⟨hs, fun _ _ => rfl⟩)
  rintro ⟨y, hy⟩
  refine hrefutes.not_holdsIn ?_ y ?_
  · intro j hj
    obtain ⟨i, -, rfl⟩ := List.mem_map.1 hj
    rwa [unknowns_overNames]
  · intro j hj
    obtain ⟨i, hi, rfl⟩ := List.mem_map.1 hj
    rw [← Inequality.holdsAt_iff]
    have hvalue := value_overNames hreps (fun v hv => exists_representative_unknown hi hv) y
    unfold Inequality.holdsAt
    rw [hvalue]
    exact hy i hi

theorem feasible_of_decideRows (hkeys : ∀ i ∈ is, i.unknowns.Nodup) {x : List Rat}
    (h : decideRows (Inequality.allUnknowns is).length
      (toRows (Inequality.allUnknowns is) Inequality.coeff is) = .point x) :
    Inequality.Feasible is := by
  refine ⟨fun v => x.getD ((Inequality.allUnknowns is).findIdx fun w => w == v) 0, ?_⟩
  intro i hi
  have hrow := decideRows_point _ _ _ h hi
  have hnodup : ((Inequality.allUnknowns is).map id).Nodup := by
    rw [List.map_id]
    exact nodup_allUnknowns is
  have hcover : ∀ p ∈ i.coeffs, ∃ w ∈ Inequality.allUnknowns is, id w = id p.1 := fun p hp =>
    ⟨p.1, mem_allUnknowns.2 ⟨i, hi, List.mem_map.2 ⟨p, hp, rfl⟩⟩, rfl⟩
  have hdot := dot_keyed hnodup hcover x
  simp only [id, total_filter_eq_coeff (hkeys i hi)] at hdot
  rw [hdot] at hrow
  exact hrow

/-- **A system with a point over its names** is answered by a point that satisfies it. -/
theorem feasibility_of_feasibleByName (hwrite : Inequality.Writable name is)
    (h : Inequality.FeasibleByName name is) :
    ∃ values, feasibility name is = pure (.point values) ∧
      ∀ i ∈ is, i.holdsAt (valueOf values) = true := by
  rw [feasibility_eq hwrite]
  dsimp only
  split
  · next x hx =>
    refine ⟨_, rfl, fun i hi => ?_⟩
    have hcongr : ∀ v ∈ i.unknowns, valueOf ((Inequality.allUnknowns is).map fun v =>
        (v, x.getD ((representatives name (Inequality.allUnknowns is)).findIdx
          fun w => name w == name v) 0)) v = _ :=
      fun v hv => valueOf_map _ (mem_allUnknowns.2 ⟨i, hi, hv⟩)
    rw [Inequality.holdsAt_congr hcongr]
    exact holdsAt_of_decideRows_names hx hi
  · next ws hws => exact absurd h (not_feasibleByName_of_decideRows hws)

omit [DecidableEq V] in
theorem Inequality.FeasibleByName.feasible (h : Inequality.FeasibleByName name is) :
    Inequality.Feasible is := by
  obtain ⟨y, hy⟩ := h
  exact ⟨fun v => y (name v), hy⟩

/-- **A system without a point over its names** is answered by multipliers if it has no point at all,
and by none of the two otherwise. -/
theorem feasibility_of_not_feasibleByName (hkeys : ∀ i ∈ is, i.unknowns.Nodup)
    (hwrite : Inequality.Writable name is) (h : ¬ Inequality.FeasibleByName name is) :
    (∃ ms, feasibility name is = pure (.multipliers ms) ∧ Refutes is ms) ∨
      feasibility name is = .fail .neitherFeasible ∧ Inequality.Feasible is := by
  rw [feasibility_eq hwrite]
  dsimp only
  split
  · next x hx =>
    exact absurd ⟨fun s => x.getD ((representatives name (Inequality.allUnknowns is)).findIdx
      fun w => name w == s) 0, fun i hi => holdsAt_of_decideRows_names hx hi⟩ h
  · next ws hws =>
    split
    · next hlen =>
      -- As many names as variables: the two systems are one.
      have hreps := representatives_eq name _ hlen
      have hnames := nodup_representatives name (Inequality.allUnknowns is)
      rw [hreps] at hws hnames
      refine .inl ⟨_, rfl, refutes_of_decideRows hws fun v hv => ⟨hv, fun i hi => ?_⟩⟩
      exact namedCoeff_eq_coeff hnames (hkeys i hi)
        (fun w hw => mem_allUnknowns.2 ⟨i, hi, hw⟩) hv
    · split
      · next ws' hws' =>
        exact .inl ⟨_, rfl, refutes_of_decideRows hws' fun v hv => ⟨hv, fun _ _ => rfl⟩⟩
      · next x hx => exact .inr ⟨rfl, feasible_of_decideRows hkeys hx⟩

/-- **A system without a point is refuted**, whatever the names. -/
theorem feasibility_of_not_feasible (hkeys : ∀ i ∈ is, i.unknowns.Nodup)
    (hwrite : Inequality.Writable name is) (h : ¬ Inequality.Feasible is) :
    ∃ ms, feasibility name is = pure (.multipliers ms) ∧ Refutes is ms := by
  rcases feasibility_of_not_feasibleByName hkeys hwrite (fun hn => h hn.feasible) with
    hms | ⟨-, hfeasible⟩
  · exact hms
  · exact absurd hfeasible h

theorem feasibility_of_feasible (hkeys : ∀ i ∈ is, i.unknowns.Nodup)
    (hwrite : Inequality.Writable name is) (h : Inequality.Feasible is) :
    (∃ values, feasibility name is = pure (.point values)) ∨
      feasibility name is = .fail .neitherFeasible := by
  by_cases hn : Inequality.FeasibleByName name is
  · obtain ⟨values, hpoint, -⟩ := feasibility_of_feasibleByName hwrite hn
    exact .inl ⟨values, hpoint⟩
  · rcases feasibility_of_not_feasibleByName hkeys hwrite hn with ⟨ms, -, hms⟩ | ⟨hfail, -⟩
    · exact absurd h (hms.not_feasible hkeys)
    · exact .inr hfail

theorem refutes_of_feasibility (hkeys : ∀ i ∈ is, i.unknowns.Nodup) {ms : List Rat}
    (h : (feasibility name is).result = .ok (.multipliers ms)) : Refutes is ms := by
  by_cases hwrite : Inequality.Writable name is
  · by_cases hfeasible : Inequality.Feasible is
    · rcases feasibility_of_feasible hkeys hwrite hfeasible with ⟨values, hv⟩ | hfail
      · rw [hv] at h
        cases h
      · rw [hfail] at h
        cases h
    · obtain ⟨ms', hms', hrefutes⟩ := feasibility_of_not_feasible hkeys hwrite hfeasible
      rw [hms'] at h
      cases h
      exact hrefutes
  · rw [feasibility_of_not_writable hwrite] at h
    cases h

theorem feasibleByName_of_feasible
    (hnames : ((Inequality.allUnknowns is).map name).Nodup) (h : Inequality.Feasible is) :
    Inequality.FeasibleByName name is := by
  obtain ⟨x, hx⟩ := h
  refine ⟨fun s => (((Inequality.allUnknowns is).find? fun w => name w == s).map x).getD 0,
    fun i hi => ?_⟩
  rw [← hx i hi]
  apply Inequality.holdsAt_congr
  intro v hv
  have hmem : v ∈ Inequality.allUnknowns is := mem_allUnknowns.2 ⟨i, hi, hv⟩
  cases hfind : (Inequality.allUnknowns is).find? fun w => name w == name v with
  | none =>
    have := List.find?_eq_none.1 hfind v hmem
    simp at this
  | some w =>
    have hname : name w = name v := by simpa using List.find?_some hfind
    have hw := List.mem_of_find?_eq_some hfind
    have heq : w = v := List.inj_on_of_nodup_map hnames hw hmem hname
    simp only [hfind, heq, Option.map_some, Option.getD_some]

/-- **The decision is exact.**  For variables with different names that can be written, it returns a
point if there is one and multipliers otherwise.  Whatever the names, a point that is returned
satisfies every inequality and multipliers that are returned refute them; the decision is refused
exactly if a name cannot be written, and it fails exactly if there are points, but none that gives
variables of one name one value. -/
theorem feasibility_decides (name : V → String) (is : List (Inequality V))
    (hkeys : ∀ i ∈ is, i.unknowns.Nodup) :
    (Inequality.Writable name is → ((Inequality.allUnknowns is).map name).Nodup →
      (Inequality.Feasible is → ∃ values, feasibility name is = pure (.point values)) ∧
      (¬ Inequality.Feasible is → ∃ ms, feasibility name is = pure (.multipliers ms))) ∧
    (∀ values, (feasibility name is).result = .ok (.point values) →
      ∀ i ∈ is, i.holdsAt (valueOf values) = true) ∧
    (∀ ms, (feasibility name is).result = .ok (.multipliers ms) →
      Refutes is ms ∧ ¬ Inequality.Feasible is) ∧
    ((feasibility name is).result = .error .unencodable ↔ ¬ Inequality.Writable name is) ∧
    ((feasibility name is).result = .error .neitherFeasible ↔ Inequality.Writable name is ∧
      Inequality.Feasible is ∧ ¬ Inequality.FeasibleByName name is) := by
  by_cases hwrite : Inequality.Writable name is
  · by_cases hn : Inequality.FeasibleByName name is
    · obtain ⟨values, hpoint, hholds⟩ := feasibility_of_feasibleByName hwrite hn
      rw [hpoint]
      refine ⟨fun _ _ => ⟨fun _ => ⟨values, rfl⟩, fun h => absurd hn.feasible h⟩, ?_, ?_, ?_, ?_⟩
      · rintro _ ⟨⟩
        exact hholds
      · rintro _ ⟨⟩
      · exact iff_of_false nofun (not_not_intro hwrite)
      · exact iff_of_false nofun fun h => h.2.2 hn
    · rcases feasibility_of_not_feasibleByName hkeys hwrite hn with
        ⟨ms, hms, hrefutes⟩ | ⟨hfail, hfeasible⟩
      · have hnot := hrefutes.not_feasible hkeys
        rw [hms]
        refine ⟨fun _ _ => ⟨fun h => absurd h hnot, fun _ => ⟨ms, rfl⟩⟩, nofun, ?_, ?_, ?_⟩
        · rintro _ ⟨⟩
          exact ⟨hrefutes, hnot⟩
        · exact iff_of_false nofun (not_not_intro hwrite)
        · exact iff_of_false nofun fun h => hnot h.2.1
      · rw [hfail]
        refine ⟨fun _ hnames => absurd (feasibleByName_of_feasible hnames hfeasible) hn, nofun, nofun,
          ?_, ?_⟩
        · exact iff_of_false nofun (not_not_intro hwrite)
        · exact iff_of_true rfl ⟨hwrite, hfeasible, hn⟩
  · rw [feasibility_of_not_writable hwrite]
    refine ⟨fun h => absurd h hwrite, nofun, nofun, ?_, ?_⟩
    · exact iff_of_true rfl hwrite
    · exact iff_of_false nofun fun h => hwrite h.1

/-- A strict inequality without variables, `0 < 0`, is refuted; an upper and a lower bound on two
variables of one name exclude one another over the name only; and a name beyond the first 256
characters is refused although the bound on it can be met. -/
theorem feasibility_decides_degenerate :
    (∃ ms, feasibility id ([⟨[], .lt, 0⟩] : List (Inequality String)) = pure (.multipliers ms)) ∧
    (feasibility (fun _ => "x")
      ([⟨[(false, 1)], .geq, 1⟩, ⟨[(true, 1)], .leq, 0⟩] : List (Inequality Bool))).result =
        .error .neitherFeasible ∧
    (feasibility id ([⟨[("Ω", 1)], .geq, 1⟩] : List (Inequality String))).result =
      .error .unencodable := by
  refine ⟨?_, ?_, ?_⟩
  · refine ((feasibility_decides id _ (by decide)).1 (fun v hv => ?_) (by decide)).2 ?_
    · simp [Inequality.allUnknowns, Inequality.unknowns] at hv
    · rintro ⟨x, hx⟩
      have := hx _ (List.mem_singleton.2 rfl)
      simp [Inequality.holdsAt, Inequality.value, Sense.holds, Rational.total] at this
  · refine (feasibility_decides _ _ (by decide)).2.2.2.2.2 ⟨fun v _ => ?_, ?_, ?_⟩
    · exact (by decide : encodable "x" = true)
    · refine ⟨fun b => if b then 0 else 1, ?_⟩
      decide +kernel
    · rintro ⟨y, hy⟩
      have hlow := hy _ (List.mem_cons.2 (.inl rfl))
      have hup := hy _ (List.mem_cons.2 (.inr (List.mem_singleton.2 rfl)))
      simp only [Inequality.holdsAt, Inequality.value, Sense.holds, List.map_cons, List.map_nil,
        Rational.total, decide_eq_true_eq] at hlow hup
      linarith
  · refine (feasibility_decides _ _ (by decide)).2.2.2.1.2 fun h => ?_
    have := h "Ω" (mem_allUnknowns.2 ⟨_, List.mem_singleton.2 rfl, by decide⟩)
    revert this
    decide

end Decision

end Linear
end Majorant
