import TemporalPlanning.Proofs.Grounding.Removal
/-!
The order of the variables.

Saturation numbers variables as it creates them, whatever their kind. A pass that removes something
puts the numeric variables behind the others and keeps the order within each kind. A pass that finds
nothing static leaves the table alone: the numeric variables of a task then stand where saturation
has created them.
-/
set_option autoImplicit false

namespace TemporalPlanning.Grounded

/-- What the variables of one kind stand for, in the order of the table. -/
def Task.atomsOfKind (t : Task) (numeric : Bool) : List (FunctionId × List ObjectId) :=
  (t.vars.toList.filter fun v => v.isNumeric == numeric).map fun v => (v.function, v.arguments)

/-- Every variable that is not numeric has a smaller position than every numeric one. -/
def Task.HasNumericLast (t : Task) : Prop :=
  ∀ v ∈ t.vars.toList, ∀ w ∈ t.vars.toList, v.isNumeric = false → w.isNumeric = true →
    v.index.index < w.index.index

instance (t : Task) : Decidable t.HasNumericLast :=
  inferInstanceAs (Decidable (∀ v ∈ t.vars.toList, ∀ w ∈ t.vars.toList, _))

end TemporalPlanning.Grounded

namespace TemporalPlanning.Grounding

open Grounded

/-! ## Tables without positions -/

/-- What a variable stands for, and its kind: everything that stays when tables are rearranged. -/
def label (v : Variable) : (FunctionId × List ObjectId) × Bool :=
  ((v.function, v.arguments), v.isNumeric)

/-- The labels of the variables of a task in the order of the table. -/
def labels (t : Task) : List ((FunctionId × List ObjectId) × Bool) := t.vars.toList.map label

/-- Labels with the numeric ones last. -/
def numericLast (ls : List ((FunctionId × List ObjectId) × Bool)) :
    List ((FunctionId × List ObjectId) × Bool) :=
  (ls.filter fun l => !l.2) ++ ls.filter fun l => l.2

section Labels

variable {t t' : Task}

theorem atomsOfKind_eq (t : Task) (numeric : Bool) :
    t.atomsOfKind numeric = ((labels t).filter fun l => l.2 == numeric).map Prod.fst := by
  rw [Task.atomsOfKind, labels, List.filter_map, List.map_map]
  rfl

theorem atomsOfKind_sublist (h : ∀ numeric, ((labels t').filter fun l => l.2 == numeric).Sublist
    ((labels t).filter fun l => l.2 == numeric)) (numeric : Bool) :
    (t'.atomsOfKind numeric).Sublist (t.atomsOfKind numeric) := by
  rw [atomsOfKind_eq, atomsOfKind_eq]
  exact (h numeric).map _

/-- In a numbered table, numeric variables are last if only numeric ones follow them. -/
theorem hasNumericLast_iff (ht : t.IsNumbered) : t.HasNumericLast ↔
    (labels t).Pairwise fun l m => l.2 = true → m.2 = true := by
  rw [labels, List.pairwise_map, List.pairwise_iff_getElem]
  have hindex : ∀ (i : Nat) (hi : i < t.vars.toList.length), t.vars.toList[i].index = ⟨i⟩ :=
    fun i hi => ht i _ (by rw [← Array.getElem?_toList, List.getElem?_eq_getElem hi])
  constructor
  · intro h i j hi hj hlt hnumeric
    by_contra hother
    have := h _ (List.getElem_mem hj) _ (List.getElem_mem hi) (Bool.not_eq_true _ ▸ hother) hnumeric
    rw [hindex, hindex] at this
    exact absurd this (Nat.lt_asymm hlt)
  · intro h v hv w hw hother hnumeric
    obtain ⟨i, hi, rfl⟩ := List.getElem_of_mem hv
    obtain ⟨j, hj, rfl⟩ := List.getElem_of_mem hw
    rw [hindex, hindex]
    rcases Nat.lt_trichotomy i j with hlt | rfl | hgt
    · exact hlt
    · rw [hother] at hnumeric
      cases hnumeric
    · have := h j i hj hi hgt hnumeric
      rw [label, hother] at this
      cases this

/-- Each kind keeps its order. -/
theorem filter_numericLast (ls : List ((FunctionId × List ObjectId) × Bool)) (numeric : Bool) :
    ((numericLast ls).filter fun l => l.2 == numeric) = ls.filter fun l => l.2 == numeric := by
  rw [numericLast, List.filter_append, List.filter_filter, List.filter_filter]
  cases numeric <;> simp

theorem pairwise_numericLast (ls : List ((FunctionId × List ObjectId) × Bool)) :
    (numericLast ls).Pairwise fun l m => l.2 = true → m.2 = true := by
  have hfirst : ∀ l ∈ ls.filter fun l => !l.2, ¬l.2 = true := fun l hl => by
    simpa using (List.mem_filter.mp hl).2
  have hlast : ∀ l ∈ ls.filter fun l => l.2, l.2 = true := fun l hl => (List.mem_filter.mp hl).2
  refine List.pairwise_append.mpr ⟨?_, ?_, ?_⟩
  · exact List.pairwise_of_forall_mem_list fun l hl _ _ h => absurd h (hfirst l hl)
  · exact List.pairwise_of_forall_mem_list fun _ _ m hm _ => hlast m hm
  · exact fun _ _ m hm _ => hlast m hm

end Labels

/-! ## One pass -/

section Pass

variable {t t' : Task} {vars : Array Variable} {cs : Array Constancy}

theorem map_label_remainingVariables (vars : Array Variable) (l : List Nat) :
    (remainingVariables vars l).toList.map label = l.filterMap fun i => vars[i]?.map label := by
  have hentry : ∀ entry : Nat × Nat,
      (vars[entry.1]?.map fun v => { v with index := (⟨entry.2⟩ : VarId) }).map label =
        vars[entry.1]?.map label := by
    intro entry
    rw [Option.map_map]
    rfl
  calc (remainingVariables vars l).toList.map label
      = l.zipIdx.filterMap fun entry => vars[entry.1]?.map label := by
        rw [remainingVariables, List.map_filterMap]
        exact List.filterMap_congr fun entry _ => hentry entry
    _ = (l.zipIdx.map Prod.fst).filterMap fun i => vars[i]?.map label := by
        rw [List.filterMap_map]
        rfl
    _ = l.filterMap fun i => vars[i]?.map label := by rw [List.zipIdx_map_fst]

/-- The labels of the variables that change, in the order of the table. -/
def changingLabels (t : Task) : List ((FunctionId × List ObjectId) × Bool) :=
  ((t.vars.toList.zip (constancies t).toList).filter fun entry => entry.2 = .changing).map
    fun entry => label entry.1

theorem changingLabels_sublist (t : Task) : (changingLabels t).Sublist (labels t) := by
  have hzip : (t.vars.toList.zip (constancies t).toList).map Prod.fst = t.vars.toList := by
    rw [List.map_fst_zip]
    simp [size_constancies]
  have hsub : (changingLabels t).Sublist
      ((t.vars.toList.zip (constancies t).toList).map (label ∘ Prod.fst)) :=
    List.filter_sublist.map _
  rwa [← List.map_map, hzip] at hsub

/-- What remains are the changing variables, the numeric ones last. -/
theorem map_label_remaining (t : Task) :
    ((remaining t.vars (constancies t)).filterMap fun i => t.vars[i]?.map label) =
      numericLast (changingLabels t) := by
  set changing := (t.vars.toList.zip (constancies t).toList).zipIdx.filter fun entry =>
    decide (entry.1.2 = .changing) with hchanging
  -- an entry of the table has been put together with its position
  have hentry : ∀ entry ∈ changing, t.vars[entry.2]? = some entry.1.1 := by
    intro entry hmem
    have hzip := List.mem_zipIdx_iff_getElem?.mp (List.mem_filter.mp hmem).1
    rw [← Array.getElem?_toList]
    exact (List.getElem?_zip_eq_some.mp hzip).1
  have hpart : ∀ part : List ((Variable × Constancy) × Nat), part ⊆ changing →
      ((part.map Prod.snd).filterMap fun i => t.vars[i]?.map label) =
        part.map fun entry => label entry.1.1 := by
    intro part hpart
    rw [List.filterMap_map, ← List.filterMap_eq_map]
    refine List.filterMap_congr fun entry hmem => ?_
    rw [Function.comp, hentry entry (hpart hmem)]
    rfl
  have hlabels : (changing.map fun entry => label entry.1.1) = changingLabels t := by
    have hfilter : changing.map Prod.fst = (t.vars.toList.zip (constancies t).toList).filter
        fun entry => entry.2 = .changing := by
      conv_rhs => rw [← List.zipIdx_map_fst 0 (t.vars.toList.zip (constancies t).toList),
        List.filter_map]
      rfl
    rw [changingLabels, ← hfilter, List.map_map]
    rfl
  rw [remaining, List.map_append, List.filterMap_append, hpart _ (List.filter_subset_self _),
    hpart _ (List.filter_subset_self _), ← hlabels, numericLast, List.filter_map, List.filter_map]
  rfl

/-- A pass that removes something puts the numeric variables last. -/
theorem labels_of_removeStaticPass {count : Nat} (h : removeStaticPass t = .ok (t', count)) :
    (t' = t ∧ count = 0) ∨ labels t' = numericLast (changingLabels t) := by
  rcases removeStaticPass_eq_ok h with hsame | ⟨_, _, _, -, -, -, -, hvars, -⟩
  · exact Or.inl hsame
  · rw [labels, hvars, map_label_remainingVariables, map_label_remaining]
    exact Or.inr rfl

end Pass

/-! ## Repeated passes -/

/-- A table has come from another one by passes, of which some have removed variables or none. -/
structure IsArranged (ls ls' : List ((FunctionId × List ObjectId) × Bool)) (removes : Prop) :
    Prop where
  sublist : ∀ numeric, (ls'.filter fun l => l.2 == numeric).Sublist
    (ls.filter fun l => l.2 == numeric)
  eq : ¬removes → ls' = ls
  numericLast : removes → ls'.Pairwise fun l m => l.2 = true → m.2 = true

theorem isArranged_of_removePasses {t t' : Task} {passes removed removed' : Nat}
    (h : removePasses passes removed t = .ok (t', removed')) :
    removed ≤ removed' ∧ IsArranged (labels t) (labels t') (removed < removed') := by
  induction passes generalizing t removed with
  | zero =>
    cases h
    exact ⟨le_rfl, fun _ => .refl _, fun _ => rfl, fun h => absurd h (Nat.lt_irrefl _)⟩
  | succ passes ih =>
    obtain ⟨⟨t₁, count⟩, hpass, h⟩ := except_bind_eq_ok.mp h
    dsimp only at h
    split at h
    next hcount =>
      subst hcount
      have hsame := (of_removeStaticPass_eq_zero hpass).1
      cases h
      rw [hsame]
      exact ⟨le_rfl, fun _ => .refl _, fun _ => rfl, fun h => absurd h (Nat.lt_irrefl _)⟩
    next hcount =>
      rcases labels_of_removeStaticPass hpass with ⟨-, hzero⟩ | hlabels
      · exact absurd hzero hcount
      obtain ⟨hle, hsublist, heq, hlast⟩ := ih h
      refine ⟨by omega, fun numeric => (hsublist numeric).trans ?_, fun hnone => by omega,
        fun _ => ?_⟩
      · rw [hlabels, filter_numericLast]
        exact (changingLabels_sublist t).filter _
      · by_cases hmore : removed + count < removed'
        · exact hlast hmore
        · rw [heq hmore, hlabels]
          exact pairwise_numericLast _

/-! ## Grounded tasks -/

section Tasks

variable {p : Lifted.Problem} {t : Task}

/-- What follows the passes does not touch what variables stand for. -/
theorem labels_setInitialValues_decideNumericConditions (t : Task) :
    labels (setInitialValues (decideNumericConditions t)) = labels t := by
  rw [labels, setInitialValues, Array.toList_map, List.map_map]
  rfl

/-- **Variables keep the order in which saturation has created them** within each kind. The numeric
ones are last if a variable has been removed as static, and otherwise if saturation has created
them last. -/
theorem ground_arranges (h : ground p false = .ok t) :
    ∃ saturated, (saturate p).run' {} = .ok saturated ∧
      (∀ numeric, (t.atomsOfKind numeric).Sublist (saturated.atomsOfKind numeric)) ∧
      (t.HasNumericLast ↔ 0 < t.stats.staticVariables ∨ saturated.HasNumericLast) := by
  have hnumbered := (ground_isOrderly h).numbered
  obtain ⟨-, saturated, s, reduced, hrun, hreduced, rfl⟩ := ground_eq_ok h
  have hnumbered₀ : saturated.IsNumbered := (saturate_isOrderly p _ _ hrun).numbered
  have hstatic := (saturate_stats p _ _ hrun).1
  obtain ⟨⟨passed, removed⟩, hpasses, heq⟩ := except_bind_eq_ok.mp hreduced
  have hstatic' : passed.stats.staticVariables = saturated.stats.staticVariables :=
    staticVariables_of_passes (passes_of_removePasses hpasses)
  cases heq
  obtain ⟨-, hsublist, hsame, hlast⟩ := isArranged_of_removePasses hpasses
  set reduced : Task := { passed with
    stats := { passed.stats with
      staticVariables := passed.stats.staticVariables + removed } } with hreduced
  have hlabels : labels (setInitialValues (decideNumericConditions reduced)) = labels passed :=
    labels_setInitialValues_decideNumericConditions _
  have hcount : (setInitialValues (decideNumericConditions reduced)).stats.staticVariables =
      removed := by
    show passed.stats.staticVariables + removed = removed
    omega
  refine ⟨saturated, except_bind_eq_ok.mpr ⟨_, hrun, rfl⟩,
    atomsOfKind_sublist fun numeric => ?_, ?_⟩
  · rw [hlabels]
    exact hsublist numeric
  · rw [hasNumericLast_iff hnumbered, hasNumericLast_iff hnumbered₀, hlabels, hcount]
    by_cases hremoved : 0 < removed
    · exact iff_of_true (hlast hremoved) (Or.inl hremoved)
    · rw [hsame hremoved, or_iff_right hremoved]

end Tasks

open Lifted in
/-- The power of a lamp changes by itself, and a switch turns the lamp on. The power is what
saturation meets first. -/
def meteredLamp (facts : List Nat) : Problem where
  task := { Task.ofPropositions ["power", "on", "plugged"] facts with
    functions := #[⟨"power", [], [TypeId.number]⟩, ⟨"on", [], [TypeId.boolean]⟩,
      ⟨"plugged", [], [TypeId.boolean]⟩]
    init := [⟨⟨0⟩, [], .number 1.0, 0.0⟩, ⟨⟨0⟩, [], .number 2.0, 5.0⟩] ++
      facts.map fun position => ⟨⟨position⟩, [], .object .truth, 0.0⟩ }
  operators := [.ofHappenings "switch-on" ⟨[], [], [.ofProposition 1 .truth], []⟩ .empty]

/-- If the lamp is plugged in, which nothing changes, the removal of this moves the power behind the
lamp. -/
theorem plugged_lamp_is_arranged : ∃ t, ground (meteredLamp [2]) false = .ok t ∧
    t.stats.staticVariables = 1 ∧ t.atomsOfKind true = [(⟨0⟩, [])] ∧
    t.atomsOfKind false = [(⟨1⟩, [])] ∧ t.HasNumericLast := by
  have hrun : ∃ t ∈ (ground (meteredLamp [2]) false).toOption, t.stats.staticVariables = 1 ∧
      t.atomsOfKind true = [(⟨0⟩, [])] ∧ t.atomsOfKind false = [(⟨1⟩, [])] := by decide +kernel
  obtain ⟨t, ht, hstatic, hnumeric, hother⟩ := hrun
  have hground := eq_ok_of_mem_toOption ht
  obtain ⟨_, -, -, hlast⟩ := ground_arranges hground
  exact ⟨t, hground, hstatic, hnumeric, hother, hlast.mpr (Or.inl (by omega))⟩

/-- Without anything static, the power stays before the lamp. -/
theorem exists_numeric_first : ∃ t, ground (meteredLamp []) false = .ok t ∧
    t.stats.staticVariables = 0 ∧ t.atomsOfKind true = [(⟨0⟩, [])] ∧
    t.atomsOfKind false = [(⟨1⟩, [])] ∧ ¬t.HasNumericLast := by
  have hrun : ∃ t ∈ (ground (meteredLamp []) false).toOption, t.stats.staticVariables = 0 ∧
      t.atomsOfKind true = [(⟨0⟩, [])] ∧ t.atomsOfKind false = [(⟨1⟩, [])] ∧
      ¬t.HasNumericLast := by
    decide +kernel
  obtain ⟨t, ht, hrest⟩ := hrun
  exact ⟨t, eq_ok_of_mem_toOption ht, hrest⟩

end TemporalPlanning.Grounding
