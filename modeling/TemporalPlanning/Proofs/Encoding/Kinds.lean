import TemporalPlanning.Proofs.Encoding.Negated
import TemporalPlanning.Proofs.Encoding.Packing
/-!
Which kind of place a grounded variable has.

The variables of the table are placed one after the other: a numeric variable in a numeric variable,
and a variable that is no proposition in a variable over objects. Propositions are placed afterwards
and receive facts only. So every variable has a place of its own kind, and no other one. A place over
objects is never false, as long as no object has the name of that value.
-/
set_option autoImplicit false

namespace TemporalPlanning.Encoding

open FiniteDomain

/-! ## Placing the variables of the table -/

/-- Some of the listed variables receive places: those that are numeric, and those that are neither
numeric nor propositions. -/
structure AddsPlaces (isProposition : Array Bool) (vs : List Grounded.Variable)
    (p p' : Placement) : Prop where
  numericSize : p'.numeric.size = p.numeric.size
  finiteSize : p'.finite.size = p.finite.size
  numeric : ∀ w, w.index < p.numeric.size → ((p'.numeric? w).isSome = true ↔
    (p.numeric? w).isSome = true ∨ ∃ v ∈ vs, v.isNumeric = true ∧ v.index = w)
  finite : ∀ w, w.index < p.finite.size → ((p'.finite? w).isSome = true ↔
    (p.finite? w).isSome = true ∨
      ∃ v ∈ vs, (!v.isNumeric && !Mutex.isMarked isProposition v.index) = true ∧ v.index = w)

section Table

variable (t : Grounded.Task) {isProposition : Array Bool}

theorem placeVariable_addsPlaces (p : Placement) (v : Grounded.Variable) (T : Task) :
    (placeVariable t isProposition p v).Ensures T fun p' _ =>
      AddsPlaces isProposition [v] p p' := by
  unfold placeVariable
  split
  next hnumeric =>
    refine Update.ensures_bind.mpr fun var _ _ => Update.ensures_pure.mpr ⟨Array.size_setIfInBounds,
      rfl, fun w hw => ?_, fun w _ => ?_⟩
    · rw [numeric?_set]
      by_cases hvw : v.index = w
      · subst hvw
        simp [hw, hnumeric]
      · simp [hvw]
    · simp [Placement.finite?, hnumeric]
  split
  next hnumeric hproposition =>
    exact Update.ensures_pure.mpr ⟨rfl, rfl, fun w _ => by simp [hnumeric],
      fun w _ => by simp [hproposition]⟩
  next hnumeric hproposition =>
    refine Update.ensures_bind.mpr fun var _ _ => Update.ensures_bind.mpr fun _ _ _ =>
      Update.ensures_pure.mpr ⟨rfl, Array.size_setIfInBounds, fun w _ => ?_, fun w hw => ?_⟩
    · simp [Placement.numeric?, hnumeric]
    · rw [finite?_set]
      by_cases hvw : v.index = w
      · subst hvw
        simp [hw, hnumeric, hproposition]
      · simp [hvw]

/-- Variables are placed one after the other. -/
theorem placeVariables_addsPlaces (vs : List Grounded.Variable) (p : Placement) (T : Task) :
    Update.Ensures (vs.foldlM (placeVariable t isProposition) p) T fun p' _ =>
      AddsPlaces isProposition vs p p' := by
  induction vs generalizing p T with
  | nil => exact Update.ensures_pure.mpr ⟨rfl, rfl, fun w _ => by simp, fun w _ => by simp⟩
  | cons v vs ih =>
    rw [List.foldlM_cons]
    refine Update.ensures_bind.mpr ((placeVariable_addsPlaces t p v T).mono fun p₁ T₁ h₁ => ?_)
    refine (ih p₁ T₁).mono fun p₂ _ h₂ => ?_
    refine ⟨h₂.numericSize.trans h₁.numericSize, h₂.finiteSize.trans h₁.finiteSize,
      fun w hw => ?_, fun w hw => ?_⟩
    · rw [h₂.numeric w (h₁.numericSize ▸ hw), h₁.numeric w hw]
      simp only [List.exists_mem_cons_iff, List.mem_singleton, exists_eq_left, or_assoc]
    · rw [h₂.finite w (h₁.finiteSize ▸ hw), h₁.finite w hw]
      simp only [List.exists_mem_cons_iff, List.mem_singleton, exists_eq_left, or_assoc]

end Table

/-! ## All places -/

/-- Every variable has a place of its kind. -/
structure HasKinds (t : Grounded.Task) (isProposition : Array Bool) (p : Placement) (T : Task) :
    Prop where
  numeric : ∀ (i : Nat) (v : Grounded.Variable), t.vars[i]? = some v →
    ((p.numeric? ⟨i⟩).isSome = true ↔ v.isNumeric = true)
  numeric_lt : ∀ v n, p.numeric? v = some n → n < T.numericVars.size
  finite : ∀ (i : Nat) (v : Grounded.Variable), t.vars[i]? = some v →
    ((p.finite? ⟨i⟩).isSome = true ↔
      v.isNumeric = false ∧ Mutex.isMarked isProposition ⟨i⟩ = false)

/-- **Every variable has a place of its kind.** -/
theorem place_hasKinds {t : Grounded.Task} (ht : t.IsNumbered) (o : Options)
    (isProposition : Array Bool) (mutex : Mutex.Relation) (actions : List Grounded.Action) :
    (place t o isProposition mutex actions).Ensures .empty fun p T =>
      HasKinds t isProposition p T := by
  have hnumbers : Update.Ensures (t.vars.toList.foldlM (placeVariable t isProposition)
      (.empty t.vars.size)) .empty fun p T => PlacesNumbers p T :=
    Update.ensures_foldlM (fun p v _ T h => placeVariable_placesNumbers t h v)
      (placesNumbers_empty _)
  refine Update.ensures_bind.mpr (((placeVariables_addsPlaces t _ _ _).and hnumbers).mono ?_)
  rintro p₀ T₀ ⟨h₀, hnumbers⟩
  have hnone : ∀ w : VarId, (Placement.empty t.vars.size).numeric? w = none ∧
      (Placement.empty t.vars.size).finite? w = none := fun w =>
    ⟨getD_replicate _ _ _, getD_replicate _ _ _⟩
  -- propositions are placed in other variables
  have hkinds : ∀ (p : Placement) (T : Task), p.numeric = p₀.numeric → p.finite = p₀.finite →
      T.numericVars = T₀.numericVars → HasKinds t isProposition p T := by
    intro p T hnumeric hfinite hnumericVars
    refine ⟨fun i v hv => ?_, fun v n hn => ?_, fun i v hv => ?_⟩
    · have hlt := (Array.getElem?_eq_some_iff.mp hv).1
      rw [Placement.numeric?, hnumeric, ← Placement.numeric?,
        h₀.numeric ⟨i⟩ (by simpa [Placement.empty] using hlt), (hnone _).1]
      have hmem := Mutex.exists_mem_vars_iff ht (·.isNumeric) ⟨i⟩
      simp only [hlt, and_true, hv, Option.some.injEq, exists_eq_left'] at hmem
      simpa using hmem
    · rw [Placement.numeric?, hnumeric] at hn
      rw [hnumericVars]
      exact hnumbers.numeric v n hn
    · have hlt := (Array.getElem?_eq_some_iff.mp hv).1
      rw [Placement.finite?, hfinite, ← Placement.finite?,
        h₀.finite ⟨i⟩ (by simpa [Placement.empty] using hlt), (hnone _).2]
      have hmem := Mutex.exists_mem_vars_iff ht
        (fun v => !v.isNumeric && !Mutex.isMarked isProposition v.index) ⟨i⟩
      simp only [hlt, and_true, hv, Option.some.injEq, exists_eq_left', ht i v hv] at hmem
      simpa using hmem
  have hcreation : IgnoresCreation Task.numericVars :=
    ⟨fun _ _ _ _ => rfl, fun _ _ => rfl, fun _ _ _ => rfl⟩
  split
  · refine ((foldlM_addsEach (placeBoolean_addsFact t) _ p₀ T₀).and
      (Update.keeps_foldlM (placeBoolean_keeps t hcreation) p₀ T₀)).mono ?_
    rintro p T ⟨h, hkept⟩
    exact hkinds p T h.numeric h.finite hkept
  · refine Update.ensures_bind.mpr (((foldlM_adds (placeGroup_addsFacts t _) _ p₀ T₀).and
      (Update.keeps_foldlM (placeGroup_keeps t hcreation _) p₀ T₀)).mono ?_)
    rintro p T ⟨h, hkept⟩
    have hfirst : (keepFirst p).Ensures T fun p' _ => p'.numeric = p.numeric ∧
        p'.finite = p.finite :=
      Update.ensures_bind.mpr fun _ _ _ => Update.ensures_pure.mpr ⟨rfl, rfl⟩
    refine (hfirst.and (keepFirst_keepsPart hcreation p T)).mono ?_
    rintro p' T' ⟨h', hkept'⟩
    exact hkinds p' T' (h'.1.trans h.numeric) (h'.2.trans h.finite) (hkept'.trans hkept)

/-! ## Variables over objects are never false -/

section NeverFalse

variable {t : Grounded.Task} {T : Task}

/-- A value with another name does not make a variable false. -/
theorem addNamedValue_shared (hreserved : T.HasReserved) {name : String} (hname : name ≠ "<false>")
    (var : Nat) (function : Option FunctionId) :
    (addNamedValue var name function).Ensures T fun _ T' =>
      T'.HasReserved ∧ ∀ i, T.HasShared i → T'.HasShared i := by
  refine (addNamedValue_ensures var name function T).mono ?_
  rintro value T' ⟨hvalues, hvalue, hvars, -⟩
  have hreserved' := hreserved.mono hvalues
  refine ⟨hreserved', fun i ⟨x, hx, hnot⟩ => ?_⟩
  unfold Task.HasShared
  rw [hvars, Array.getElem?_modify, hx]
  split
  · refine ⟨_, rfl, fun hmem => ?_⟩
    rcases List.mem_append.mp hmem with hmem | hmem
    · exact hnot hmem
    · rw [← List.mem_singleton.mp hmem] at hvalue
      exact hname (Task.value?_inj hvalue hreserved'.falsity)
  · exact ⟨x, rfl, hnot⟩

/-- Variables over objects are placed in variables that are never false. -/
theorem placeVariable_shared (hnames : "<false>" ∉ t.task.objects.toList.map (·.name))
    {isProposition : Array Bool} {p : Placement} (hreserved : T.HasReserved)
    (h : ∀ v var, p.finite? v = some var → T.HasShared var) (v : Grounded.Variable) :
    (placeVariable t isProposition p v).Ensures T fun p' T' =>
      ∀ v var, p'.finite? v = some var → T'.HasShared var := by
  unfold placeVariable
  split
  · refine Update.ensures_bind.mpr (Update.ensures_bind.mpr (Update.ensures_get.mpr ?_))
    refine Update.ensures_bind.mpr (Update.ensures_modify.mpr (Update.ensures_pure.mpr ?_))
    exact Update.ensures_pure.mpr h
  split
  · exact Update.ensures_pure.mpr h
  · refine Update.ensures_bind.mpr ((createVariable_ensures _ T).mono ?_)
    rintro var T₁ ⟨hgrows, rfl, -, hvars⟩
    have hvalues : Update.Ensures ((objectsFor t v.function).forM fun o =>
        discard (addNamedValue T.vars.size o.name none)) T₁ fun _ T' =>
          T'.HasReserved ∧ ∀ i, T₁.HasShared i → T'.HasShared i := by
      refine Update.ensures_forM (fun o ho T' hT' => Update.ensures_map.mpr ?_)
        ⟨hgrows.hasReserved hreserved, fun _ hi => hi⟩
      have hname : o.name ≠ "<false>" := fun heq =>
        hnames (List.mem_map.mpr ⟨o, (List.mem_filter.mp ho).1, heq⟩)
      exact (addNamedValue_shared hT'.1 hname _ _).mono fun _ T'' hT'' =>
        ⟨hT''.1, fun i hi => hT''.2 i (hT'.2 i hi)⟩
    refine Update.ensures_bind.mpr (hvalues.mono fun _ T₂ h₂ => Update.ensures_pure.mpr ?_)
    intro w var hw
    rw [finite?_set] at hw
    split at hw
    · -- the new variable has had no values before
      cases hw
      exact h₂.2 _ ⟨_, by rw [hvars, Array.getElem?_push, if_pos rfl], List.not_mem_nil⟩
    · exact h₂.2 var (hgrows.shared var (h w var hw))

/-- **Variables over objects are never false**, if no object has the name of that value. -/
theorem place_shared (hnames : "<false>" ∉ t.task.objects.toList.map (·.name)) (o : Options)
    {isProposition : Array Bool} {mutex : Mutex.Relation} (hmutex : mutex.IsOver isProposition)
    (actions : List Grounded.Action) :
    (place t o isProposition mutex actions).Ensures .empty fun p T =>
      ∀ v var, p.finite? v = some var → T.HasShared var := by
  have : Std.Irrefl mutex.Lists := hmutex.irrefl_lists
  have hobjects : Update.Ensures (t.vars.toList.foldlM (placeVariable t isProposition)
      (.empty t.vars.size)) .empty fun p T => PlacesObjects isProposition p T ∧
        ∀ v var, p.finite? v = some var → T.HasShared var := by
    refine Update.ensures_foldlM (fun p v _ T h => (placeVariable_placesObjects t h.1 v).and
      (placeVariable_shared hnames h.1.reserved h.2 v))
      ⟨placesObjects_empty isProposition _, fun v var h => ?_⟩
    have hnone : (Placement.empty t.vars.size).finite? v = none := getD_replicate _ _ _
    rw [hnone] at h
    cases h
  refine Update.ensures_bind.mpr (hobjects.mono fun p₀ T₀ ⟨h₀, hshared⟩ => ?_)
  have hstart : PlacesPropositions t mutex.Lists p₀ T₀ p₀ T₀ := h₀.placesPropositions
  -- what comes after that makes no variable false
  have hgrown : ∀ {p T}, PlacesPropositions t mutex.Lists p₀ T₀ p T → ∀ v var,
      p.finite? v = some var → T.HasShared var := fun h v var hv => by
    rw [Placement.finite?, h.finite] at hv
    exact h.grows.shared var (hshared v var hv)
  split
  · exact (Update.ensures_foldlM (I := fun p T => PlacesPropositions t mutex.Lists p₀ T₀ p T)
      (fun p v _ T h => placeBoolean_ensures h v) hstart).mono fun p T h => hgrown h
  · have hgroups := isGrouping_mutexGroups isProposition mutex o.grouping
    refine Update.ensures_bind.mpr ((Update.ensures_foldlM
      (I := fun p T => PlacesPropositions t mutex.Lists p₀ T₀ p T) (fun p g hg T h =>
        placeGroup_ensures h h₀.reserved _ (hgroups.related g hg)) hstart).mono fun p T h => ?_)
    refine (keepFirst_keeps h).mono ?_
    rintro _ T' ⟨hkeeps, rfl⟩ v var hv
    exact hkeeps.shared var (hgrown h v var hv)

end NeverFalse

end TemporalPlanning.Encoding
