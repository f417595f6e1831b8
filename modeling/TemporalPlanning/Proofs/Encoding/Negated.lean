import TemporalPlanning.Proofs.Encoding.Frames
import TemporalPlanning.Proofs.Encoding.Placement
/-!
Places of numeric variables and of propositions that must be false.

Every numeric variable has a numeric variable of its own. A proposition that some condition or
preference requires to be false only receives facts that say truth, that is, facts on boolean
variables: its group is taken apart. Placing propositions does not change where numeric variables
are placed.
-/
set_option autoImplicit false

namespace TemporalPlanning.Encoding

open FiniteDomain

variable (t : Grounded.Task)

/-! ## Numeric variables -/

/-- Places of numeric variables: numeric variables of their own. No proposition has a place yet. -/
structure PlacesNumbers (p : Placement) (T : Task) : Prop where
  noFacts : ∀ v, p.factsOf v = []
  numeric : ∀ v var, p.numeric? v = some var → var < T.numericVars.size
  numeric_inj : ∀ v w var, p.numeric? v = some var → p.numeric? w = some var → v = w

theorem placesNumbers_empty (size : Nat) : PlacesNumbers (.empty size) .empty := by
  have hnone : ∀ v, (Placement.empty size).numeric? v = none := fun v =>
    getD_replicate _ _ _
  refine ⟨fun v => getD_replicate _ _ _, fun v var h => ?_, fun v w var h => ?_⟩
  · rw [hnone] at h
    cases h
  · rw [hnone] at h
    cases h

/-- A numeric variable receives a place. -/
theorem numeric?_set (p : Placement) (v w : VarId) (var : Nat) :
    { p with numeric := p.numeric.setIfInBounds v.index (some var) }.numeric? w =
      if v = w ∧ v.index < p.numeric.size then some var else p.numeric? w := by
  cases v
  cases w
  simp only [Placement.numeric?, getD_setIfInBounds, VarId.mk.injEq]

/-- A numeric variable receives a new numeric variable as its place. -/
theorem PlacesNumbers.setNumeric {p : Placement} {T T' : Task} (h : PlacesNumbers p T)
    (hsize : T'.numericVars.size = T.numericVars.size + 1) (v : VarId) :
    PlacesNumbers { p with
      numeric := p.numeric.setIfInBounds v.index (some T.numericVars.size) } T' := by
  refine ⟨h.noFacts, fun w var hw => ?_, fun w w' var hw hw' => ?_⟩
  · rw [numeric?_set] at hw
    split at hw
    · cases hw
      omega
    · have hlt := h.numeric w var hw
      omega
  · -- an older place is below the size of the table, where the new one is
    rw [numeric?_set] at hw hw'
    split at hw <;> split at hw'
    next hvw hvw' => rw [← hvw.1, ← hvw'.1]
    next =>
      cases hw
      exact absurd (h.numeric w' _ hw') (Nat.lt_irrefl _)
    next =>
      cases hw'
      exact absurd (h.numeric w _ hw) (Nat.lt_irrefl _)
    next => exact h.numeric_inj w w' var hw hw'

/-- A numeric variable is placed at the end of the table, so at a place of its own. -/
theorem placeVariable_placesNumbers {isProposition : Array Bool} {p : Placement} {T : Task}
    (h : PlacesNumbers p T) (v : Grounded.Variable) :
    (placeVariable t isProposition p v).Ensures T fun p' T' => PlacesNumbers p' T' := by
  unfold placeVariable
  split
  · refine Update.ensures_bind.mpr (Update.ensures_bind.mpr (Update.ensures_get.mpr ?_))
    refine Update.ensures_bind.mpr (Update.ensures_modify.mpr (Update.ensures_pure.mpr ?_))
    exact Update.ensures_pure.mpr (h.setNumeric (Array.size_push _) v.index)
  split
  · exact Update.ensures_pure.mpr h
  · -- values and other variables do not matter
    have hvalue : ∀ var name, (addNamedValue var name none).Keeps Task.numericVars :=
      fun _ _ => addNamedValue_keeps (fun _ _ => rfl) (fun _ _ _ _ => rfl) _ _ _
    have hcreate : (createVariable (t.varName v.index)).Keeps Task.numericVars :=
      createVariable_keeps (fun _ _ _ => rfl) _
    refine Update.ensures_bind.mpr ((hcreate T).mono fun var T₁ h₁ => ?_)
    refine Update.ensures_bind.mpr ((Update.keeps_forM (fun o => (hvalue _ _).map _) T₁).mono ?_)
    intro _ T₂ h₂
    refine Update.ensures_pure.mpr ⟨h.noFacts, fun w var hw => ?_, h.numeric_inj⟩
    rw [h₂, h₁]
    exact h.numeric w var hw

/-! ## Propositions that must be false -/

/-- Facts are added, and of marked propositions only facts that say truth. -/
structure AddsTruth (isNegated : Array Bool) (p p' : Placement) : Prop where
  numeric : p'.numeric = p.numeric
  truth : ∀ v, Mutex.isMarked isNegated v = true → ∀ f ∈ p'.factsOf v,
    f ∈ p.factsOf v ∨ f.value = .truth

section Propositions

variable {t} {isNegated : Array Bool} {p p' p'' : Placement}

theorem AddsTruth.refl (isNegated : Array Bool) (p : Placement) : AddsTruth isNegated p p :=
  ⟨rfl, fun _ _ _ => Or.inl⟩

theorem AddsTruth.trans (h : AddsTruth isNegated p p') (h' : AddsTruth isNegated p' p'') :
    AddsTruth isNegated p p'' :=
  ⟨h'.numeric.trans h.numeric, fun v hv f hf =>
    (h'.truth v hv f hf).elim (h.truth v hv f) Or.inr⟩

/-- A fact may be added if it is the value true, or of a proposition that is never negated. -/
theorem addsTruth_addFact {v : VarId} {f : FactCode}
    (h : Mutex.isMarked isNegated v = true → f.value = .truth) :
    AddsTruth isNegated p (p.addFact v f) := by
  refine ⟨rfl, fun w hw g hg => ?_⟩
  rw [factsOf_addFact] at hg
  split at hg
  next hvw =>
    rcases List.mem_append.mp hg with hg | hg
    · exact Or.inl hg
    · rw [List.mem_singleton.mp hg]
      exact Or.inr (h (hvw.1 ▸ hw))
  · exact Or.inl hg

theorem placeBoolean_addsTruth (p : Placement) (v : VarId) (T : Task) :
    (placeBoolean t p v).Ensures T fun p' _ => AddsTruth isNegated p p' := by
  refine (placeBoolean_adds t p T v).mono ?_
  rintro _ _ ⟨f, rfl, -, hvalue, -⟩
  exact addsTruth_addFact fun _ => hvalue

/-- Propositions that share a variable are not negated ones. -/
theorem placeTogether_addsTruth {g : Mutex.Group}
    (hg : ∀ v ∈ g.propositions, Mutex.isMarked isNegated v = false) (p : Placement) (T : Task) :
    (placeTogether t p g).Ensures T fun p' _ => AddsTruth isNegated p p' := by
  refine Update.ensures_bind.mpr fun var T₁ _ => ?_
  refine Update.ensures_bind.mpr ((Update.ensures_foldlM (I := fun p' _ => AddsTruth isNegated p p')
    (fun p' v hv T' h' => ?_) (.refl _ p)).mono fun p' T₂ h' => ?_)
  · refine Update.ensures_bind.mpr fun value T₂ _ => ?_
    refine Update.ensures_bind.mpr (Update.ensures_lift.mpr fun f _ => Update.ensures_pure.mpr ?_)
    refine h'.trans (addsTruth_addFact fun hmarked => ?_)
    rw [hg v hv] at hmarked
    cases hmarked
  dsimp only
  split
  · exact Update.ensures_bind.mpr fun _ _ _ => Update.ensures_pure.mpr h'
  · exact Update.ensures_pure.mpr h'

/-- A group with a negated proposition is taken apart. -/
theorem placeGroup_addsTruth (p : Placement) (g : Mutex.Group) (T : Task) :
    (placeGroup t isNegated p g).Ensures T fun p' _ => AddsTruth isNegated p p' := by
  unfold placeGroup
  split
  · exact placeBoolean_addsTruth p _ T
  split
  · refine Update.ensures_foldlM (I := fun p' _ => AddsTruth isNegated p p')
      (fun p' v _ T' h' => ?_) (.refl _ p)
    unfold placeIfMissing
    split
    · exact (placeBoolean_addsTruth p' v T').mono fun _ _ h => h'.trans h
    · exact Update.ensures_pure.mpr h'
  next hnone =>
    -- a group with a negated proposition would be taken apart
    refine placeTogether_addsTruth (fun v hv => Bool.eq_false_iff.mpr fun hmarked => ?_) p T
    exact hnone (List.any_eq_true.mpr ⟨v, hv, hmarked⟩)

theorem keepFirst_addsTruth (p : Placement) (T : Task) :
    (keepFirst p).Ensures T fun p' _ => AddsTruth isNegated p p' := by
  refine Update.ensures_bind.mpr fun _ _ _ => Update.ensures_pure.mpr ⟨rfl, fun v _ f hf => ?_⟩
  simp only [Placement.factsOf, Array.getD_eq_getD_getElem?, Array.getElem?_map] at hf ⊢
  cases hfacts : p.facts[v.index]? with
  | none =>
    rw [hfacts] at hf
    cases hf
  | some facts =>
    rw [hfacts] at hf
    exact Or.inl (List.mem_of_mem_take hf)

end Propositions

/-- **Numeric variables and negated propositions have places of their own.** -/
theorem place_separates (o : Options) (isProposition : Array Bool) (mutex : Mutex.Relation)
    (actions : List Grounded.Action) :
    (place t o isProposition mutex actions).Ensures .empty fun p _ =>
      (∀ v w var, p.numeric? v = some var → p.numeric? w = some var → v = w) ∧
      ∀ v, Mutex.isMarked (negated isProposition (actions ++ t.goals)) v = true →
        ∀ f ∈ p.factsOf v, f.value = .truth := by
  have hnumbers : Update.Ensures (t.vars.toList.foldlM (placeVariable t isProposition)
      (.empty t.vars.size)) .empty fun p T => PlacesNumbers p T :=
    Update.ensures_foldlM (fun p v _ T h => placeVariable_placesNumbers t h v)
      (placesNumbers_empty _)
  refine Update.ensures_bind.mpr (hnumbers.mono fun p₀ T₀ h₀ => ?_)
  -- only facts are added from here on, and marked propositions had none
  have hadds : ∀ p', AddsTruth (negated isProposition (actions ++ t.goals)) p₀ p' →
      (∀ v w var, p'.numeric? v = some var → p'.numeric? w = some var → v = w) ∧
      ∀ v, Mutex.isMarked (negated isProposition (actions ++ t.goals)) v = true →
        ∀ f ∈ p'.factsOf v, f.value = .truth := by
    intro p' h'
    refine ⟨fun v w var hv hw => ?_, fun v hv f hf => ?_⟩
    · rw [Placement.numeric?, h'.numeric] at hv hw
      exact h₀.numeric_inj v w var hv hw
    · refine (h'.truth v hv f hf).resolve_left fun hold => ?_
      rw [h₀.noFacts] at hold
      cases hold
  split
  · exact (Update.ensures_foldlM
      (I := fun p _ => AddsTruth (negated isProposition (actions ++ t.goals)) p₀ p)
      (fun p v _ T h => (placeBoolean_addsTruth p v T).mono fun _ _ h' => h.trans h')
      (.refl _ p₀)).mono fun p' _ => hadds p'
  · refine Update.ensures_bind.mpr ((Update.ensures_foldlM
      (I := fun p _ => AddsTruth (negated isProposition (actions ++ t.goals)) p₀ p)
      (fun p g _ T h => (placeGroup_addsTruth p g T).mono fun _ _ h' => h.trans h')
      (.refl _ p₀)).mono fun p T h => ?_)
    exact (keepFirst_addsTruth p T).mono fun p' _ h' => hadds p' (h.trans h')

/-! ## Marking negated propositions -/

theorem isMarked_foldl_of_mem {isProposition : Array Bool} {vs : List VarId} {marks : Array Bool}
    {v : VarId} (hv : Mutex.isMarked isProposition v = true) (hsize : v.index < marks.size)
    (h : v ∈ vs ∨ Mutex.isMarked marks v = true) :
    Mutex.isMarked (vs.foldl (fun marks v => if Mutex.isMarked isProposition v then
      marks.setIfInBounds v.index true else marks) marks) v = true := by
  induction vs generalizing marks with
  | nil => exact h.resolve_left fun h => by cases h
  | cons w vs ih =>
    rw [List.foldl_cons]
    have hsize' : v.index < (if Mutex.isMarked isProposition w then
        marks.setIfInBounds w.index true else marks).size := by
      split
      · rwa [Array.size_setIfInBounds]
      · exact hsize
    refine ih hsize' ?_
    rcases h with h | h
    · rcases List.mem_cons.mp h with rfl | h
      · rw [if_pos hv]
        exact Or.inr ((Mutex.isMarked_set marks v v).mpr (Or.inr ⟨rfl, hsize⟩))
      · exact Or.inl h
    · -- marks stay
      refine Or.inr ?_
      split
      · exact (Mutex.isMarked_set marks w v).mpr (Or.inl h)
      · exact h

/-- A proposition that a condition requires to be false is marked. -/
theorem isMarked_negated {isProposition : Array Bool} {actions : List Grounded.Action}
    {a : Grounded.Action} (ha : a ∈ actions) {c : Grounded.Condition} (hc : c ∈ a.conditions)
    (hfalse : c.value = .falsity) (hv : Mutex.isMarked isProposition c.var = true) :
    Mutex.isMarked (negated isProposition actions) c.var = true := by
  refine isMarked_foldl_of_mem hv ?_ (Or.inl (List.mem_flatMap.mpr ⟨a, ha, ?_⟩))
  · rw [Array.size_replicate]
    exact Mutex.lt_size_of_isMarked hv
  · refine List.mem_append_left _ (List.mem_map.mpr ⟨c, List.mem_filter.mpr ⟨hc, ?_⟩, rfl⟩)
    exact beq_iff_eq.mpr hfalse

end TemporalPlanning.Encoding
