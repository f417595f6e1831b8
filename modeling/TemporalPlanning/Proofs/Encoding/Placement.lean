import TemporalPlanning.Proofs.Encoding.Groups
import TemporalPlanning.Proofs.FiniteDomain.Creation
import TemporalPlanning.Proofs.Mutex.Members
/-!
Where grounded variables are placed.

Variables over objects come first, each in a variable of its own. A proposition then receives facts
in variables that are created later: truth in a boolean variable that it shares with nobody, or the
value named after it in a shared variable. As falsity is never a value of a shared variable, a later
fact does not change what an earlier one means, and neither does it matter which facts are displaced
when every proposition keeps its first one.
-/
set_option autoImplicit false

namespace TemporalPlanning.Encoding

open FiniteDomain

variable (t : Grounded.Task)

/-! ## Values -/

/-- The name of a variable is none of the reserved names. -/
theorem varName_ne {v : VarId} {name : String} (h : name.toList.head? = some '<') :
    t.varName v ≠ name := by
  rintro rfl
  unfold Grounded.Task.varName at h
  split at h
  · rw [Lifted.Task.variableName, String.append_assoc, String.toList_append] at h
    cases h
  · rw [VarId.label, positionLabel, String.append_assoc, String.append_assoc,
      String.toList_append] at h
    cases h

/-- A value named after a variable is not a reserved one. -/
theorem value_ne_of_varName {T : Task} (hreserved : T.HasReserved) {v : VarId} {value : ValueId}
    (h : T.value? (t.varName v) = some value) :
    value ≠ .truth ∧ value ≠ .falsity ∧ value ≠ .undefined := by
  refine ⟨?_, ?_, ?_⟩ <;> rintro rfl
  · exact varName_ne t (by decide) (Task.value?_inj h hreserved.truth)
  · exact varName_ne t (by decide) (Task.value?_inj h hreserved.falsity)
  · exact varName_ne t (by decide) (Task.value?_inj h hreserved.undefined)

theorem addNamedValue_ensures (var : Nat) (name : String) (function : Option FunctionId)
    (t : Task) : (addNamedValue var name function).Ensures t fun value t' =>
      (∀ n x, t.value? n = some x → t'.value? n = some x) ∧ t'.value? name = some value ∧
        t'.vars = t.vars.modify var (·.addValue value) ∧ t'.actions = t.actions := by
  refine Update.ensures_bind.mpr ((createValue_ensures name function t).mono ?_)
  rintro value t' ⟨hgrows, hvalue, hvars⟩
  refine Update.ensures_bind.mpr (Update.ensures_modify.mpr (Update.ensures_pure.mpr ?_))
  refine ⟨hgrows.values, hvalue, ?_, hgrows.actions⟩
  show t'.vars.modify var (fun x => x.addValue value) = _
  rw [hvars]

/-! ## Variables over objects -/

/-- Places of variables over objects: variables of their own. No proposition has a place yet. -/
structure PlacesObjects (isProposition : Array Bool) (p : Placement) (T : Task) : Prop where
  reserved : T.HasReserved
  actions : T.actions = #[]
  noFacts : ∀ v, p.factsOf v = []
  finite : ∀ v var, p.finite? v = some var →
    var < T.vars.size ∧ Mutex.isMarked isProposition v = false
  finite_inj : ∀ v w var, p.finite? v = some var → p.finite? w = some var → v = w

theorem placesObjects_empty (isProposition : Array Bool) (size : Nat) :
    PlacesObjects isProposition (.empty size) .empty := by
  have hnone : ∀ v, (Placement.empty size).finite? v = none := fun v => getD_replicate _ _ _
  refine ⟨Task.hasReserved_empty, rfl, fun v => getD_replicate _ _ _, fun v var h => ?_,
    fun v w var h => ?_⟩
  · rw [hnone] at h
    cases h
  · rw [hnone] at h
    cases h

theorem getD_setIfInBounds {α : Type} (places : Array (Option α)) (i j : Nat) (place : α) :
    (places.setIfInBounds i (some place)).getD j none =
      if i = j ∧ i < places.size then some place else places.getD j none := by
  simp only [Array.getD_eq_getD_getElem?, Array.getElem?_setIfInBounds]
  split
  next heq =>
    subst heq
    split
    next hlt => rw [if_pos ⟨rfl, hlt⟩, Option.getD_some]
    next hlt =>
      rw [if_neg fun h => hlt h.2, Array.getElem?_eq_none (Nat.le_of_not_lt hlt)]
  next hne => rw [if_neg fun h => hne h.1]

/-- A variable over objects receives a place. -/
theorem finite?_set (p : Placement) (v w : VarId) (var : Nat) :
    { p with finite := p.finite.setIfInBounds v.index (some var) }.finite? w =
      if v = w ∧ v.index < p.finite.size then some var else p.finite? w := by
  cases v
  cases w
  simp only [Placement.finite?, getD_setIfInBounds, VarId.mk.injEq]

/-- A variable that is no proposition receives a new variable as its place. -/
theorem PlacesObjects.setFinite {isProposition : Array Bool} {p : Placement} {T T' : Task}
    (h : PlacesObjects isProposition p T) (hreserved : T'.HasReserved)
    (hactions : T'.actions = #[]) (hsize : T'.vars.size = T.vars.size + 1) {v : VarId}
    (hv : Mutex.isMarked isProposition v = false) :
    PlacesObjects isProposition
      { p with finite := p.finite.setIfInBounds v.index (some T.vars.size) } T' := by
  refine ⟨hreserved, hactions, h.noFacts, fun w var hw => ?_, fun w w' var hw hw' => ?_⟩
  · rw [finite?_set] at hw
    split at hw
    next hvw =>
      cases hw
      rw [← hvw.1]
      exact ⟨by omega, hv⟩
    next =>
      obtain ⟨hlt, hmarked⟩ := h.finite w var hw
      exact ⟨by omega, hmarked⟩
  · -- an older place is below the size of the table, where the new one is
    rw [finite?_set] at hw hw'
    split at hw <;> split at hw'
    next hvw hvw' => rw [← hvw.1, ← hvw'.1]
    next =>
      cases hw
      exact absurd (h.finite w' _ hw').1 (Nat.lt_irrefl _)
    next =>
      cases hw'
      exact absurd (h.finite w _ hw).1 (Nat.lt_irrefl _)
    next => exact h.finite_inj w w' var hw hw'

/-- Values of a variable change neither the number of variables nor the reserved values. -/
theorem forM_addNamedValue_ensures (var : Nat) (objects : List Lifted.ObjectEntry) {T : Task}
    (hreserved : T.HasReserved) (hactions : T.actions = #[]) :
    Update.Ensures (objects.forM fun o => discard (addNamedValue var o.name none)) T
      fun _ T' => T'.HasReserved ∧ T'.actions = #[] ∧ T'.vars.size = T.vars.size := by
  refine Update.ensures_forM (fun o _ T' ⟨hreserved', hactions', hsize'⟩ => ?_)
    ⟨hreserved, hactions, rfl⟩
  refine Update.ensures_map.mpr ((addNamedValue_ensures _ _ _ T').mono ?_)
  rintro value T'' ⟨hvalues, -, hvars, hsame⟩
  refine ⟨hreserved'.mono hvalues, hsame.trans hactions', ?_⟩
  rw [hvars, Array.size_modify, hsize']

theorem placeVariable_placesObjects {isProposition : Array Bool} {p : Placement} {T : Task}
    (h : PlacesObjects isProposition p T) (v : Grounded.Variable) :
    (placeVariable t isProposition p v).Ensures T fun p' T' =>
      PlacesObjects isProposition p' T' := by
  unfold placeVariable
  split
  · -- numeric variables have no place among the variables with a finite domain
    refine Update.ensures_bind.mpr (Update.ensures_bind.mpr (Update.ensures_get.mpr ?_))
    refine Update.ensures_bind.mpr (Update.ensures_modify.mpr (Update.ensures_pure.mpr ?_))
    exact Update.ensures_pure.mpr ⟨h.reserved.mono fun _ _ hx => hx, h.actions, h.noFacts,
      h.finite, h.finite_inj⟩
  split
  · exact Update.ensures_pure.mpr h
  next hproposition =>
    refine Update.ensures_bind.mpr ((createVariable_ensures _ T).mono ?_)
    rintro var T₁ ⟨hgrows, rfl, -, hvars⟩
    refine Update.ensures_bind.mpr ((forM_addNamedValue_ensures _ _ (hgrows.hasReserved h.reserved)
      (hgrows.actions.trans h.actions)).mono ?_)
    rintro _ T₂ ⟨hreserved, hactions, hsize⟩
    refine Update.ensures_pure.mpr (h.setFinite hreserved hactions ?_ ?_)
    · rw [hsize, hvars, Array.size_push]
    · exact Bool.eq_false_iff.mpr hproposition

/-! ## Propositions -/

/-- A fact says that a proposition holds: it is truth in a boolean variable, or the value named
after the proposition in a shared one. -/
def MeansThat (T : Task) (v : VarId) (f : FactCode) : Prop :=
  (f.value = .truth ∧ T.HasBoolean f.var) ∨
    (T.value? (t.varName v) = some f.value ∧ T.HasShared f.var)

theorem MeansThat.mono {T T' : Task} {v : VarId} {f : FactCode} (h : MeansThat t T v f)
    (hgrows : T.Grows T') : MeansThat t T' v f := by
  rcases h with ⟨hvalue, hvar⟩ | ⟨hvalue, hvar⟩
  · exact Or.inl ⟨hvalue, hgrows.boolean _ hvar⟩
  · exact Or.inr ⟨hgrows.values _ _ hvalue, hgrows.shared _ hvar⟩

theorem MeansThat.lt_size {T : Task} {v : VarId} {f : FactCode} (h : MeansThat t T v f) :
    f.var < T.vars.size := by
  rcases h with ⟨-, hvar⟩ | ⟨-, hvar⟩
  · exact hvar.lt_size
  · exact hvar.lt_size

/-- What is boolean later has been boolean. -/
theorem MeansThat.hasBoolean {T T' : Task} {v : VarId} {f : FactCode} (h : MeansThat t T v f)
    (hgrows : T.Grows T') (hboolean : T'.HasBoolean f.var) : T.HasBoolean f.var := by
  rcases h with ⟨-, hvar⟩ | ⟨-, hvar⟩
  · exact hvar
  · exact absurd hboolean (hgrows.shared _ hvar).not_hasBoolean

/-- Facts of propositions, in variables created after those over objects. Only related propositions
share a variable, which has values for all of them. -/
structure PlacesPropositions (related : VarId → VarId → Prop) (p₀ : Placement) (T₀ : Task)
    (p : Placement) (T : Task) : Prop where
  grows : T₀.Grows T
  finite : p.finite = p₀.finite
  later : ∀ v, ∀ f ∈ p.factsOf v, T₀.vars.size ≤ f.var
  means : ∀ v, ∀ f ∈ p.factsOf v, MeansThat t T v f
  held : ∀ v, ∀ f ∈ p.factsOf v, T.HasValueAt f.var f.value
  /-- Facts of one proposition are in different variables. -/
  apart : ∀ v (i j : Nat) f g, (p.factsOf v)[i]? = some f → (p.factsOf v)[j]? = some g →
    f.var = g.var → i = j
  /-- A boolean variable has one fact only. -/
  alone : ∀ v w (i j : Nat) f g, (p.factsOf v)[i]? = some f → (p.factsOf w)[j]? = some g →
    f.var = g.var → T.HasBoolean f.var → v = w ∧ i = j
  shared : ∀ v w, ∀ f ∈ p.factsOf v, ∀ g ∈ p.factsOf w, f.var = g.var → v = w ∨ related v w

theorem factsOf_addFact (p : Placement) (v w : VarId) (f : FactCode) :
    (p.addFact v f).factsOf w =
      if v = w ∧ v.index < p.facts.size then p.factsOf w ++ [f] else p.factsOf w := by
  cases v
  cases w
  simp only [Placement.addFact, Placement.factsOf, Array.getD_eq_getD_getElem?,
    Array.getElem?_modify, VarId.mk.injEq]
  split
  next heq =>
    subst heq
    split
    next hlt =>
      rw [Array.getElem?_eq_getElem hlt.2, Option.map_some, Option.getD_some, Option.getD_some]
    next hlt =>
      rw [Array.getElem?_eq_none (Nat.le_of_not_lt fun h => hlt ⟨rfl, h⟩)]
      rfl
  next hne => rw [if_neg fun h => hne h.1]

/-- A fact of a proposition at a position is an earlier one, or the one that has been added. -/
theorem getElem?_addFact {p : Placement} {v w : VarId} {f g : FactCode} {i : Nat}
    (hg : ((p.addFact v f).factsOf w)[i]? = some g) :
    (p.factsOf w)[i]? = some g ∨ (v = w ∧ g = f ∧ i = (p.factsOf w).length) := by
  rw [factsOf_addFact] at hg
  split at hg
  next hvw =>
    rw [List.getElem?_append] at hg
    split at hg
    · exact Or.inl hg
    next hge =>
      obtain ⟨hlt, hg⟩ := List.getElem?_eq_some_iff.mp hg
      rw [List.length_singleton, Nat.lt_one_iff] at hlt
      simp only [hlt, List.getElem_cons_zero] at hg
      exact Or.inr ⟨hvw.1, hg.symm, by omega⟩
  · exact Or.inl hg

theorem mem_of_mem_addFact {p : Placement} {v w : VarId} {f g : FactCode}
    (hg : g ∈ (p.addFact v f).factsOf w) : g ∈ p.factsOf w ∨ (v = w ∧ g = f) := by
  obtain ⟨i, hi⟩ := List.mem_iff_getElem?.mp hg
  rcases getElem?_addFact hi with hi | ⟨hvw, hgf, -⟩
  · exact Or.inl (List.mem_of_getElem? hi)
  · exact Or.inr ⟨hvw, hgf⟩

namespace PlacesPropositions

variable {t} {related : VarId → VarId → Prop} {p₀ p : Placement} {T₀ T T' : Task}

theorem mono (h : PlacesPropositions t related p₀ T₀ p T) (hgrows : T.Grows T') :
    PlacesPropositions t related p₀ T₀ p T' where
  grows := h.grows.trans hgrows
  finite := h.finite
  later := h.later
  means v f hf := (h.means v f hf).mono t hgrows
  held v f hf := hgrows.held f.var f.value (h.held v f hf)
  apart := h.apart
  alone v w i j f g hf hg hvar hboolean :=
    h.alone v w i j f g hf hg hvar
      ((h.means v f (List.mem_of_getElem? hf)).hasBoolean t hgrows hboolean)
  shared := h.shared

/-- A proposition receives a fact; a boolean variable must be new, and a shared one must hold facts
of related propositions only, so none of this proposition. -/
theorem addFact [Std.Symm related] [Std.Irrefl related]
    (h : PlacesPropositions t related p₀ T₀ p T) {v : VarId} {f : FactCode}
    (hmeans : MeansThat t T v f) (hheld : T.HasValueAt f.var f.value)
    (hlater : T₀.vars.size ≤ f.var)
    (hfresh : T.HasBoolean f.var → ∀ w, ∀ g ∈ p.factsOf w, g.var ≠ f.var)
    (hrelated : ∀ w, ∀ g ∈ p.factsOf w, g.var = f.var → related v w) :
    PlacesPropositions t related p₀ T₀ (p.addFact v f) T := by
  have hnone : ∀ g ∈ p.factsOf v, g.var ≠ f.var := fun g hg hvar =>
    Std.Irrefl.irrefl v (hrelated v g hg hvar)
  refine ⟨h.grows, h.finite, fun w g hg => ?_, fun w g hg => ?_, fun w g hg => ?_, ?_, ?_, ?_⟩
  · rcases mem_of_mem_addFact hg with hg | ⟨-, rfl⟩
    · exact h.later w g hg
    · exact hlater
  · rcases mem_of_mem_addFact hg with hg | ⟨rfl, rfl⟩
    · exact h.means w g hg
    · exact hmeans
  · rcases mem_of_mem_addFact hg with hg | ⟨rfl, rfl⟩
    · exact h.held w g hg
    · exact hheld
  · -- the variable of the new fact has none of this proposition
    intro u i j e g he hg hvar
    rcases getElem?_addFact he with he' | ⟨hvu, rfl, hi⟩ <;>
      rcases getElem?_addFact hg with hg' | ⟨hvu', rfl, hj⟩
    · exact h.apart u i j e g he' hg' hvar
    · subst hvu'
      exact absurd hvar (hnone e (List.mem_of_getElem? he'))
    · subst hvu
      exact absurd hvar.symm (hnone g (List.mem_of_getElem? hg'))
    · exact hi.trans hj.symm
  · -- an old fact and the new one are never about the same boolean variable
    intro u w i j e g he hg hvar hboolean
    rcases getElem?_addFact he with he' | ⟨rfl, rfl, rfl⟩ <;>
      rcases getElem?_addFact hg with hg' | ⟨rfl, rfl, rfl⟩
    · exact h.alone u w i j e g he' hg' hvar hboolean
    · exact absurd hvar (hfresh (hvar ▸ hboolean) u e (List.mem_of_getElem? he'))
    · exact absurd hvar.symm (hfresh hboolean w g (List.mem_of_getElem? hg'))
    · exact ⟨rfl, rfl⟩
  · intro u w e he g hg hvar
    rcases mem_of_mem_addFact he with he' | ⟨rfl, rfl⟩ <;>
      rcases mem_of_mem_addFact hg with hg' | ⟨rfl, rfl⟩
    · exact h.shared u w e he' g hg' hvar
    · exact Or.inr (Std.Symm.symm _ _ (hrelated u e he' hvar))
    · exact Or.inr (hrelated w g hg' hvar.symm)
    · exact Or.inl rfl

end PlacesPropositions

section Placing

variable {t} {related : VarId → VarId → Prop} [Std.Symm related] [Std.Irrefl related]
  {p₀ p : Placement} {T₀ T : Task}

omit [Std.Symm related] [Std.Irrefl related] in
/-- A proposition receives truth in a new boolean variable. -/
theorem placeBoolean_adds (t : Grounded.Task) (p : Placement) (T : Task) (v : VarId) :
    (placeBoolean t p v).Ensures T fun p' T' => ∃ f, p' = p.addFact v f ∧ f.var = T.vars.size ∧
      f.value = .truth ∧ T.Grows T' ∧ T'.HasBoolean f.var := by
  refine Update.ensures_bind.mpr ((createVariable_ensures _ T).mono ?_)
  rintro var T₁ ⟨hcreated, rfl, hvalues, hvars⟩
  refine Update.ensures_bind.mpr (Update.ensures_modify.mpr ?_)
  refine Update.ensures_bind.mpr (Update.ensures_lift.mpr fun f hf => Update.ensures_pure.mpr ?_)
  obtain ⟨hvar, hvalue⟩ := FactCode.pack_eq_ok hf
  -- two steps on a new variable are one step on the table
  have hget : ∀ i : Nat, (T₁.vars.modify T.vars.size fun x =>
      (x.addValue .falsity).addValue .truth)[i]? =
        if i = T.vars.size then some ⟨T.vars.size, t.varName v, [.falsity, .truth], []⟩
        else T.vars[i]? := fun i => by
    rw [Array.getElem?_modify, hvars, Array.getElem?_push]
    by_cases hi : i = T.vars.size
    · rw [if_pos hi.symm, if_pos hi, if_pos hi]
      rfl
    · rw [if_neg (Ne.symm hi), if_neg hi, if_neg hi]
  refine ⟨f, rfl, hvar, hvalue, ?_, ?_⟩
  · refine grows_of_extends hcreated.values (fun i x hx => ?_) ?_ hcreated.actions
    · have hlt := (Array.getElem?_eq_some_iff.mp hx).1
      exact (hget i).trans (by rw [if_neg (Nat.ne_of_lt hlt), hx])
    · show T.vars.size ≤ (T₁.vars.modify _ _).size
      rw [Array.size_modify, hvars, Array.size_push]
      exact Nat.le_succ _
  · rw [hvar]
    exact ⟨_, (hget _).trans (if_pos rfl), rfl⟩

theorem placeBoolean_ensures (h : PlacesPropositions t related p₀ T₀ p T) (v : VarId) :
    (placeBoolean t p v).Ensures T fun p' T' => PlacesPropositions t related p₀ T₀ p' T' := by
  refine (placeBoolean_adds t p T v).mono ?_
  rintro _ T' ⟨f, rfl, hvar, hvalue, hgrows, hboolean⟩
  have hne : ∀ w, ∀ g ∈ p.factsOf w, g.var ≠ f.var := fun w g hg => by
    rw [hvar]
    exact Nat.ne_of_lt ((h.means w g hg).lt_size t)
  refine (h.mono hgrows).addFact (Or.inl ⟨hvalue, hboolean⟩) ?_ ?_ (fun _ => hne)
    fun w g hg heq => absurd heq (hne w g hg)
  · obtain ⟨x, hx, hdomain⟩ := hboolean
    refine ⟨x, hx, ?_⟩
    rw [hvalue, hdomain]
    exact List.mem_cons_of_mem _ List.mem_cons_self
  · rw [hvar]
    exact h.grows.size

omit [Std.Symm related] [Std.Irrefl related] in
/-- A proposition receives the value named after it in a shared variable. -/
theorem placeMember_adds (t : Grounded.Task) (p : Placement) (hreserved : T.HasReserved) {var : Nat}
    (hshared : T.HasShared var) (v : VarId) :
    (placeMember t var p v).Ensures T fun p' T' => ∃ f, p' = p.addFact v f ∧ f.var = var ∧
      T'.value? (t.varName v) = some f.value ∧ T'.HasValueAt f.var f.value ∧ T.Grows T' := by
  refine Update.ensures_bind.mpr ((addNamedValue_ensures var _ _ T).mono ?_)
  rintro value T' ⟨hvalues, hvalue, hvars, hactions⟩
  refine Update.ensures_bind.mpr (Update.ensures_lift.mpr fun f hf => Update.ensures_pure.mpr ?_)
  obtain ⟨hfvar, hfvalue⟩ := FactCode.pack_eq_ok hf
  refine ⟨f, rfl, hfvar, hfvalue ▸ hvalue, ?_, ?_⟩
  · obtain ⟨x, hx, -⟩ := hshared
    refine ⟨x.addValue value, ?_, ?_⟩
    · rw [hvars, hfvar, Array.getElem?_modify, if_pos rfl, hx]
      rfl
    · rw [hfvalue]
      exact List.mem_append_right _ List.mem_cons_self
  · refine grows_of_modify hvalues hvars hactions hshared.not_hasBoolean (fun x _ hx hmem => ?_)
      fun x _ _ hmem => List.mem_append_left _ hmem
    rcases List.mem_append.mp hmem with hmem | hmem
    · exact hx hmem
    · -- the new value is named after a variable, so it is not false
      exact (value_ne_of_varName t (hreserved.mono hvalues) hvalue).2.1
        (List.mem_singleton.mp hmem).symm

/-- While the propositions of a group are placed, its variable has facts of propositions only that
are related to the remaining ones. -/
structure PlacesMembers (related : VarId → VarId → Prop) (p₀ : Placement) (T₀ : Task) (var : Nat)
    (rest : List VarId) (p : Placement) (T : Task) : Prop
    extends PlacesPropositions t related p₀ T₀ p T where
  isShared : T.HasShared var
  remaining : ∀ v, ∀ f ∈ p.factsOf v, f.var = var → ∀ w ∈ rest, related v w

theorem placeMember_ensures (hreserved : T₀.HasReserved) {var : Nat} (hlater : T₀.vars.size ≤ var)
    {v : VarId} {rest : List VarId} (hrest : ∀ w ∈ rest, related v w)
    (h : PlacesMembers (t := t) related p₀ T₀ var (v :: rest) p T) :
    (placeMember t var p v).Ensures T fun p' T' =>
      PlacesMembers (t := t) related p₀ T₀ var rest p' T' := by
  refine (placeMember_adds t p (h.grows.hasReserved hreserved) h.isShared v).mono ?_
  rintro _ T' ⟨f, rfl, rfl, hvalue, hheld, hgrows⟩
  have hshared := hgrows.shared f.var h.isShared
  refine ⟨(h.mono hgrows).addFact (Or.inr ⟨hvalue, hshared⟩) hheld hlater (fun hboolean => ?_) ?_,
    hshared, fun w g hg hvar => ?_⟩
  · exact absurd hboolean hshared.not_hasBoolean
  · exact fun w g hg hvar =>
      Std.Symm.symm _ _ (h.remaining w g hg hvar v List.mem_cons_self)
  · rcases mem_of_mem_addFact hg with hg | ⟨rfl, -⟩
    · exact fun u hu => h.remaining w g hg hvar u (List.mem_cons_of_mem _ hu)
    · exact hrest

theorem placeMembers_ensures (hreserved : T₀.HasReserved) {var : Nat} (hlater : T₀.vars.size ≤ var)
    {members : List VarId} (hmembers : members.Pairwise related)
    (h : PlacesMembers (t := t) related p₀ T₀ var members p T) :
    Update.Ensures (members.foldlM (placeMember t var) p) T fun p' T' =>
      PlacesMembers (t := t) related p₀ T₀ var [] p' T' := by
  induction members generalizing p T with
  | nil => exact Update.ensures_pure.mpr h
  | cons v rest ih =>
    obtain ⟨hrest, htail⟩ := List.pairwise_cons.mp hmembers
    rw [List.foldlM_cons]
    exact Update.ensures_bind.mpr ((placeMember_ensures hreserved hlater hrest h).mono
      fun p' T' h' => ih htail h')

theorem placeTogether_ensures (h : PlacesPropositions t related p₀ T₀ p T)
    (hreserved : T₀.HasReserved) {g : Mutex.Group} (hg : g.propositions.Pairwise related) :
    (placeTogether t p g).Ensures T fun p' T' => PlacesPropositions t related p₀ T₀ p' T' := by
  refine Update.ensures_bind.mpr (Update.ensures_bind.mpr (Update.ensures_get.mpr ?_))
  refine (createVariable_ensures _ T).mono ?_
  rintro var T₁ ⟨hcreated, rfl, -, hvars⟩
  have hstart : PlacesMembers (t := t) related p₀ T₀ T.vars.size g.propositions p T₁ := by
    refine ⟨h.mono hcreated, ⟨_, by rw [hvars, Array.getElem?_push, if_pos rfl],
      List.not_mem_nil⟩, fun v f hf hvar => ?_⟩
    -- the variable is new, so it has no facts yet
    exact absurd ((h.means v f hf).lt_size t) (Nat.not_lt_of_le (Nat.le_of_eq hvar.symm))
  refine Update.ensures_bind.mpr ((placeMembers_ensures hreserved h.grows.size hg hstart).mono
    fun p' T' h' => ?_)
  dsimp only
  -- if all members may be false, the variable gets a value for this, which is not truth
  split
  · refine Update.ensures_bind.mpr (Update.ensures_modify.mpr (Update.ensures_pure.mpr ?_))
    refine h'.mono (grows_of_modify (f := fun x => x.addValue .undefined) (fun _ _ h => h) rfl rfl
      h'.isShared.not_hasBoolean ?_ fun x _ _ hmem => List.mem_append_left _ hmem)
    intro x _ hx hmem
    rcases List.mem_append.mp hmem with hmem | hmem
    · exact hx hmem
    · cases List.mem_singleton.mp hmem
  · exact Update.ensures_pure.mpr h'.toPlacesPropositions

theorem placeGroup_ensures (h : PlacesPropositions t related p₀ T₀ p T)
    (hreserved : T₀.HasReserved) (isNegated : Array Bool) {g : Mutex.Group}
    (hg : g.propositions.Pairwise related) :
    (placeGroup t isNegated p g).Ensures T fun p' T' =>
      PlacesPropositions t related p₀ T₀ p' T' := by
  unfold placeGroup
  split
  · exact placeBoolean_ensures h _
  · split
    · refine Update.ensures_foldlM (fun p' v _ T' h' => ?_) h
      unfold placeIfMissing
      split
      · exact placeBoolean_ensures h' v
      · exact Update.ensures_pure.mpr h'
    · exact placeTogether_ensures h hreserved hg

end Placing

/-! ## All places -/

/-- The places of all grounded variables, as far as the first fact of every proposition counts. -/
structure IsPlacement (isProposition : Array Bool) (p : Placement) (T : Task) : Prop where
  reserved : T.HasReserved
  finite : ∀ v var, p.finite? v = some var →
    var < T.vars.size ∧ Mutex.isMarked isProposition v = false
  finite_inj : ∀ v w var, p.finite? v = some var → p.finite? w = some var → v = w
  apart : ∀ v w f, p.fact? v = some f → p.finite? w ≠ some f.var
  fact : ∀ v f, p.fact? v = some f → f.var < T.vars.size ∧
    ((T.isBooleanAt f.var = true ∧ f.value = .truth) ∨
      (T.isBooleanAt f.var = false ∧ T.value? (t.varName v) = some f.value))
  alone : ∀ v w f g, p.fact? v = some f → p.fact? w = some g → f.var = g.var →
    T.isBooleanAt f.var = true → v = w

/-- A proposition is placed in a boolean variable if and only if its fact says truth. -/
theorem IsPlacement.isBooleanAt_iff {t : Grounded.Task} {isProposition : Array Bool}
    {p : Placement} {T : Task} (h : IsPlacement t isProposition p T) {v : VarId} {f : FactCode}
    (hf : p.fact? v = some f) : T.isBooleanAt f.var = true ↔ f.value = .truth := by
  rcases (h.fact v f hf).2 with ⟨hboolean, htruth⟩ | ⟨hshared, hnamed⟩
  · exact iff_of_true hboolean htruth
  · -- truth is no value of a variable that propositions share
    rw [hshared]
    exact iff_of_false Bool.false_ne_true (value_ne_of_varName t h.reserved hnamed).1

/-- Only the kinds of the variables that hold first facts count. -/
theorem IsPlacement.congr {t : Grounded.Task} {isProposition : Array Bool} {p : Placement}
    {T T' : Task} (h : IsPlacement t isProposition p T) (hvalues : T'.values = T.values)
    (hsize : T'.vars.size = T.vars.size)
    (hboolean : ∀ v f, p.fact? v = some f → T'.isBooleanAt f.var = T.isBooleanAt f.var) :
    IsPlacement t isProposition p T' := by
  have hvalue : ∀ name, T'.value? name = T.value? name := fun name => by
    rw [Task.value?, Task.value?, hvalues]
  refine ⟨h.reserved.mono fun name x hx => (hvalue name).trans hx, fun v var hv => ?_,
    h.finite_inj, h.apart, fun v f hf => ?_, fun v w f g hf hg hvar htrue => ?_⟩
  · rw [hsize]
    exact h.finite v var hv
  · rw [hsize, hboolean v f hf, hvalue]
    exact h.fact v f hf
  · rw [hboolean v f hf] at htrue
    exact h.alone v w f g hf hg hvar htrue

theorem mem_factsOf_of_fact? {p : Placement} {v : VarId} {f : FactCode} (h : p.fact? v = some f) :
    (p.factsOf v)[0]? = some f := by
  rw [← List.head?_eq_getElem?]
  exact h

/-- Once every proposition has its facts, its first one is its place. -/
theorem PlacesPropositions.isPlacement {t : Grounded.Task} {isProposition : Array Bool}
    {related : VarId → VarId → Prop} {p₀ p : Placement} {T₀ T : Task}
    (h₀ : PlacesObjects isProposition p₀ T₀) (h : PlacesPropositions t related p₀ T₀ p T) :
    IsPlacement t isProposition p T := by
  have hfinite : ∀ v, p.finite? v = p₀.finite? v := fun v => by
    rw [Placement.finite?, Placement.finite?, h.finite]
  have hfirst : ∀ {v f}, p.fact? v = some f → f ∈ p.factsOf v := fun hf =>
    List.mem_of_getElem? (mem_factsOf_of_fact? hf)
  refine ⟨h.grows.hasReserved h₀.reserved, fun v var hv => ?_, fun v w var hv hw => ?_,
    fun v w f hf hw => ?_, fun v f hf => ?_, fun v w f g hf hg hvar hboolean => ?_⟩
  · rw [hfinite] at hv
    obtain ⟨hlt, hmarked⟩ := h₀.finite v var hv
    exact ⟨Nat.lt_of_lt_of_le hlt h.grows.size, hmarked⟩
  · rw [hfinite] at hv hw
    exact h₀.finite_inj v w var hv hw
  · -- facts are in variables that have been created after those over objects
    rw [hfinite] at hw
    exact absurd (h₀.finite w f.var hw).1 (Nat.not_lt_of_le (h.later v f (hfirst hf)))
  · have hmeans := h.means v f (hfirst hf)
    refine ⟨hmeans.lt_size t, ?_⟩
    rcases hmeans with ⟨hvalue, hvar⟩ | ⟨hvalue, hvar⟩
    · exact Or.inl ⟨hvar.isBooleanAt, hvalue⟩
    · exact Or.inr ⟨hvar.isBooleanAt, hvalue⟩
  · refine (h.alone v w 0 0 f g (mem_factsOf_of_fact? hf) (mem_factsOf_of_fact? hg) hvar ?_).1
    rcases h.means v f (hfirst hf) with ⟨-, hvar⟩ | ⟨-, hvar⟩
    · exact hvar
    · rw [hvar.isBooleanAt] at hboolean
      cases hboolean

/-! ## Keeping the first place -/

theorem eq_or_mem_of_mem_replace {α : Type} [BEq α] {a b c : α} {l : List α}
    (h : c ∈ l.replace a b) : c = b ∨ c ∈ l := by
  induction l with
  | nil => cases h
  | cons d l ih =>
    rw [List.replace_cons] at h
    split at h
    · exact (List.mem_cons.mp h).imp_right (List.mem_cons_of_mem _)
    · rcases List.mem_cons.mp h with rfl | h
      · exact Or.inr List.mem_cons_self
      · exact (ih h).imp_right (List.mem_cons_of_mem _)

theorem mem_replace_of_ne {α : Type} [BEq α] [LawfulBEq α] {a b c : α} {l : List α} (h : c ∈ l)
    (hne : c ≠ a) : c ∈ l.replace a b := by
  induction l with
  | nil => cases h
  | cons d l ih =>
    rw [List.replace_cons]
    split
    next hd =>
      -- the element that is replaced is another one
      refine List.mem_cons_of_mem _ ((List.mem_cons.mp h).resolve_left fun hcd => hne ?_)
      rw [hcd, eq_of_beq hd]
    · rcases List.mem_cons.mp h with rfl | h
      · exact List.mem_cons_self
      · exact List.mem_cons_of_mem _ (ih h)

/-- Displacing a value leaves the others. -/
theorem mem_displace {x : Variable} {value displaced : ValueId} (h : value ∈ x.domain)
    (hne : value ≠ displaced) : value ∈ (x.displace displaced).domain := by
  unfold Variable.displace
  dsimp only
  split
  · exact (List.mem_erase_of_ne hne).mpr h
  · exact mem_replace_of_ne h hne

/-- Displacing a value does not make a variable false. -/
theorem falsity_not_mem_displace {x : Variable} (h : .falsity ∉ x.domain) (value : ValueId) :
    .falsity ∉ (x.displace value).domain := by
  unfold Variable.displace
  dsimp only
  split
  · exact fun hmem => h (List.mem_of_mem_erase hmem)
  · intro hmem
    rcases eq_or_mem_of_mem_replace hmem with hmem | hmem
    · cases hmem
    · exact h hmem

/-- The variables of first facts keep their kinds when later facts are displaced, as does any
variable that is never false, and they keep the values of these facts if related propositions have
different names. -/
structure KeepsFirst (related : VarId → VarId → Prop) (p : Placement) (T T' : Task) : Prop where
  values : T'.values = T.values
  size : T'.vars.size = T.vars.size
  actions : T'.actions = T.actions
  boolean : ∀ v f, p.fact? v = some f → T.HasBoolean f.var → T'.HasBoolean f.var
  shared : ∀ var, T.HasShared var → T'.HasShared var
  held : (∀ v w, related v w → t.varName v ≠ t.varName w) → ∀ v f, p.fact? v = some f →
    T'.HasValueAt f.var f.value

variable {t} {related : VarId → VarId → Prop} {p₀ p : Placement} {T₀ T T' : Task}

/-- A later fact has another value than a first fact in its variable. -/
theorem PlacesPropositions.value_ne (h : PlacesPropositions t related p₀ T₀ p T)
    (hnames : ∀ v w, related v w → t.varName v ≠ t.varName w) {v w : VarId} {j : Nat}
    {f g : FactCode} (hf : (p.factsOf v)[0]? = some f) (hg : (p.factsOf w)[1 + j]? = some g)
    (hvar : f.var = g.var) : f.value ≠ g.value := by
  have hmeans := h.means v f (List.mem_of_getElem? hf)
  have hmeans' := h.means w g (List.mem_of_getElem? hg)
  have hlater : 0 ≠ 1 + j := by omega
  rcases h.shared v w f (List.mem_of_getElem? hf) g (List.mem_of_getElem? hg) hvar with
    rfl | hrelated
  · exact absurd (h.apart v 0 (1 + j) f g hf hg hvar) hlater
  rcases hmeans with ⟨-, hboolean⟩ | ⟨hvalue, hshared⟩
  · exact absurd (h.alone v w 0 (1 + j) f g hf hg hvar hboolean).2 hlater
  rcases hmeans' with ⟨-, hboolean⟩ | ⟨hvalue', -⟩
  · exact absurd (hvar ▸ hboolean) hshared.not_hasBoolean
  · -- both values are named after their propositions
    intro heq
    rw [← heq] at hvalue'
    exact hnames v w hrelated (Task.value?_inj hvalue hvalue')

theorem KeepsFirst.displace (h : PlacesPropositions t related p₀ T₀ p T)
    (hkeeps : KeepsFirst t related p T T') {w : VarId} {g : FactCode}
    (hg : g ∈ (p.factsOf w).drop 1) :
    (modifyVariable g.var fun x => x.displace g.value).Ensures T' fun _ T'' =>
      KeepsFirst t related p T T'' := by
  obtain ⟨j, hj⟩ := List.mem_iff_getElem?.mp hg
  rw [List.getElem?_drop] at hj
  refine Update.ensures_modify.mpr ⟨hkeeps.values, Array.size_modify.trans hkeeps.size,
    hkeeps.actions, fun v f hf hboolean => ?_, fun var hshared => ?_, fun hnames v f hf => ?_⟩
  · -- a boolean variable has one fact only, so the displaced one is elsewhere
    have hne : g.var ≠ f.var := fun hvar => by
      have hposition : 0 = 1 + j :=
        (h.alone v w 0 (1 + j) f g (mem_factsOf_of_fact? hf) hj hvar.symm hboolean).2
      omega
    obtain ⟨x, hx, hdomain⟩ := hkeeps.boolean v f hf hboolean
    refine ⟨x, ?_, hdomain⟩
    show (T'.vars.modify _ _)[f.var]? = some x
    rw [Array.getElem?_modify, if_neg hne, hx]
  · obtain ⟨x, hx, hdomain⟩ := hkeeps.shared var hshared
    by_cases hvar : g.var = var
    · refine ⟨x.displace g.value, ?_, falsity_not_mem_displace hdomain _⟩
      show (T'.vars.modify _ _)[var]? = some _
      rw [Array.getElem?_modify, if_pos hvar, hx]
      rfl
    · refine ⟨x, ?_, hdomain⟩
      show (T'.vars.modify _ _)[var]? = some x
      rw [Array.getElem?_modify, if_neg hvar, hx]
  · obtain ⟨x, hx, hmem⟩ := hkeeps.held hnames v f hf
    by_cases hvar : g.var = f.var
    · have hne := h.value_ne hnames (mem_factsOf_of_fact? hf) hj hvar.symm
      refine ⟨x.displace g.value, ?_, mem_displace hmem hne⟩
      show (T'.vars.modify _ _)[f.var]? = some _
      rw [Array.getElem?_modify, if_pos hvar, hx]
      rfl
    · refine ⟨x, ?_, hmem⟩
      show (T'.vars.modify _ _)[f.var]? = some x
      rw [Array.getElem?_modify, if_neg hvar, hx]

theorem exists_factsOf_of_mem {facts : List FactCode} (h : facts ∈ p.facts.toList) :
    ∃ v, p.factsOf v = facts := by
  obtain ⟨i, hi⟩ := List.mem_iff_getElem?.mp h
  rw [Array.getElem?_toList] at hi
  refine ⟨⟨i⟩, ?_⟩
  rw [Placement.factsOf, Array.getD_eq_getD_getElem?, hi, Option.getD_some]

theorem fact?_take (v : VarId) :
    { p with facts := p.facts.map (List.take 1) }.fact? v = p.fact? v := by
  rw [Placement.fact?, Placement.fact?, Placement.factsOf, Placement.factsOf,
    Array.getD_eq_getD_getElem?, Array.getD_eq_getD_getElem?, Array.getElem?_map]
  cases p.facts[v.index]? with
  | none => rfl
  | some facts => cases facts <;> rfl

/-- Keeping the first place of every proposition keeps the kinds of these places. -/
theorem keepFirst_keeps (h : PlacesPropositions t related p₀ T₀ p T) :
    (keepFirst p).Ensures T fun p' T' =>
      KeepsFirst t related p T T' ∧ p' = { p with facts := p.facts.map (List.take 1) } := by
  have hkeeps : Update.Ensures (p.facts.toList.forM fun facts => (facts.drop 1).forM fun fact =>
      modifyVariable fact.var fun x => x.displace fact.value) T
      fun _ T' => KeepsFirst t related p T T' := by
    refine Update.ensures_forM (fun facts hfacts T' hT' => ?_)
      ⟨rfl, rfl, rfl, fun _ _ _ h => h, fun _ h => h, fun _ v f hf =>
        h.held v f (List.mem_of_mem_head? hf)⟩
    obtain ⟨w, rfl⟩ := exists_factsOf_of_mem hfacts
    exact Update.ensures_forM (fun g hg T'' hT'' => hT''.displace h hg) hT'
  exact Update.ensures_bind.mpr (hkeeps.mono fun _ T' hT' => Update.ensures_pure.mpr ⟨hT', rfl⟩)

/-- Keeping the first place of every proposition leaves a placement. -/
theorem keepFirst_ensures {isProposition : Array Bool} (h₀ : PlacesObjects isProposition p₀ T₀)
    (h : PlacesPropositions t related p₀ T₀ p T) :
    (keepFirst p).Ensures T fun p' T' => IsPlacement t isProposition p' T' ∧
      (∀ v, p'.fact? v = p.fact? v) ∧ KeepsFirst t related p T T' := by
  refine (keepFirst_keeps h).mono ?_
  rintro _ T' ⟨hT', rfl⟩
  refine ⟨?_, fact?_take, hT'⟩
  have hplacement : IsPlacement t isProposition p T' := by
    refine (h.isPlacement h₀).congr hT'.values hT'.size fun v f hf => ?_
    have hmeans := h.means v f (List.mem_of_getElem? (mem_factsOf_of_fact? hf))
    rcases hmeans with ⟨-, hvar⟩ | ⟨-, hvar⟩
    · rw [hvar.isBooleanAt, (hT'.boolean v f hf hvar).isBooleanAt]
    · rw [hvar.isBooleanAt, (hT'.shared f.var hvar).isBooleanAt]
  -- a proposition has the same first fact as before
  refine ⟨hplacement.reserved, hplacement.finite, hplacement.finite_inj, ?_, ?_, ?_⟩
  · intro v w f hf
    rw [fact?_take] at hf
    exact hplacement.apart v w f hf
  · intro v f hf
    rw [fact?_take] at hf
    exact hplacement.fact v f hf
  · intro v w f g hf hg
    rw [fact?_take] at hf hg
    exact hplacement.alone v w f g hf hg

/-- Propositions share a variable only if they are related. It has values for all of them if their
names are different. -/
structure SharesAmong (t : Grounded.Task) (related : VarId → VarId → Prop) (p : Placement)
    (T : Task) : Prop where
  shared : ∀ v w f g, p.fact? v = some f → p.fact? w = some g → f.var = g.var →
    v = w ∨ related v w
  held : (∀ v w, related v w → t.varName v ≠ t.varName w) → ∀ v f, p.fact? v = some f →
    T.HasValueAt f.var f.value

theorem PlacesPropositions.sharesAmong (h : PlacesPropositions t related p₀ T₀ p T) :
    SharesAmong t related p T :=
  ⟨fun v w f g hf hg => h.shared v w f (List.mem_of_mem_head? hf) g (List.mem_of_mem_head? hg),
    fun _ v f hf => h.held v f (List.mem_of_mem_head? hf)⟩

/-- Before any proposition is placed there are no facts. -/
theorem PlacesObjects.placesPropositions {isProposition : Array Bool}
    (h₀ : PlacesObjects isProposition p₀ T₀) : PlacesPropositions t related p₀ T₀ p₀ T₀ := by
  have hnone : ∀ {v f}, f ∈ p₀.factsOf v → False := fun hf => by
    rw [h₀.noFacts] at hf
    cases hf
  exact ⟨.refl T₀, rfl, fun _ _ hf => (hnone hf).elim, fun _ _ hf => (hnone hf).elim,
    fun _ _ hf => (hnone hf).elim, fun _ _ _ _ _ hf => (hnone (List.mem_of_getElem? hf)).elim,
    fun _ _ _ _ _ _ hf => (hnone (List.mem_of_getElem? hf)).elim,
    fun _ _ _ hf => (hnone hf).elim⟩

/-- **All grounded variables are placed** as `IsPlacement` says, mutex propositions share variables,
and there are no actions yet. -/
theorem place_ensures (t : Grounded.Task) (o : Options) {isProposition : Array Bool}
    {mutex : Mutex.Relation} (hmutex : mutex.IsOver isProposition)
    (actions : List Grounded.Action) :
    (place t o isProposition mutex actions).Ensures .empty fun p T =>
      IsPlacement t isProposition p T ∧ SharesAmong t mutex.Lists p T ∧ T.actions = #[] := by
  have : Std.Irrefl mutex.Lists := hmutex.irrefl_lists
  -- first the variables that are no propositions
  have hobjects : Update.Ensures (t.vars.toList.foldlM (placeVariable t isProposition)
      (.empty t.vars.size)) .empty fun p T => PlacesObjects isProposition p T :=
    Update.ensures_foldlM (fun p v _ T h => placeVariable_placesObjects t h v)
      (placesObjects_empty isProposition _)
  refine Update.ensures_bind.mpr (hobjects.mono fun p₀ T₀ h₀ => ?_)
  have hstart : PlacesPropositions t mutex.Lists p₀ T₀ p₀ T₀ := h₀.placesPropositions
  -- then the propositions, one by one or in groups
  split
  · refine (Update.ensures_foldlM (I := fun p T => PlacesPropositions t mutex.Lists p₀ T₀ p T)
      (fun p v _ T h => placeBoolean_ensures h v) hstart).mono ?_
    exact fun p T h => ⟨h.isPlacement h₀, h.sharesAmong, h.grows.actions.trans h₀.actions⟩
  · have hgroups := isGrouping_mutexGroups isProposition mutex o.grouping
    refine Update.ensures_bind.mpr ((Update.ensures_foldlM
      (I := fun p T => PlacesPropositions t mutex.Lists p₀ T₀ p T) (fun p g hg T h =>
        placeGroup_ensures h h₀.reserved _ (hgroups.related g hg)) hstart).mono fun p T h => ?_)
    refine (keepFirst_ensures h₀ h).mono fun p' T' ⟨h', hfirst, hkeeps⟩ => ⟨h', ⟨?_, ?_⟩, ?_⟩
    · intro v w f g hf hg
      rw [hfirst] at hf hg
      exact h.sharesAmong.shared v w f g hf hg
    · intro hnames v f hf
      rw [hfirst] at hf
      exact hkeeps.held hnames v f hf
    · exact hkeeps.actions.trans (h.grows.actions.trans h₀.actions)

end TemporalPlanning.Encoding
