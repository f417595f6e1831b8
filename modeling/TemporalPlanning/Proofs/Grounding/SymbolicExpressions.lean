import TemporalPlanning.Proofs.Grounding.Symbolic
/-!
Numeric expressions and comparisons, with the parameters of quantifiers left symbolic.

An expression over numeric functions has the value of the original one once its symbolic leaves are
resolved. Comparisons are sorted while they are grounded: an equation or inequality of a function
that is not numeric with a term is about the value of a variable, one of two terms is decided by the
objects that they denote, and all others compare numbers.
-/
set_option autoImplicit false

namespace TemporalPlanning.Grounding

open Grounded

/-! ## Numeric expressions -/

section Expressions

variable {task : Lifted.Task} {context : String} {bound : Nat}

theorem check_of_mem_expressions {es : List (Expression Lifted.Quantity)}
    (h : task.checkExpressions context bound es = .ok ()) :
    ∀ e ∈ es, task.checkExpression context bound e = .ok () := by
  induction es with
  | nil =>
    intro e he
    cases he
  | cons e es ih =>
    rw [Lifted.Task.checkExpressions] at h
    obtain ⟨he, hes⟩ := check_bind_eq_ok.mp h
    exact List.forall_mem_cons.mpr ⟨he, ih hes⟩

/-- The leaves of a valid expression are valid. -/
theorem check_of_mem_atoms {e : Expression Lifted.Quantity}
    (h : task.checkExpression context bound e = .ok ()) :
    ∀ q ∈ e.atoms, task.checkQuantity context bound q = .ok () := by
  induction e using Expression.operandsInduction with
  | atom q =>
    rw [Lifted.Task.checkExpression] at h
    exact Expression.forall_mem_atoms_atom.mpr h
  | node op es ih =>
    rw [Lifted.Task.checkExpression] at h
    intro q hq
    obtain ⟨e, he, hq⟩ := Expression.mem_atoms_node.mp hq
    exact ih e he (check_of_mem_expressions (check_bind_eq_ok.mp h).2 e he) q hq

variable (task context) in
/-- A leaf is valid under as many objects, and it reads no variable that does not exist. -/
def IsReadable (vars : VariableTable) (objects : List ObjectId) (q : Lifted.Quantity) : Prop :=
  task.checkQuantity context objects.length q = .ok () ∧ q.HasVariable task vars objects

variable (task context) in
/-- A leaf of an expression resolves to one with the same number, for all objects of quantifiers
under which it is readable. -/
def RendersQuantity (arguments : List ObjectId) (s : State) (q : Lifted.Quantity)
    (q' : PartialQuantity) : Prop :=
  ∀ bindings, IsReadable task context s.vars (arguments ++ bindings) q →
    ∃ q'', (resolveQuantity s.vars bindings q').run = .ok (some q'') ∧ q''.IsPlain ∧
      ∀ y : Grounded.Situation Float, q''.valueIn y =
        q.numberIn task (s.vars.situation task y) (arguments ++ bindings)

variable (task context) in
/-- An expression resolves to one with the same value, for all objects of quantifiers under which
its leaves are readable. -/
def RendersExpression (arguments : List ObjectId) (s : State) (e : Expression Lifted.Quantity)
    (e' : Expression PartialQuantity) : Prop :=
  ∀ bindings, (∀ q ∈ e.atoms, IsReadable task context s.vars (arguments ++ bindings) q) →
    ∃ e'', (e'.mapM (resolveQuantity s.vars bindings)).run = .ok (some e'') ∧
      (∀ q ∈ e''.atoms, q.IsPlain) ∧ ∀ y : Grounded.Situation Float, valueInGoal y e'' =
        e.value? (Lifted.Quantity.numberIn task (s.vars.situation task y) (arguments ++ bindings))

variable {arguments : List ObjectId} {s : State}

/-- A numeric function is no predicate, so it needs a variable. -/
theorem exists_var_of_isNumeric {vars : VariableTable} {objects : List ObjectId}
    {l : Lifted.Literal} (hl : task.isNumeric l.function = true)
    (h : l.HasVariable task vars objects) :
    ∃ v, vars.var? l.function (l.arguments.map (denote objects)) = some v := by
  refine h.resolve_left fun hpredicate => ?_
  rw [Lifted.Task.isNumeric, beq_iff_eq.mp hpredicate] at hl
  cases hl

variable (context) in
theorem partialQuantity_establishes {q : Lifted.Quantity} (hq : q.IsNumeric task) (s : State) :
    (partialQuantity task arguments q).Establishes task s fun s' q' =>
      RendersQuantity task context arguments s' q q' := by
  cases q with
  | number x =>
    exact Step.establishes_pure fun s' _ bindings _ => ⟨.number x, rfl, trivial, fun _ => rfl⟩
  | term t =>
    refine Step.establishes_pure fun s' _ bindings hready =>
      ⟨.term (.object (denote (arguments ++ bindings) t)), ?_, trivial, fun _ => rfl⟩
    rw [resolveQuantity, resolve_partialTerm (isBound_of_check hready.1)]
    rfl
  | fluent l =>
    have hl : task.isNumeric l.function = true := hq
    rw [partialQuantity]
    split
    next objects hobjects =>
      refine (variableOf_establishes _ _ s).bind fun v s₁ => Step.establishes_pure ?_
      intro s' _ hv bindings _
      refine ⟨.var v, rfl, trivial, fun y => ?_⟩
      rw [Lifted.Quantity.numberIn, if_pos hl, Lifted.Literal.applied,
        denote_of_partialTerms hobjects, (situation_of_var? (find?_eq_some_of_names hv)).2]
      rfl
    next =>
      refine Step.establishes_pure fun s' htyped bindings hready => ?_
      have hterms := isBound_of_checkLiteral hready.1
      obtain ⟨v, hv⟩ := exists_var_of_isNumeric hl hready.2
      obtain ⟨entry, hentry, hf, -⟩ := names_of_find? hv
      have hnumeric : entry.isNumeric = true := by rw [htyped _ _ hentry, hf, hl]
      refine ⟨.var v, ?_, trivial, fun y => ?_⟩
      · rw [resolveQuantity]
        refine residue_bind_eq_some.mpr ⟨_, by rw [resolve_partialTerms hterms]; rfl, ?_⟩
        refine residue_bind_eq_some.mpr ⟨v, by rw [hv]; rfl, ?_⟩
        rw [hentry]
        dsimp only
        rw [if_pos hnumeric]
        rfl
      · rw [Lifted.Quantity.numberIn, if_pos hl, Lifted.Literal.applied, (situation_of_var? hv).2]
        rfl
  | duration => exact hq.elim
  | elapsed => exact hq.elim

/-- Expressions that are resolved one by one have the values of the original ones. -/
theorem exists_expressions_of_renders {es : List (Expression Lifted.Quantity)}
    {es' : List (Expression PartialQuantity)}
    (h : List.Forall₂ (RendersExpression task context arguments s) es es')
    {bindings : List ObjectId} (hready : ∀ e ∈ es, ∀ q ∈ e.atoms,
      IsReadable task context s.vars (arguments ++ bindings) q) :
    ∃ es'', (es'.mapM (Expression.mapM (resolveQuantity s.vars bindings))).run = .ok (some es'') ∧
      (∀ e ∈ es'', ∀ q ∈ e.atoms, q.IsPlain) ∧ ∀ y : Grounded.Situation Float,
        List.Forall₂ (fun e e'' => valueInGoal y e'' = e.value?
          (Lifted.Quantity.numberIn task (s.vars.situation task y) (arguments ++ bindings)))
          es es'' := by
  induction h with
  | nil => exact ⟨[], rfl, fun e he => (by cases he), fun y => .nil⟩
  | cons hhead _ ih =>
    obtain ⟨hfirst, hrest⟩ := List.forall_mem_cons.mp hready
    obtain ⟨e'', he, hplain, hvalue⟩ := hhead bindings hfirst
    obtain ⟨es'', hes, hplains, hvalues⟩ := ih hrest
    refine ⟨e'' :: es'', ?_, List.forall_mem_cons.mpr ⟨hplain, hplains⟩, fun y =>
      .cons (hvalue y) (hvalues y)⟩
    rw [List.mapM_cons]
    exact residue_bind_eq_some.mpr ⟨e'', he, residue_bind_eq_some.mpr ⟨es'', hes, rfl⟩⟩

variable (context) in
theorem partialExpression_establishes {e : Expression Lifted.Quantity}
    (he : ∀ q ∈ e.atoms, q.IsNumeric task) (s : State) :
    Step.Establishes (e.mapM (partialQuantity task arguments)) task s fun s' e' =>
      RendersExpression task context arguments s' e e' := by
  induction e using Expression.operandsInduction generalizing s with
  | atom q =>
    rw [Expression.mapM_atom]
    refine (partialQuantity_establishes context (Expression.forall_mem_atoms_atom.mp he) s).map
      fun s' q' hq bindings hready => ?_
    obtain ⟨q'', hrun, hplain, hvalue⟩ := hq bindings (Expression.forall_mem_atoms_atom.mp hready)
    refine ⟨.atom q'', ?_, Expression.forall_mem_atoms_atom.mpr hplain, fun y => hvalue y⟩
    rw [Expression.mapM_atom, map_eq_pure_bind]
    exact residue_bind_eq_some.mpr ⟨q'', hrun, rfl⟩
  | node op es ih =>
    rw [Expression.mapM_node]
    have hatoms : ∀ e ∈ es, ∀ q ∈ e.atoms, q.IsNumeric task := fun e hmem q hq =>
      he q (Expression.mem_atoms_node.mpr ⟨e, hmem, hq⟩)
    refine (Step.establishes_mapM (fun e hmem s => ih e hmem (hatoms e hmem) s) s).bind
      fun es' s' => Step.establishes_pure fun s'' _ hes bindings hready => ?_
    obtain ⟨es'', hrun, hplain, hvalues⟩ := exists_expressions_of_renders hes
      (fun e hmem q hq => hready q (Expression.mem_atoms_node.mpr ⟨e, hmem, hq⟩))
    refine ⟨.node op es'', ?_, fun q hq => ?_, fun y => ?_⟩
    · rw [Expression.mapM_node]
      exact residue_bind_eq_some.mpr ⟨es'', hrun, rfl⟩
    · obtain ⟨e, hmem, hq⟩ := Expression.mem_atoms_node.mp hq
      exact hplain e hmem q hq
    · exact Expression.value?_node_congr op (hvalues y)

end Expressions

/-! ## Comparisons -/

section Comparisons

variable {task : Lifted.Task} {context : String} {arguments : List ObjectId}
  {comparator : Comparator} {left right : Expression Lifted.Quantity}

theorem instantiateCompare_resolves {vars : VariableTable} {bindings : List ObjectId}
    {terms terms' : List (Expression PartialQuantity)}
    (hrun : (terms.mapM (Expression.mapM (resolveQuantity vars bindings))).run = .ok (some terms'))
    (hplain : ∀ e ∈ terms', ∀ q ∈ e.atoms, q.IsPlain) :
    Resolves (instantiateCompare vars bindings comparator terms) fun x time =>
      comparator.decide? (terms'.map (valueInGoal (x time))) = some true := by
  refine resolves_bind hrun ?_
  split
  next h => cases h
  next l r h =>
    cases h
    exact ⟨_, rfl, Goal.expresses_constant fun x time => Option.some_inj⟩
  next terms'' _ h =>
    cases h
    refine ⟨_, rfl, ?_, fun x time => ?_⟩
    · rw [Goal.IsPlain]
      exact hplain
    · rw [Goal.Holds]

/-- An expression of numeric functions that denotes an object is a term. -/
theorem exists_term_of_objectIn {y : Lifted.Situation} {objects : List ObjectId}
    {e : Expression Lifted.Quantity} {o : ObjectId} (he : ∀ q ∈ e.atoms, q.IsNumeric task)
    (h : Lifted.objectIn task y objects e = some o) : ∃ t, e = .atom (.term t) := by
  unfold Lifted.objectIn at h
  split at h
  next t => exact ⟨t, rfl⟩
  next l =>
    have hl : task.isNumeric l.function = true := he _ (Expression.mem_atoms_atom.mpr rfl)
    rw [if_pos hl] at h
    cases h
  · cases h

/-- Comparisons of numbers compare no objects, unless both sides are terms. -/
theorem compares_iff_of_isNumeric {y : Lifted.Situation} {objects : List ObjectId}
    (hleft : ∀ q ∈ left.atoms, q.IsNumeric task) (hright : ∀ q ∈ right.atoms, q.IsNumeric task)
    (hterms : ∀ l r, left = .atom (.term l) → right = .atom (.term r) →
      comparator ≠ .eq ∧ comparator ≠ .neq) :
    Lifted.Compares task y objects comparator left right ↔
      comparator.decide?
        [left.value? (Lifted.Quantity.numberIn task y objects),
          right.value? (Lifted.Quantity.numberIn task y objects)] = some true := by
  refine or_iff_left ?_
  rintro ⟨l, r, hl, hr, hcomparator⟩
  obtain ⟨t, ht⟩ := exists_term_of_objectIn hleft hl
  obtain ⟨t', ht'⟩ := exists_term_of_objectIn hright hr
  obtain ⟨heq, hneq⟩ := hterms t t' ht ht'
  rcases hcomparator with ⟨h, -⟩ | ⟨h, -⟩
  · exact heq h
  · exact hneq h

variable (task context comparator left right) in
/-- Both sides of a comparison are valid, and the variables that they read exist. -/
def AreReadable (vars : VariableTable) (objects : List ObjectId) : Prop :=
  task.checkExpression context objects.length left = .ok () ∧
    task.checkExpression context objects.length right = .ok () ∧
    ∀ q ∈ left.atoms ++ right.atoms, q.HasVariable task vars objects

variable (context) in
theorem numericGoal_establishes (hleft : ∀ q ∈ left.atoms, q.IsNumeric task)
    (hright : ∀ q ∈ right.atoms, q.IsNumeric task)
    (hterms : ∀ l r, left = .atom (.term l) → right = .atom (.term r) →
      comparator ≠ .eq ∧ comparator ≠ .neq) (s : State) :
    Step.Establishes (do
      let left ← left.mapM (partialQuantity task arguments)
      let right ← right.mapM (partialQuantity task arguments)
      return Goal.compare comparator [left, right]) task s
      (Renders task arguments (AreReadable task context left right) fun x time objects =>
        Lifted.Compares task (x time) objects comparator left right) := by
  refine (partialExpression_establishes context hleft s).bind fun left' s₁ => ?_
  refine (partialExpression_establishes context hright s₁).bind fun right' s₂ => ?_
  refine Step.establishes_pure fun s' _ hright' hleft' bindings hready => ?_
  obtain ⟨hl, hr, hvariables⟩ := hready
  have hreadable : ∀ e ∈ [left, right], ∀ q ∈ e.atoms,
      IsReadable task context s'.vars (arguments ++ bindings) q := by
    refine List.forall_mem_cons.mpr ⟨fun q hq => ?_, List.forall_mem_singleton.mpr fun q hq => ?_⟩
    · exact ⟨check_of_mem_atoms hl q hq, hvariables q (List.mem_append_left _ hq)⟩
    · exact ⟨check_of_mem_atoms hr q hq, hvariables q (List.mem_append_right _ hq)⟩
  obtain ⟨terms, hrun, hplain, hvalues⟩ := exists_expressions_of_renders
    (.cons hleft' (.cons hright' .nil)) hreadable
  rw [instantiate]
  refine (instantiateCompare_resolves hrun hplain).congr fun x time => ?_
  rw [map_eq_map_of_forall₂ (hvalues (x time))]
  exact (compares_iff_of_isNumeric hleft hright hterms).symm

section Objects

variable {y : Lifted.Situation} {objects : List ObjectId}

/-- What an equation or inequality says of two objects. -/
theorem compares_objects_iff {o o' : ObjectId} (h : comparator = .eq ∨ comparator = .neq) :
    (comparator = .eq ∧ o = o' ∨ comparator = .neq ∧ o ≠ o') ↔
      (o = o' ↔ (comparator == .eq) = true) := by
  rcases h with rfl | rfl <;> simp

theorem compares_terms_iff {l r : Lifted.Term} (h : comparator = .eq ∨ comparator = .neq) :
    Lifted.Compares task y objects comparator (.atom (.term l)) (.atom (.term r)) ↔
      (denote objects l = denote objects r ↔ (comparator == .eq) = true) := by
  rw [← compares_objects_iff h]
  simp [Lifted.Compares, Lifted.objectIn, Lifted.Quantity.numberIn, Comparator.decide?]

theorem compares_fluent_term_iff {l : Lifted.Literal} {t : Lifted.Term}
    (h : comparator = .eq ∨ comparator = .neq) (hl : task.isNumeric l.function = false) :
    Lifted.Compares task y objects comparator (.atom (.fluent l)) (.atom (.term t)) ↔
      FluentHolds y objects l t (comparator == .eq) := by
  unfold FluentHolds
  simp only [← compares_objects_iff h]
  simp [Lifted.Compares, Lifted.objectIn, Lifted.Quantity.numberIn, Comparator.decide?, hl]

/-- The sides of an equation or inequality of objects may be exchanged. -/
theorem compares_term_fluent_iff {l : Lifted.Literal} {t : Lifted.Term}
    (h : comparator = .eq ∨ comparator = .neq) (hl : task.isNumeric l.function = false) :
    Lifted.Compares task y objects comparator (.atom (.term t)) (.atom (.fluent l)) ↔
      FluentHolds y objects l t (comparator == .eq) := by
  rw [← compares_fluent_term_iff h hl]
  simp [Lifted.Compares, Lifted.objectIn, Lifted.Quantity.numberIn, Comparator.decide?, hl,
    eq_comm]

end Objects

theorem equality_renders {l r : Lifted.Term} {equal : Bool} (s : State) :
    Renders task arguments
      (fun _ objects => IsBound objects.length l ∧ IsBound objects.length r)
      (fun _ _ objects => denote objects l = denote objects r ↔ equal = true) s
      (.equality equal (partialTerm arguments l) (partialTerm arguments r)) := by
  rintro bindings ⟨hl, hr⟩
  rw [instantiate]
  refine resolves_bind (resolve_partialTerm hl) (resolves_bind (resolve_partialTerm hr) ?_)
  refine ⟨_, rfl, Goal.expresses_constant fun x time => ?_⟩
  cases equal <;> simp

theorem compareGoal_of_fluent_term {l : Lifted.Literal} {t : Lifted.Term}
    (h : comparator = .eq ∨ comparator = .neq) (hl : task.isNumeric l.function = false) :
    compareGoal task arguments comparator (.atom (.fluent l)) (.atom (.term t)) =
      fluentGoal task arguments l t (comparator == .eq) := by
  rcases h with rfl | rfl <;> simp [compareGoal, hl]

theorem compareGoal_of_term_fluent {l : Lifted.Literal} {t : Lifted.Term}
    (h : comparator = .eq ∨ comparator = .neq) (hl : task.isNumeric l.function = false) :
    compareGoal task arguments comparator (.atom (.term t)) (.atom (.fluent l)) =
      fluentGoal task arguments l t (comparator == .eq) := by
  rcases h with rfl | rfl <;> simp [compareGoal, hl]

/-- Valid atoms that read no variable that does not exist. -/
theorem AreReadable.of_atoms {q q' : Lifted.Quantity} {vars : VariableTable}
    {objects : List ObjectId} (h : AreReadable task context (.atom q) (.atom q') vars objects) :
    IsReadable task context vars objects q ∧ IsReadable task context vars objects q' := by
  obtain ⟨hq, hq', hvariables⟩ := h
  have hmem : ∀ q : Lifted.Quantity, q ∈ (Expression.atom q).atoms := fun q =>
    Expression.mem_atoms_atom.mpr rfl
  exact ⟨⟨check_of_mem_atoms hq q (hmem q), hvariables q (List.mem_append_left _ (hmem q))⟩,
    check_of_mem_atoms hq' q' (hmem q'), hvariables q' (List.mem_append_right _ (hmem q'))⟩

variable (context) in
/-- **Comparisons keep their meaning**, whether they become equations of objects or remain
comparisons of numbers. -/
theorem compareGoal_establishes
    (hkinds : (Lifted.Goal.compare comparator left right).RespectsKinds task) (s : State) :
    (compareGoal task arguments comparator left right).Establishes task s
      (Renders task arguments (AreReadable task context left right) fun x time objects =>
        Lifted.Compares task (x time) objects comparator left right) := by
  rw [Lifted.Goal.RespectsKinds] at hkinds
  rcases hkinds with hobjects | hnumeric
  · unfold Lifted.ComparesObjects at hobjects
    split at hobjects
    next l t =>
      obtain ⟨hcomparator, hl⟩ := hobjects
      rw [compareGoal_of_fluent_term hcomparator hl]
      refine (fluentGoal_establishes l t _ s).mono fun s' g hg => hg.congr ?_ ?_
      · intro vars objects hready
        obtain ⟨hl', ht⟩ := hready.of_atoms
        exact ⟨isBound_of_checkLiteral hl'.1, isBound_of_check ht.1, hl'.2⟩
      · exact fun x time objects => (compares_fluent_term_iff hcomparator hl).symm
    next t l =>
      obtain ⟨hcomparator, hl⟩ := hobjects
      rw [compareGoal_of_term_fluent hcomparator hl]
      refine (fluentGoal_establishes l t _ s).mono fun s' g hg => hg.congr ?_ ?_
      · intro vars objects hready
        obtain ⟨ht, hl'⟩ := hready.of_atoms
        exact ⟨isBound_of_checkLiteral hl'.1, isBound_of_check ht.1, hl'.2⟩
      · exact fun x time objects => (compares_term_fluent_iff hcomparator hl).symm
    · exact hobjects.elim
  · have hleft : ∀ q ∈ left.atoms, q.IsNumeric task := fun q hq =>
      hnumeric q (List.mem_append_left _ hq)
    have hright : ∀ q ∈ right.atoms, q.IsNumeric task := fun q hq =>
      hnumeric q (List.mem_append_right _ hq)
    have hgoal := fun hterms => @numericGoal_establishes task context arguments comparator left right
      hleft hright hterms s
    unfold compareGoal
    dsimp only
    split
    next hne => exact hgoal fun _ _ _ _ => by simpa using hne
    next heq =>
      have hcomparator : comparator = .eq ∨ comparator = .neq := by
        simpa [or_iff_not_imp_left] using heq
      split
      next l t =>
        have hl : task.isNumeric l.function = true := hleft _ (Expression.mem_atoms_atom.mpr rfl)
        rw [if_pos hl]
        exact hgoal fun _ _ h => by cases h
      next t l =>
        have hl : task.isNumeric l.function = true := hright _ (Expression.mem_atoms_atom.mpr rfl)
        rw [if_pos hl]
        exact hgoal fun _ _ _ h => by cases h
      next l r =>
        refine Step.establishes_pure fun s' _ => (equality_renders s').congr ?_ ?_
        · exact fun vars objects hready =>
            ⟨isBound_of_check hready.of_atoms.1.1, isBound_of_check hready.of_atoms.2.1⟩
        · exact fun x time objects => (compares_terms_iff hcomparator).symm
      next hnot => exact hgoal fun l r hl hr => (hnot l r hl hr).elim

end Comparisons

end TemporalPlanning.Grounding
