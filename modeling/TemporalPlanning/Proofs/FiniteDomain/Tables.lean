import Mathlib.Data.List.Forall2
import TemporalPlanning.Proofs.FiniteDomain.Updates
/-!
The tables of values and variables of a finite-domain task.

Encoding first creates all values and variables and then fills in the rest. From then on the value
table stays as it is, and domains only change in ways that leave boolean variables boolean and the
others not. `SameTables` is what the rest of the encoding keeps, and `KeepsTables` adds that it
takes no value out of a domain.
-/
set_option autoImplicit false

namespace TemporalPlanning.FiniteDomain

namespace Task

/-- Whether there is a boolean variable at a position. -/
def isBooleanAt (t : Task) (var : Nat) : Bool := t.vars[var]?.any Variable.isBoolean

/-- A variable has a value in its domain. -/
def HasValueAt (t : Task) (var : Nat) (value : ValueId) : Prop :=
  ∃ x, t.vars[var]? = some x ∧ value ∈ x.domain

/-- The reserved values are the ones with the reserved names. -/
structure HasReserved (t : Task) : Prop where
  truth : t.value? "<true>" = some .truth
  falsity : t.value? "<false>" = some .falsity
  undefined : t.value? "<undefined>" = some .undefined

/-- Reserved values remain as long as no name loses its value. -/
theorem HasReserved.mono {t t' : Task} (h : t.HasReserved)
    (hvalues : ∀ name x, t.value? name = some x → t'.value? name = some x) : t'.HasReserved :=
  ⟨hvalues _ _ h.truth, hvalues _ _ h.falsity, hvalues _ _ h.undefined⟩

theorem hasReserved_empty : Task.empty.HasReserved :=
  ⟨by decide +kernel, by decide +kernel, by decide +kernel⟩

/-- A value has one name. -/
theorem value?_inj {t : Task} {n m : String} {x : ValueId} (hn : t.value? n = some x)
    (hm : t.value? m = some x) : n = m := by
  obtain ⟨i, hi, rfl⟩ := Option.map_eq_some_iff.mp hn
  obtain ⟨j, hj, hij⟩ := Option.map_eq_some_iff.mp hm
  cases hij
  have hi := (t.values.find?_eq_some_iff n i).mp hi
  have hj := (t.values.find?_eq_some_iff m i).mp hj
  rw [hi] at hj
  exact Option.some.inj hj

/-- Two tasks have the same values, and the same boolean variables among equally many. -/
structure SameTables (t t' : Task) : Prop where
  values : t'.values = t.values
  size : t'.vars.size = t.vars.size
  boolean : ∀ var, t'.isBooleanAt var = t.isBooleanAt var

namespace SameTables

variable {t t' t'' : Task}

theorem refl (t : Task) : t.SameTables t := ⟨rfl, rfl, fun _ => rfl⟩

theorem trans (h : t.SameTables t') (h' : t'.SameTables t'') : t.SameTables t'' :=
  ⟨h'.values.trans h.values, h'.size.trans h.size,
    fun var => (h'.boolean var).trans (h.boolean var)⟩

theorem symm (h : t.SameTables t') : t'.SameTables t :=
  ⟨h.values.symm, h.size.symm, fun var => (h.boolean var).symm⟩

theorem value?_eq (h : t.SameTables t') (name : String) : t'.value? name = t.value? name := by
  rw [value?, value?, h.values]

end SameTables

/-- The tables are the same, and domains lose nothing. -/
structure KeepsTables (t t' : Task) : Prop extends t.SameTables t' where
  held : ∀ var value, t.HasValueAt var value → t'.HasValueAt var value

theorem KeepsTables.refl (t : Task) : t.KeepsTables t := ⟨.refl t, fun _ _ h => h⟩

theorem KeepsTables.trans {t t' t'' : Task} (h : t.KeepsTables t') (h' : t'.KeepsTables t'') :
    t.KeepsTables t'' :=
  ⟨h.toSameTables.trans h'.toSameTables,
    fun var value hvalue => h'.held var value (h.held var value hvalue)⟩

/-- Whatever else changes does not matter. -/
theorem KeepsTables.of_eq {t t' : Task} (hvalues : t'.values = t.values)
    (hvars : t'.vars = t.vars) : t.KeepsTables t' := by
  refine ⟨⟨hvalues, ?_, fun var => ?_⟩, fun var value h => ?_⟩
  · rw [hvars]
  · rw [isBooleanAt, isBooleanAt, hvars]
  · rwa [HasValueAt, hvars]

/-- Besides keeping its tables, a task has the same actions as before. -/
structure SameActions (t t' : Task) : Prop extends t.KeepsTables t' where
  actions : t'.actions = t.actions

theorem SameActions.refl (t : Task) : t.SameActions t := ⟨.refl t, rfl⟩

/-- Whatever else changes, actions and tables may stay as they are. -/
theorem SameActions.of_eq {t t' : Task} (hvalues : t'.values = t.values) (hvars : t'.vars = t.vars)
    (hactions : t'.actions = t.actions) : t.SameActions t' := ⟨.of_eq hvalues hvars, hactions⟩

theorem SameActions.trans {t t' t'' : Task} (h : t.SameActions t') (h' : t'.SameActions t'') :
    t.SameActions t'' :=
  ⟨h.toKeepsTables.trans h'.toKeepsTables, h'.actions.trans h.actions⟩

end Task

/-! ## Domains -/

namespace Variable

/-- Two variables are both boolean or both not, and the second one has the values of the first. -/
structure SameKind (v v' : Variable) : Prop where
  isBoolean_eq : v'.isBoolean = v.isBoolean
  domain : ∀ value ∈ v.domain, value ∈ v'.domain

theorem SameKind.refl (v : Variable) : v.SameKind v := ⟨rfl, fun _ h => h⟩

theorem SameKind.trans {v v' v'' : Variable} (h : v.SameKind v') (h' : v'.SameKind v'') :
    v.SameKind v'' :=
  ⟨h'.isBoolean_eq.trans h.isBoolean_eq,
    fun value hvalue => h'.domain value (h.domain value hvalue)⟩

/-- A boolean variable can be false. -/
theorem isBoolean_of_not_mem {v : Variable} (h : ValueId.falsity ∉ v.domain) :
    v.isBoolean = false := by
  rw [isBoolean, beq_eq_false_iff_ne]
  intro hdomain
  rw [hdomain] at h
  exact h List.mem_cons_self

/-- A variable that is not boolean does not become so by a further value. -/
theorem allowUndefined_sameKind {v : Variable} (h : v.isBoolean = false) :
    v.SameKind v.allowUndefined := by
  unfold allowUndefined
  split
  · exact .refl v
  · refine ⟨?_, fun value hvalue => List.mem_append_left _ hvalue⟩
    -- the last value of a boolean variable is truth
    rw [h, isBoolean, beq_eq_false_iff_ne]
    intro hdomain
    have hlast := congrArg List.getLast? hdomain
    rw [addValue, List.getLast?_concat] at hlast
    cases hlast

@[simp]
theorem initialValues_allowUndefined (v : Variable) :
    v.allowUndefined.initialValues = v.initialValues := by
  unfold allowUndefined
  split <;> rfl

/-- Entering an initial value leaves the domain as it is. -/
theorem addInitialValue_sameKind {v v' : Variable} {value : ValueId} {holds : Bool} {time : Float}
    (h : v.addInitialValue value holds time = .ok v') : v.SameKind v' := by
  dsimp only [addInitialValue] at h
  cases hhas : v.hasValue value
  · rw [hhas] at h
    cases h
  · rw [hhas] at h
    cases holds
    · cases hopposite : v.opposite value with
      | error e =>
        rw [hopposite] at h
        cases h
      | ok w =>
        rw [hopposite] at h
        cases h
        exact ⟨rfl, fun _ hvalue => hvalue⟩
    · cases h
      exact ⟨rfl, fun _ hvalue => hvalue⟩

end Variable

/-! ## Changing variables -/

/-- A change that keeps the kind of one variable keeps that of all. -/
theorem isBooleanAt_modify (t : Task) (var : Nat) (f : Variable → Variable)
    (h : ∀ v, t.vars[var]? = some v → v.SameKind (f v)) (i : Nat) :
    { t with vars := t.vars.modify var f }.isBooleanAt i = t.isBooleanAt i := by
  unfold Task.isBooleanAt
  rw [Array.getElem?_modify]
  split
  next heq =>
    subst heq
    cases hv : t.vars[var]? with
    | none => rfl
    | some v => exact (h v hv).isBoolean_eq
  · rfl

/-- Values are only added to domains. -/
theorem hasValueAt_modify {t t' : Task} {var : Nat} {f : Variable → Variable}
    (hvars : t'.vars = t.vars.modify var f)
    (h : ∀ v, t.vars[var]? = some v → ∀ value ∈ v.domain, value ∈ (f v).domain) {i : Nat}
    {value : ValueId} (hvalue : t.HasValueAt i value) : t'.HasValueAt i value := by
  obtain ⟨x, hx, hmem⟩ := hvalue
  unfold Task.HasValueAt
  rw [hvars, Array.getElem?_modify]
  split
  next heq =>
    subst heq
    exact ⟨f x, by rw [hx]; rfl, h x hx value hmem⟩
  · exact ⟨x, hx, hmem⟩

theorem modifyVariable_sameActions (t : Task) (var : Nat) (f : Variable → Variable)
    (h : ∀ v, t.vars[var]? = some v → v.SameKind (f v)) :
    (modifyVariable var f).Ensures t fun _ t' => t.SameActions t' :=
  Update.ensures_modify.mpr ⟨⟨⟨rfl, Array.size_modify, isBooleanAt_modify t var f h⟩,
    fun _ _ => hasValueAt_modify rfl fun v hv => (h v hv).domain⟩, rfl⟩

/-- The same for a change that may fail, in which case nothing is left to be shown. -/
theorem updateVariable_sameActions (t : Task) (var : Nat) (f : Variable → Except Error Variable)
    (h : ∀ v v', f v = .ok v' → v.SameKind v') :
    (updateVariable var f).Ensures t fun _ t' => t.SameActions t' := by
  refine Update.ensures_bind.mpr (Update.ensures_get.mpr ?_)
  split
  next v hv =>
    refine Update.ensures_bind.mpr (Update.ensures_lift.mpr fun v' hv' => ?_)
    refine modifyVariable_sameActions t var _ fun w hw => ?_
    rw [hv] at hw
    cases hw
    exact h v v' hv'
  · exact Update.ensures_pure.mpr (.refl t)

/-- Numeric variables are in a table of their own. -/
theorem updateNumericVariable_sameActions (t : Task) (var : Nat)
    (f : NumericVariable → Except Error NumericVariable) :
    (updateNumericVariable var f).Ensures t fun _ t' => t.SameActions t' := by
  refine Update.ensures_bind.mpr (Update.ensures_get.mpr ?_)
  split
  · refine Update.ensures_bind.mpr (Update.ensures_lift.mpr fun v' _ => ?_)
    exact Update.ensures_modify.mpr (.of_eq rfl rfl rfl)
  · exact Update.ensures_pure.mpr (.refl t)

/-- An update repeated for a list keeps the tables and actions if each repetition does. -/
theorem forM_sameActions {α : Type} {f : α → Update PUnit} {l : List α}
    (h : ∀ a ∈ l, ∀ t, (f a).Ensures t fun _ t' => t.SameActions t') (t : Task) :
    Update.Ensures (l.forM f) t fun _ t' => t.SameActions t' :=
  Update.ensures_forM (fun a ha t' ht' => (h a ha t').mono fun _ _ ht'' => ht'.trans ht'')
    (.refl t)

/-! ## Adding actions and goals -/

/-- An update repeated for a list, each repetition of which adds something to a part of the task.
What has been added stays what it is, as the tables do. -/
theorem forM_adds {α β : Type} {f : α → Update PUnit} (part : Task → List β)
    {R : Task → α → β → Prop} (hR : ∀ t t' a b, t.SameTables t' → R t a b → R t' a b)
    (h : ∀ a t, (f a).Ensures t fun _ t' =>
      t.KeepsTables t' ∧ ∃ b, part t' = part t ++ [b] ∧ R t' a b) (as : List α) (t : Task) :
    Update.Ensures (as.forM f) t fun _ t' =>
      t.KeepsTables t' ∧ ∃ bs, part t' = part t ++ bs ∧ List.Forall₂ (R t') as bs := by
  induction as generalizing t with
  | nil => exact Update.ensures_pure.mpr ⟨.refl t, [], (List.append_nil _).symm, .nil⟩
  | cons a as ih =>
    refine Update.ensures_bind.mpr ((h a t).mono ?_)
    rintro _ t₁ ⟨h₁, b, hb, hRb⟩
    refine (ih t₁).mono ?_
    rintro _ t₂ ⟨h₂, bs, hbs, hRbs⟩
    refine ⟨h₁.trans h₂, b :: bs, ?_, .cons (hR _ _ _ _ h₂.toSameTables hRb) hRbs⟩
    rw [hbs, hb, List.append_assoc]
    rfl

/-- Actions are numbered in the order in which they are created. -/
theorem createAction_ensures (a : Action) (t : Task) : (createAction a).Ensures t fun _ t' =>
    t.KeepsTables t' ∧ t'.actions = t.actions.push { a with index := t.actions.size } := by
  refine Update.ensures_bind.mpr (Update.ensures_get.mpr ?_)
  refine Update.ensures_bind.mpr (Update.ensures_modify.mpr (Update.ensures_pure.mpr ?_))
  exact ⟨.of_eq rfl rfl, rfl⟩

theorem createGoal_sameActions (a : Action) (t : Task) :
    (createGoal a).Ensures t fun _ t' => t.SameActions t' := by
  refine Update.ensures_bind.mpr (Update.ensures_get.mpr ?_)
  refine Update.ensures_bind.mpr (Update.ensures_modify.mpr (Update.ensures_pure.mpr ?_))
  exact .of_eq rfl rfl rfl

end TemporalPlanning.FiniteDomain
