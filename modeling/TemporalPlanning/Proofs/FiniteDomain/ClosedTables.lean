import Mathlib.Data.List.Nodup
import TemporalPlanning.Proofs.FiniteDomain.Creation
/-!
Closed tables of a finite-domain task.

Values and variables carry their positions, and a domain lists existing values, each once. While
variables are placed, values are added to domains and taken out again. Afterwards domains only widen,
so whatever is in a domain by then stays in it, and initial values are always among the values of
their variable.
-/
set_option autoImplicit false

namespace TemporalPlanning.FiniteDomain

/-! ## Variables -/

namespace Variable

variable {size : Nat} {x x' x'' : Variable} {value : ValueId}

/-- A domain lists values of a table of the given size, each once. -/
structure HasClosedDomain (size : Nat) (x : Variable) : Prop where
  nodup : x.domain.Nodup
  lt_size : ∀ value ∈ x.domain, value.index < size

/-- Besides, the initial values are in the domain. -/
structure IsClosed (size : Nat) (x : Variable) : Prop extends x.HasClosedDomain size where
  initial : ∀ entry ∈ x.initialValues, entry.2 ∈ x.domain

theorem HasClosedDomain.mono {size' : Nat} (h : x.HasClosedDomain size) (hsize : size ≤ size') :
    x.HasClosedDomain size' :=
  ⟨h.nodup, fun value hvalue => Nat.lt_of_lt_of_le (h.lt_size value hvalue) hsize⟩

theorem HasClosedDomain.addValue (h : x.HasClosedDomain size) (hnew : value ∉ x.domain)
    (hlt : value.index < size) : (x.addValue value).HasClosedDomain size := by
  refine ⟨List.nodup_append'.mpr ⟨h.nodup, List.nodup_singleton _, ?_⟩, fun other hother => ?_⟩
  · exact List.disjoint_singleton.mpr hnew
  · rcases List.mem_append.mp hother with hother | hother
    · exact h.lt_size other hother
    · rwa [List.mem_singleton.mp hother]

/-- A variable turns into another one at the same position. It loses no value, and remains closed
in a table with the reserved values. -/
structure Widens (size : Nat) (x x' : Variable) : Prop where
  index : x'.index = x.index
  domain : ∀ value ∈ x.domain, value ∈ x'.domain
  closed : ValueId.undefined.index < size → x.IsClosed size → x'.IsClosed size

theorem Widens.refl (size : Nat) (x : Variable) : Widens size x x := ⟨rfl, fun _ h => h, fun _ h => h⟩

theorem Widens.trans (h : Widens size x x') (h' : Widens size x' x'') : Widens size x x'' :=
  ⟨h'.index.trans h.index, fun value hvalue => h'.domain value (h.domain value hvalue),
    fun hsize hx => h'.closed hsize (h.closed hsize hx)⟩

theorem widens_allowUndefined (size : Nat) (x : Variable) : Widens size x x.allowUndefined := by
  unfold allowUndefined
  split
  · exact .refl size x
  next hnew =>
    have hnew : .undefined ∉ x.domain := fun hmem => hnew (List.contains_iff_mem.mpr hmem)
    refine ⟨rfl, fun value hvalue => List.mem_append_left _ hvalue, fun hsize hx => ?_⟩
    exact ⟨hx.addValue hnew hsize, fun entry hentry =>
      List.mem_append_left _ (hx.initial entry hentry)⟩

/-- The other value of a domain of two values is in the domain. -/
theorem mem_of_opposite {opposite : ValueId} (h : x.opposite value = .ok opposite) :
    opposite ∈ x.domain := by
  unfold Variable.opposite at h
  split at h
  next a b hdomain =>
    rw [hdomain]
    split at h
    · cases h
      exact List.mem_cons_of_mem _ List.mem_cons_self
    · split at h
      · cases h
        exact List.mem_cons_self
      · cases h
  · cases h

/-- An initial value that a variable receives is in its domain. -/
theorem widens_addInitialValue {holds : Bool} {time : Float}
    (h : x.addInitialValue value holds time = .ok x') : Widens size x x' := by
  -- whichever value of the domain is entered
  have hentered : ∀ {entered : ValueId}, entered ∈ x.domain → Widens size x
      { x with initialValues := x.initialValues ++ [(time, entered)] } := by
    intro entered hmem
    refine ⟨rfl, fun _ h => h, fun _ hx => ⟨⟨hx.nodup, hx.lt_size⟩, fun entry hentry => ?_⟩⟩
    rcases List.mem_append.mp hentry with hentry | hentry
    · exact hx.initial entry hentry
    · rw [List.mem_singleton.mp hentry]
      exact hmem
  unfold addInitialValue at h
  by_cases hhas : x.hasValue value = true
  · rw [if_pos hhas] at h
    cases holds with
    | true =>
      cases h
      exact hentered (List.contains_iff_mem.mp hhas)
    | false =>
      cases hopposite : x.opposite value with
      | error e =>
        rw [hopposite] at h
        cases h
      | ok opposite =>
        rw [hopposite] at h
        cases h
        exact hentered (mem_of_opposite hopposite)
  · rw [if_neg hhas] at h
    cases h

end Variable

/-! ## Tables -/

namespace Task

variable {t t' t'' : Task}

/-- The value with a name exists. -/
theorem lt_size_of_value? {name : String} {value : ValueId} (h : t.value? name = some value) :
    value.index < t.values.size := by
  obtain ⟨i, hi, rfl⟩ := Option.map_eq_some_iff.mp h
  obtain ⟨entry, hentry, -⟩ := Option.map_eq_some_iff.mp ((t.values.find?_eq_some_iff _ _).mp hi)
  exact (Array.getElem?_eq_some_iff.mp hentry).1

/-- Values and variables carry their positions, and domains are closed. -/
structure HasClosedDomains (t : Task) : Prop where
  reserved : t.HasReserved
  values : ∀ (i : Nat) v, t.values.get? i = some v → v.index = ⟨i⟩
  vars : ∀ (i : Nat) x, t.vars[i]? = some x → x.index = i ∧ x.HasClosedDomain t.values.size
  numericVars : ∀ (i : Nat) x, t.numericVars[i]? = some x → x.index = i

/-- Besides, initial values are in the domains of their variables. -/
structure HasClosedTables (t : Task) : Prop extends t.HasClosedDomains where
  initial : ∀ (i : Nat) x, t.vars[i]? = some x → ∀ entry ∈ x.initialValues, entry.2 ∈ x.domain

theorem hasClosedDomains_empty : Task.empty.HasClosedDomains := by
  refine ⟨hasReserved_empty, fun i v hv => ?_, fun i x hx => ?_, fun i x hx => ?_⟩
  · have hlt : i < 3 := (Array.getElem?_eq_some_iff.mp hv).1
    have hindex : ∀ i < 3, (Task.empty.values.get? i).all fun v => v.index == ⟨i⟩ := by
      decide +kernel
    have hi := hindex i hlt
    rw [hv] at hi
    exact beq_iff_eq.mp hi
  · cases hx
  · cases hx

/-- The variables of a task widen. Its values stay the same, and so do the positions of numeric
variables. -/
structure Widens (t t' : Task) : Prop where
  values : t'.values = t.values
  size : t'.vars.size = t.vars.size
  vars : ∀ (i : Nat) x, t.vars[i]? = some x →
    ∃ x', t'.vars[i]? = some x' ∧ Variable.Widens t.values.size x x'
  numericVars : t'.numericVars.map (·.index) = t.numericVars.map (·.index)

theorem Widens.of_eq (hvalues : t'.values = t.values) (hvars : t'.vars = t.vars)
    (hnumericVars : t'.numericVars = t.numericVars) : t.Widens t' := by
  refine ⟨hvalues, by rw [hvars], fun i x hx => ⟨x, ?_, .refl _ x⟩, by rw [hnumericVars]⟩
  rw [hvars, hx]

theorem Widens.refl (t : Task) : t.Widens t := .of_eq rfl rfl rfl

theorem Widens.trans (h : t.Widens t') (h' : t'.Widens t'') : t.Widens t'' := by
  refine ⟨h'.values.trans h.values, h'.size.trans h.size, fun i x hx => ?_,
    h'.numericVars.trans h.numericVars⟩
  obtain ⟨x', hx', hwidens⟩ := h.vars i x hx
  obtain ⟨x'', hx'', hwidens'⟩ := h'.vars i x' hx'
  rw [h.values] at hwidens'
  exact ⟨x'', hx'', hwidens.trans hwidens'⟩

/-- Nothing is taken out of a domain. -/
theorem Widens.held (h : t.Widens t') {var : Nat} {value : ValueId}
    (hvalue : t.HasValueAt var value) : t'.HasValueAt var value := by
  obtain ⟨x, hx, hmem⟩ := hvalue
  obtain ⟨x', hx', hwidens⟩ := h.vars var x hx
  exact ⟨x', hx', hwidens.domain value hmem⟩

theorem Widens.numericSize (h : t.Widens t') : t'.numericVars.size = t.numericVars.size := by
  have hsize := congrArg Array.size h.numericVars
  rwa [Array.size_map, Array.size_map] at hsize

theorem HasReserved.lt_size (h : t.HasReserved) : ValueId.undefined.index < t.values.size :=
  lt_size_of_value? h.undefined

/-- **Closed tables remain closed** when variables widen. -/
theorem HasClosedTables.widen (h : t.HasClosedTables) (hwidens : t.Widens t') :
    t'.HasClosedTables := by
  have hclosed : ∀ (i : Nat) x', t'.vars[i]? = some x' →
      x'.index = i ∧ x'.IsClosed t.values.size := by
    intro i x' hx'
    have hlt : i < t.vars.size := hwidens.size ▸ (Array.getElem?_eq_some_iff.mp hx').1
    have hx := Array.getElem?_eq_getElem hlt
    obtain ⟨hindex, hdomain⟩ := h.vars i _ hx
    obtain ⟨x'', hx'', hvar⟩ := hwidens.vars i _ hx
    obtain rfl : x'' = x' := Option.some.inj (hx''.symm.trans hx')
    exact ⟨hvar.index.trans hindex, hvar.closed h.reserved.lt_size ⟨hdomain, h.initial i _ hx⟩⟩
  refine ⟨⟨h.reserved.mono fun name value hvalue => ?_, fun i v hv => ?_, fun i x hx => ?_,
    fun i x hx => ?_⟩, fun i x hx => (hclosed i x hx).2.initial⟩
  · rwa [value?, hwidens.values]
  · rw [hwidens.values] at hv
    exact h.values i v hv
  · rw [hwidens.values]
    exact ⟨(hclosed i x hx).1, (hclosed i x hx).2.toHasClosedDomain⟩
  · -- the positions are the same as before
    have hposition := congrArg (·[i]?) hwidens.numericVars
    simp only [Array.getElem?_map, hx, Option.map_some] at hposition
    obtain ⟨y, hy, hindex⟩ := Option.map_eq_some_iff.mp hposition.symm
    rw [← hindex]
    exact h.numericVars i y hy

end Task

/-! ## Creation -/

section Creation

variable {t : Task} (h : t.HasClosedDomains)
include h

theorem createValue_closedDomains (name : String) (function : Option FunctionId) :
    (createValue name function).Ensures t fun _ t' => t'.HasClosedDomains := by
  refine Update.ensures_bind.mpr (Update.ensures_get.mpr ?_)
  split
  · exact Update.ensures_pure.mpr h
  next hfresh =>
    refine Update.ensures_bind.mpr (Update.ensures_get.mpr ?_)
    dsimp only
    split
    · exact Update.ensures_bind.mpr Update.ensures_throw
    refine Update.ensures_bind.mpr (Update.ensures_modify.mpr (Update.ensures_pure.mpr ?_))
    have hsize := t.values.size_le_size_intern ⟨⟨t.values.size⟩, name, function⟩
    refine ⟨h.reserved.mono fun n value hvalue => ?_, fun i v hv => ?_, fun i x hx => ?_,
      h.numericVars⟩
    · obtain ⟨i, hi, rfl⟩ := Option.map_eq_some_iff.mp hvalue
      exact Option.map_eq_some_iff.mpr ⟨i, t.values.find?_intern_of_eq_some _ hi, rfl⟩
    · -- a value is an old one or the new one at the end
      rcases t.values.get?_intern_snd ⟨⟨t.values.size⟩, name, function⟩ i with
        hold | ⟨rfl, -, hnew⟩
      · exact h.values i v (hold.symm.trans hv)
      · rw [Option.some.inj (hv.symm.trans hnew)]
    · exact ⟨(h.vars i x hx).1, (h.vars i x hx).2.mono hsize⟩

theorem createVariable_closedDomains (name : String) :
    (createVariable name).Ensures t fun _ t' => t'.HasClosedDomains := by
  refine Update.ensures_bind.mpr (Update.ensures_get.mpr ?_)
  dsimp only
  split
  · exact Update.ensures_bind.mpr Update.ensures_throw
  refine Update.ensures_bind.mpr (Update.ensures_modify.mpr (Update.ensures_pure.mpr ?_))
  refine ⟨⟨h.reserved.truth, h.reserved.falsity, h.reserved.undefined⟩, h.values,
    fun i x hx => ?_, h.numericVars⟩
  rw [Array.getElem?_push] at hx
  split at hx
  next hi =>
    cases hx
    exact ⟨hi.symm, List.nodup_nil, fun value hvalue => by cases hvalue⟩
  · exact h.vars i x hx

theorem createNumericVariable_closedDomains (name : String) :
    (createNumericVariable name).Ensures t fun _ t' => t'.HasClosedDomains := by
  refine Update.ensures_bind.mpr (Update.ensures_get.mpr ?_)
  refine Update.ensures_bind.mpr (Update.ensures_modify.mpr (Update.ensures_pure.mpr ?_))
  refine ⟨⟨h.reserved.truth, h.reserved.falsity, h.reserved.undefined⟩, h.values, h.vars,
    fun i x hx => ?_⟩
  rw [Array.getElem?_push] at hx
  split at hx
  next hi =>
    cases hx
    exact hi.symm
  · exact h.numericVars i x hx

/-- A variable is changed to one with a closed domain at the same position. -/
theorem modifyVariable_closedDomains {var : Nat} {f : Variable → Variable}
    (hf : ∀ x, t.vars[var]? = some x → x.HasClosedDomain t.values.size →
      (f x).index = x.index ∧ (f x).HasClosedDomain t.values.size) :
    (modifyVariable var f).Ensures t fun _ t' => t'.HasClosedDomains := by
  refine Update.ensures_modify.mpr ⟨⟨h.reserved.truth, h.reserved.falsity, h.reserved.undefined⟩,
    h.values, fun i x hx => ?_, h.numericVars⟩
  rw [Array.getElem?_modify] at hx
  split at hx
  next hi =>
    subst hi
    obtain ⟨y, hy, rfl⟩ := Option.map_eq_some_iff.mp hx
    obtain ⟨hindex, hdomain⟩ := h.vars var y hy
    obtain ⟨hindex', hdomain'⟩ := hf y hy hdomain
    exact ⟨hindex'.trans hindex, hdomain'⟩
  · exact h.vars i x hx

end Creation

/-! ## Widening -/

section Widening

theorem modifyVariable_widens (t : Task) {var : Nat} {f : Variable → Variable}
    (hf : ∀ x, t.vars[var]? = some x → Variable.Widens t.values.size x (f x)) :
    (modifyVariable var f).Ensures t fun _ t' => t.Widens t' := by
  refine Update.ensures_modify.mpr ⟨rfl, Array.size_modify, fun i x hx => ?_, rfl⟩
  rw [Array.getElem?_modify]
  split
  next hi =>
    subst hi
    exact ⟨f x, by rw [hx]; rfl, hf x hx⟩
  · exact ⟨x, hx, .refl _ x⟩

theorem updateVariable_widens (t : Task) {var : Nat} {f : Variable → Except Error Variable}
    (hf : ∀ x x', f x = .ok x' → Variable.Widens t.values.size x x') :
    (updateVariable var f).Ensures t fun _ t' => t.Widens t' := by
  refine Update.ensures_bind.mpr (Update.ensures_get.mpr ?_)
  split
  next x hx =>
    refine Update.ensures_bind.mpr (Update.ensures_lift.mpr fun x' hx' => ?_)
    refine modifyVariable_widens t fun y hy => ?_
    rw [Option.some.inj (hy.symm.trans hx)]
    exact hf x x' hx'
  · exact Update.ensures_pure.mpr (.refl t)

/-- Numbers that are entered leave the numeric variable where it is. -/
theorem updateNumericVariable_widens (t : Task) {var : Nat}
    {f : NumericVariable → Except Error NumericVariable}
    (hf : ∀ x x', f x = .ok x' → x'.index = x.index) :
    (updateNumericVariable var f).Ensures t fun _ t' => t.Widens t' := by
  refine Update.ensures_bind.mpr (Update.ensures_get.mpr ?_)
  split
  next x hx =>
    refine Update.ensures_bind.mpr (Update.ensures_lift.mpr fun x' hx' => ?_)
    refine Update.ensures_modify.mpr ⟨rfl, rfl, fun i y hy => ⟨y, hy, .refl _ y⟩, ?_⟩
    refine Array.ext_getElem? fun i => ?_
    rw [Array.getElem?_map, Array.getElem?_map, Array.getElem?_modify]
    split
    next hi =>
      subst hi
      rw [hx, Option.map_some, Option.map_some, Option.map_some, hf x x' hx']
    · rfl
  · exact Update.ensures_pure.mpr (.refl t)

/-- An update repeated for a list widens variables if each repetition does. -/
theorem forM_widens {α : Type} {f : α → Update PUnit} {l : List α}
    (h : ∀ a t, (f a).Ensures t fun _ t' => t.Widens t') (t : Task) :
    Update.Ensures (l.forM f) t fun _ t' => t.Widens t' :=
  Update.ensures_forM (fun a _ t' ht' => (h a t').mono fun _ _ ht'' => ht'.trans ht'') (.refl t)

/-- Every variable is replaced by a wider one. -/
theorem widens_of_forall₂ {t : Task} {vars : List Variable}
    (h : List.Forall₂ (Variable.Widens t.values.size) t.vars.toList vars) :
    t.Widens { t with vars := vars.toArray } := by
  have hlength := h.length_eq
  rw [Array.length_toList] at hlength
  refine ⟨rfl, hlength.symm, fun i x hx => ?_, rfl⟩
  have hlt := (Array.getElem?_eq_some_iff.mp hx).1
  rw [← Array.getElem?_toList, List.getElem?_eq_getElem (by simpa using hlt)] at hx
  have hi : i < vars.length := hlength ▸ hlt
  refine ⟨vars[i], ?_, ?_⟩
  · rw [List.getElem?_toArray, List.getElem?_eq_getElem hi]
  · have hwidens := h.get (by simpa using hlt) hi
    rwa [List.get_eq_getElem, List.get_eq_getElem, Option.some.inj hx] at hwidens

end Widening

end TemporalPlanning.FiniteDomain
