import TemporalPlanning.Proofs.FiniteDomain.Tables
import TemporalPlanning.Proofs.FlatTables
/-!
Creating the values and variables of a finite-domain task.

A code has 16 bits for a variable and 16 bits for a value. What fits can be packed and is unpacked
again, a code is determined by its two parts, and codes are ordered as the pairs are.

While values and variables are created, every boolean variable stays as it is, and a variable that
is never false does not become false. These two kinds of variables cannot be confused.
-/
set_option autoImplicit false

namespace TemporalPlanning.FiniteDomain

/-! ## Codes of facts -/

namespace FactCode

variable {var var' : Nat} {value value' : ValueId} {f g : FactCode}

/-- A pair can be packed if and only if both positions fit. -/
theorem pack_eq_ok_iff : pack var value = .ok f ↔
    var < capacity ∧ value.index < capacity ∧ f = ⟨var * capacity + value.index⟩ := by
  unfold pack
  by_cases hvar : capacity ≤ var
  · rw [if_pos hvar]
    exact ⟨fun h => (nomatch h), fun h => absurd h.1 (Nat.not_lt_of_le hvar)⟩
  · rw [if_neg hvar]
    by_cases hvalue : capacity ≤ value.index
    · rw [if_pos hvalue]
      exact ⟨fun h => (nomatch h), fun h => absurd h.2.1 (Nat.not_lt_of_le hvalue)⟩
    · rw [if_neg hvalue, Except.ok.injEq]
      constructor
      · intro h
        exact ⟨Nat.lt_of_not_le hvar, Nat.lt_of_not_le hvalue, h.symm⟩
      · rintro ⟨-, -, h⟩
        exact h.symm

/-- What has been packed is unpacked again. -/
theorem pack_eq_ok (h : pack var value = .ok f) : f.var = var ∧ f.value = value := by
  obtain ⟨-, hvalue, rfl⟩ := pack_eq_ok_iff.mp h
  exact ⟨div_of_code hvalue, congrArg ValueId.mk (mod_of_code hvalue)⟩

/-- A code is determined by its variable and its value. -/
theorem ext_of_parts (hvar : f.var = g.var) (hvalue : f.value = g.value) : f = g := by
  have hmod : f.code % capacity = g.code % capacity := by
    simpa only [FactCode.value, ValueId.mk.injEq] using hvalue
  have hcode : f.code = g.code := by
    rw [← Nat.div_add_mod f.code capacity, ← Nat.div_add_mod g.code capacity, hmod]
    rw [FactCode.var, FactCode.var] at hvar
    rw [hvar]
  cases f
  cases g
  rw [FactCode.mk.injEq]
  exact hcode

/-- Codes have 32 bits. -/
theorem code_lt_of_pack (h : pack var value = .ok f) : f.code < Nat.pow 2 32 := by
  obtain ⟨hvar, hvalue, rfl⟩ := pack_eq_ok_iff.mp h
  have hcapacity : capacity * capacity = Nat.pow 2 32 := by decide +kernel
  rw [← hcapacity]
  exact code_lt_mul hvar hvalue

theorem compare_of_pack (h : pack var value = .ok f) (h' : pack var' value' = .ok g) :
    compare f.code g.code = comparePairs (var, value.index) (var', value'.index) := by
  obtain ⟨-, hvalue, rfl⟩ := pack_eq_ok_iff.mp h
  obtain ⟨-, hvalue', rfl⟩ := pack_eq_ok_iff.mp h'
  exact compare_code hvalue hvalue'

end FactCode

/-! ## Tables that grow -/

namespace Task

/-- There is a boolean variable at a position. -/
def HasBoolean (t : Task) (var : Nat) : Prop :=
  ∃ x, t.vars[var]? = some x ∧ x.domain = [.falsity, .truth]

/-- There is a variable at a position that is never false. -/
def HasShared (t : Task) (var : Nat) : Prop := ∃ x, t.vars[var]? = some x ∧ .falsity ∉ x.domain

theorem HasBoolean.isBooleanAt {t : Task} {var : Nat} (h : t.HasBoolean var) :
    t.isBooleanAt var = true := by
  obtain ⟨x, hx, hdomain⟩ := h
  rw [Task.isBooleanAt, hx, Option.any_some, Variable.isBoolean, hdomain]
  rfl

theorem HasShared.isBooleanAt {t : Task} {var : Nat} (h : t.HasShared var) :
    t.isBooleanAt var = false := by
  obtain ⟨x, hx, hdomain⟩ := h
  rw [Task.isBooleanAt, hx, Option.any_some, Variable.isBoolean_of_not_mem hdomain]

theorem HasShared.not_hasBoolean {t : Task} {var : Nat} (h : t.HasShared var) :
    ¬t.HasBoolean var := fun h' => by
  have hshared := h.isBooleanAt
  rw [h'.isBooleanAt] at hshared
  cases hshared

theorem HasBoolean.lt_size {t : Task} {var : Nat} (h : t.HasBoolean var) : var < t.vars.size := by
  obtain ⟨x, hx, -⟩ := h
  exact (Array.getElem?_eq_some_iff.mp hx).1

theorem HasShared.lt_size {t : Task} {var : Nat} (h : t.HasShared var) : var < t.vars.size := by
  obtain ⟨x, hx, -⟩ := h
  exact (Array.getElem?_eq_some_iff.mp hx).1

/-- Values and variables are added, and variables remain what they are, with their values. -/
structure Grows (t t' : Task) : Prop where
  values : ∀ name x, t.value? name = some x → t'.value? name = some x
  boolean : ∀ var, t.HasBoolean var → t'.HasBoolean var
  shared : ∀ var, t.HasShared var → t'.HasShared var
  held : ∀ var value, t.HasValueAt var value → t'.HasValueAt var value
  size : t.vars.size ≤ t'.vars.size
  actions : t'.actions = t.actions

namespace Grows

variable {t t' t'' : Task}

theorem refl (t : Task) : t.Grows t :=
  ⟨fun _ _ h => h, fun _ h => h, fun _ h => h, fun _ _ h => h, Nat.le_refl _, rfl⟩

theorem trans (h : t.Grows t') (h' : t'.Grows t'') : t.Grows t'' :=
  ⟨fun name x hx => h'.values name x (h.values name x hx),
    fun var hvar => h'.boolean var (h.boolean var hvar),
    fun var hvar => h'.shared var (h.shared var hvar),
    fun var value hvalue => h'.held var value (h.held var value hvalue),
    Nat.le_trans h.size h'.size, h'.actions.trans h.actions⟩

theorem hasReserved (h : t.Grows t') (ht : t.HasReserved) : t'.HasReserved := ht.mono h.values

end Grows

end Task

/-! ## Creating values and variables -/

/-- The value with a name exists after it has been created. -/
theorem createValue_ensures (name : String) (function : Option FunctionId) (t : Task) :
    (createValue name function).Ensures t fun value t' =>
      t.Grows t' ∧ t'.value? name = some value ∧ t'.vars = t.vars := by
  refine Update.ensures_bind.mpr (Update.ensures_get.mpr ?_)
  split
  next i hi =>
    refine Update.ensures_pure.mpr ⟨.refl t, ?_, rfl⟩
    rw [Task.value?, hi]
    rfl
  next hfresh =>
    refine Update.ensures_bind.mpr (Update.ensures_get.mpr ?_)
    dsimp only
    -- a table that is full is an error
    split
    · exact Update.ensures_bind.mpr Update.ensures_throw
    refine Update.ensures_bind.mpr (Update.ensures_modify.mpr (Update.ensures_pure.mpr ?_))
    refine ⟨⟨fun n x hx => ?_, fun _ h => h, fun _ h => h, fun _ _ h => h, Nat.le_refl _, rfl⟩, ?_,
      rfl⟩
    · obtain ⟨i, hi, rfl⟩ := Option.map_eq_some_iff.mp hx
      exact Option.map_eq_some_iff.mpr ⟨i, t.values.find?_intern_of_eq_some _ hi, rfl⟩
    · refine Option.map_eq_some_iff.mpr ⟨_, t.values.find?_intern_self _, ?_⟩
      rw [t.values.intern_fst_of_eq_none _ hfresh]

/-- Adding variables lets the tables grow. -/
theorem grows_of_extends {t t' : Task}
    (hvalues : ∀ name x, t.value? name = some x → t'.value? name = some x)
    (hvars : ∀ (i : Nat) x, t.vars[i]? = some x → t'.vars[i]? = some x)
    (hsize : t.vars.size ≤ t'.vars.size) (hactions : t'.actions = t.actions) : t.Grows t' :=
  ⟨hvalues, fun var ⟨x, hx, hdomain⟩ => ⟨x, hvars var x hx, hdomain⟩,
    fun var ⟨x, hx, hdomain⟩ => ⟨x, hvars var x hx, hdomain⟩,
    fun var _ ⟨x, hx, hmem⟩ => ⟨x, hvars var x hx, hmem⟩, hsize, hactions⟩

/-- A variable is created at the end of the table. -/
theorem createVariable_ensures (name : String) (t : Task) :
    (createVariable name).Ensures t fun var t' =>
      t.Grows t' ∧ var = t.vars.size ∧ t'.values = t.values ∧
        t'.vars = t.vars.push ⟨t.vars.size, name, [], []⟩ := by
  refine Update.ensures_bind.mpr (Update.ensures_get.mpr ?_)
  dsimp only
  split
  · exact Update.ensures_bind.mpr Update.ensures_throw
  refine Update.ensures_bind.mpr (Update.ensures_modify.mpr (Update.ensures_pure.mpr ?_))
  refine ⟨grows_of_extends (fun _ _ h => h) (fun i x hx => ?_) ?_ rfl, rfl, rfl, rfl⟩
  · have hlt := (Array.getElem?_eq_some_iff.mp hx).1
    show (t.vars.push _)[i]? = some x
    rw [Array.getElem?_push, if_neg (Nat.ne_of_lt hlt), hx]
  · show t.vars.size ≤ (t.vars.push _).size
    rw [Array.size_push]
    exact Nat.le_succ _

/-! ## Adding values to domains -/

/-- Changing a variable that stays of its kind lets the tables grow. -/
theorem grows_of_modify {t t' : Task} {var : Nat} {f : Variable → Variable}
    (hvalues : ∀ name x, t.value? name = some x → t'.value? name = some x)
    (hvars : t'.vars = t.vars.modify var f) (hactions : t'.actions = t.actions)
    (hboolean : ¬t.HasBoolean var)
    (hshared : ∀ x, t.vars[var]? = some x → .falsity ∉ x.domain → .falsity ∉ (f x).domain)
    (hheld : ∀ x, t.vars[var]? = some x → ∀ value ∈ x.domain, value ∈ (f x).domain) :
    t.Grows t' := by
  have hmodify : ∀ i, t'.vars[i]? = if var = i then t.vars[i]?.map f else t.vars[i]? := fun i => by
    rw [hvars, Array.getElem?_modify]
  -- the changed variable is no boolean one, and the others stay as they are
  refine ⟨hvalues, fun i hi => ?_, fun i ⟨x, hx, hdomain⟩ => ?_,
    fun _ _ => hasValueAt_modify hvars hheld, ?_, hactions⟩
  · have hne : var ≠ i := fun h => hboolean (h ▸ hi)
    obtain ⟨x, hx, hdomain⟩ := hi
    exact ⟨x, by rw [hmodify, if_neg hne, hx], hdomain⟩
  · by_cases h : var = i
    · subst h
      exact ⟨f x, by rw [hmodify, if_pos rfl, hx]; rfl, hshared x hx hdomain⟩
    · exact ⟨x, by rw [hmodify, if_neg h, hx], hdomain⟩
  · have hsize : t'.vars.size = t.vars.size := by rw [hvars, Array.size_modify]
    exact Nat.le_of_eq hsize.symm

end TemporalPlanning.FiniteDomain
