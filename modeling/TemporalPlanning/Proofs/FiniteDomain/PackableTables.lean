import Mathlib.Data.List.Induction
import TemporalPlanning.Proofs.FiniteDomain.ClosedTables
import TemporalPlanning.Proofs.FiniteDomain.Operations
/-!
Tables that codes can address.

A code has 16 bits for a variable and 16 bits for a value. A table is full when it has `2 ^ 16`
entries, and to create one more is refused, so every variable and every value that exists can be
packed: the last one that is created still fits, and no two pairs share a code. The values are kept
twice, in the order of their creation and by their names, and the two agree whatever operations a
task has been through, failed ones included.
-/
set_option autoImplicit false

namespace TemporalPlanning.FiniteDomain

/-! ## One creation -/

section Creation

variable (t : Task)

/-- A value is created unless one of its name exists, and never beyond the capacity; in neither case
does the task change. -/
theorem runOn_createValue (name : String) (function : Option FunctionId) :
    (createValue name function).runOn t =
      match t.value? name with
      | some value => (.ok value, t)
      | none =>
        if capacity ≤ t.values.size then (.error (.capacityExceeded .values t.values.size), t)
        else (.ok ⟨t.values.size⟩,
          { t with values := (t.values.intern ⟨⟨t.values.size⟩, name, function⟩).2 }) := by
  unfold createValue
  rw [Update.runOn_bind]
  show Update.runOn _ t = _
  rw [Task.value?]
  cases hfind : t.values.find? name with
  | some i => rfl
  | none =>
    dsimp only [Option.map_none]
    rw [Update.runOn_bind]
    show Update.runOn _ t = _
    by_cases hfull : capacity ≤ t.values.size
    · rw [if_pos hfull, if_pos hfull]
      rfl
    · rw [if_neg hfull, if_neg hfull]
      rfl

/-- A variable is created at the end of the table unless the table is full. -/
theorem runOn_createVariable (name : String) :
    (createVariable name).runOn t =
      if capacity ≤ t.vars.size then (.error (.capacityExceeded .vars t.vars.size), t)
      else (.ok t.vars.size, { t with vars := t.vars.push ⟨t.vars.size, name, [], []⟩ }) := by
  unfold createVariable
  rw [Update.runOn_bind]
  show Update.runOn _ t = _
  dsimp only
  by_cases hfull : capacity ≤ t.vars.size
  · rw [if_pos hfull, if_pos hfull]
    rfl
  · rw [if_neg hfull, if_neg hfull]
    rfl

theorem runOn_edit_createVariable (name : String) :
    (Edit.createVariable name).update.runOn t =
      if capacity ≤ t.vars.size then (.error (.capacityExceeded .vars t.vars.size), t)
      else (.ok (), { t with vars := t.vars.push ⟨t.vars.size, name, [], []⟩ }) := by
  show Update.runOn ((fun _ => ()) <$> createVariable name) t = _
  rw [Update.runOn_map, runOn_createVariable]
  split <;> rfl

end Creation

/-! ## All operations -/

namespace Task

/-- The value table, and the size of the variable table. -/
def codedTables (t : Task) : Registry String Value Value.name × Nat := (t.values, t.vars.size)

/-- Values know their positions, the reserved names are those of the reserved values, and no table
has more entries than codes tell apart. -/
structure HasPackableTables (t : Task) : Prop where
  index : ∀ (i : Nat) v, t.values.get? i = some v → v.index = ⟨i⟩
  reserved : t.HasReserved
  values : t.values.size ≤ capacity
  vars : t.vars.size ≤ capacity

theorem hasPackableTables_empty : Task.empty.HasPackableTables := by
  refine ⟨fun i v hv => ?_, hasReserved_empty, by decide +kernel, by decide⟩
  have hsize : Task.empty.values.entries.size = 3 := by decide +kernel
  have hlt : i < 3 := hsize ▸ (Array.getElem?_eq_some_iff.mp hv).1
  have hindex : ∀ i < 3, (Task.empty.values.get? i).map Value.index = some ⟨i⟩ := by decide +kernel
  have hi := hindex i hlt
  rw [hv] at hi
  exact Option.some.inj hi

namespace HasPackableTables

variable {t t' : Task}

theorem congr (h : t.HasPackableTables) (htables : t'.codedTables = t.codedTables) :
    t'.HasPackableTables := by
  have hvalues : t'.values = t.values := congrArg Prod.fst htables
  have hsize : t'.vars.size = t.vars.size := congrArg Prod.snd htables
  obtain ⟨hindex, hreserved, hle, hvars⟩ := h
  rw [← hvalues] at hindex hle
  rw [← hsize] at hvars
  exact ⟨hindex, hreserved.mono fun name x hx => by rwa [value?, hvalues], hle, hvars⟩

theorem createValue (h : t.HasPackableTables) (name : String) (function : Option FunctionId) :
    (FiniteDomain.createValue name function).Ensures t fun _ t' => t'.HasPackableTables := by
  intro _ t' hrun
  rw [runOn_createValue] at hrun
  split at hrun
  · cases hrun
    exact h
  next hnone =>
    split at hrun
    · cases hrun
    next hroom =>
      cases hrun
      -- the name is new and the table has room, so the value gets the first free position
      have hfresh : t.values.find? name = none := Option.map_eq_none_iff.mp hnone
      refine ⟨fun i v hv => ?_, h.reserved.mono fun n x hx => ?_, ?_, h.vars⟩
      · rcases t.values.get?_intern_snd _ i with hsame | ⟨hi, -, hnew⟩
        · exact h.index i v (hsame ▸ hv)
        · rw [hnew] at hv
          cases hv
          rw [hi]
      · obtain ⟨i, hi, rfl⟩ := Option.map_eq_some_iff.mp hx
        exact Option.map_eq_some_iff.mpr ⟨i, t.values.find?_intern_of_eq_some _ hi, rfl⟩
      · show (t.values.intern _).2.size ≤ capacity
        rw [t.values.size_intern_of_eq_none _ hfresh]
        omega

theorem createVariable (h : t.HasPackableTables) (name : String) :
    (FiniteDomain.createVariable name).Ensures t fun _ t' => t'.HasPackableTables := by
  intro _ t' hrun
  rw [runOn_createVariable] at hrun
  split at hrun
  · cases hrun
  next hroom =>
    cases hrun
    refine ⟨h.index, h.reserved.mono fun _ _ hx => hx, h.values, ?_⟩
    show (t.vars.push _).size ≤ capacity
    rw [Array.size_push]
    omega

end HasPackableTables

end Task

/-- What a failed operation leaves behind concerns derived data only. -/
theorem codedTables_leftover (edit : Edit) (t : Task) :
    (edit.leftover t).codedTables = t.codedTables := by
  cases edit with
  | derive d =>
    cases d with
    | requirers | producers => rfl
    | permanentMutex =>
      rw [Edit.leftover, Derivation.leftover]
      split <;> rfl
    | costs =>
      rw [Edit.leftover, Derivation.leftover, Task.beforeCosts, Task.withCurrentNumbers]
      split <;> rfl
  | _ => rfl

/-- Every operation keeps tables packable. Only creations make a table larger, and they look for
room first. -/
theorem Task.HasPackableTables.after {t : Task} (h : t.HasPackableTables) (edit : Edit) :
    (t.after edit).HasPackableTables := by
  refine after_of_ensures ?_ (h.congr (codedTables_leftover edit t))
  -- only the two creations touch the tables; for all other operations a frame lemma is enough
  have hkept : ∀ {u : Update Unit}, u.Keeps Task.codedTables →
      u.Ensures t fun _ t' => t'.HasPackableTables :=
    fun hu => (hu t).mono fun _ _ htables => h.congr htables
  have hmodify : ∀ (t : Task) (var : Nat) f,
      Task.codedTables { t with vars := t.vars.modify var f } = t.codedTables :=
    fun t var f => congrArg (Prod.mk t.values) Array.size_modify
  cases edit with
  | createValue name function => exact Update.ensures_map.mpr (h.createValue name function)
  | createVariable name => exact Update.ensures_map.mpr (h.createVariable name)
  | createAnonymousVariable =>
    refine Update.ensures_map.mpr ?_
    exact Update.ensures_bind.mpr (Update.ensures_get.mpr (h.createVariable _))
  | createNumericVariable name =>
    exact hkept ((createNumericVariable_keeps (fun _ _ _ => rfl) name).map _)
  | createAction a => exact hkept ((createAction_keeps (fun _ _ => rfl) a).map _)
  | createGoal a => exact hkept ((createGoal_keeps (fun _ _ => rfl) a).map _)
  | addValue var value => exact hkept (modifyVariable_keeps fun t => hmodify t var _)
  | addInitialValue var => exact hkept (updateVariable_keeps (fun t f => hmodify t var f) _)
  | addInitialNumber var => exact hkept (updateNumericVariable_keeps (fun _ _ => rfl) var _)
  | addMutex | setMetric | addConstraint | setPreferenceNames | computeInitialState =>
    exact hkept (Update.keeps_modify fun _ => rfl)
  | derive d =>
    cases d with
    | requirers => exact hkept (computeRequirers_keeps (fun _ _ => rfl) fun _ _ => rfl)
    | producers => exact hkept (computeProducers_keeps fun _ _ => rfl)
    | permanentMutex => exact hkept (computePermanentMutex_keeps (fun _ _ => rfl) fun _ _ => rfl)
    | costs keepStatic =>
      exact hkept (computeCosts_keeps (fun _ => rfl) (fun _ _ => rfl) (fun _ _ _ _ => rfl) _)

/-- Whatever is done to a task, its tables can be addressed by codes. -/
theorem taskOf_hasPackableTables (edits : List Edit) : (taskOf edits).HasPackableTables := by
  induction edits using List.reverseRecOn with
  | nil => exact Task.hasPackableTables_empty
  | append_singleton edits edit ih =>
    rw [taskOf_append_singleton]
    exact ih.after edit

/-! ## Linked and packable tables -/

namespace Task

/-- The values in the order of their creation and the values by their names are the same. -/
structure HasLinkedValues (t : Task) : Prop where
  /-- Every value knows its position. -/
  index : ∀ (i : Nat) v, t.values.get? i = some v → v.index = ⟨i⟩
  /-- No two values have the same name. -/
  distinct : ∀ (i j : Nat) v w, t.values.get? i = some v → t.values.get? j = some w →
    v.name = w.name → i = j
  /-- A name is looked up to the position at which the value with this name is. -/
  found : ∀ name i, t.value? name = some i ↔
    (t.values.get? i.index).map Value.name = some name
  /-- The first three values have the reserved names. -/
  reserved : (t.values.get? 0).map Value.name = some "<true>" ∧
    (t.values.get? 1).map Value.name = some "<false>" ∧
    (t.values.get? 2).map Value.name = some "<undefined>"

/-- A name is looked up to the position of the value that bears it. -/
theorem value?_eq_some_iff (t : Task) (name : String) (i : ValueId) :
    t.value? name = some i ↔ (t.values.get? i.index).map Value.name = some name := by
  rw [value?, ← t.values.find?_eq_some_iff, Option.map_eq_some_iff]
  constructor
  · rintro ⟨j, hj, rfl⟩
    exact hj
  · intro hi
    exact ⟨i.index, hi, rfl⟩

theorem HasPackableTables.hasLinkedValues {t : Task} (h : t.HasPackableTables) :
    t.HasLinkedValues :=
  ⟨h.index, fun _ _ _ _ hv hw => t.values.position_unique hv hw, t.value?_eq_some_iff,
    (t.value?_eq_some_iff _ _).mp h.reserved.truth,
    (t.value?_eq_some_iff _ _).mp h.reserved.falsity,
    (t.value?_eq_some_iff _ _).mp h.reserved.undefined⟩

end Task

/-- A variable can be created as long as the table has room. -/
theorem isOk_createVariable (name : String) (t : Task) :
    ((createVariable name).runOn t).1.isOk = true ↔ t.vars.size < capacity := by
  rw [runOn_createVariable]
  split
  next hfull => exact iff_of_false Bool.false_ne_true (Nat.not_lt_of_le hfull)
  next hroom => exact iff_of_true rfl (Nat.lt_of_not_le hroom)

/-- A value that exists can be asked for again even if the table is full. -/
theorem isOk_createValue (name : String) (function : Option FunctionId) (t : Task) :
    ((createValue name function).runOn t).1.isOk = true ↔
      (t.value? name).isSome ∨ t.values.size < capacity := by
  rw [runOn_createValue]
  split
  next value hvalue => exact iff_of_true rfl (Or.inl (by rw [hvalue]; rfl))
  next hnone =>
    rw [hnone]
    split
    next hfull => exact iff_of_false Bool.false_ne_true (by simpa using hfull)
    next hroom => exact iff_of_true rfl (Or.inr (Nat.lt_of_not_le hroom))

/-- After any operations, failed ones included, the two tables of values agree, an operation that
fails changes nothing unless it is a derivation, and creations fail exactly if there is no room for
another entry. All variables and values that exist can be packed and unpacked, and the codes, which
have 32 bits, are ordered as the pairs are. -/
theorem tables_stay_packable (edits : List Edit) :
    (taskOf edits).HasLinkedValues ∧
    (∀ edit : Edit, (∀ d, edit ≠ .derive d) → ∀ e t',
      edit.update.runOn (taskOf edits) = (.error e, t') → t' = taskOf edits) ∧
    (∀ name function, ((createValue name function).runOn (taskOf edits)).1.isOk = true ↔
      ((taskOf edits).value? name).isSome ∨ (taskOf edits).values.size < capacity) ∧
    (∀ name, ((createVariable name).runOn (taskOf edits)).1.isOk = true ↔
      (taskOf edits).vars.size < capacity) ∧
    (∀ var value, var < (taskOf edits).vars.size → value.index < (taskOf edits).values.size →
      ∃ f, FactCode.pack var value = .ok f ∧ f.var = var ∧ f.value = value ∧
        f.code < Nat.pow 2 32) ∧
    ∀ var value var' value' f f', FactCode.pack var value = .ok f →
      FactCode.pack var' value' = .ok f' →
        compare f.code f'.code = comparePairs (var, value.index) (var', value'.index) := by
  have h := taskOf_hasPackableTables edits
  refine ⟨h.hasLinkedValues, fun edit hedit e t' hrun => ?_, fun _ _ => isOk_createValue _ _ _,
    fun _ => isOk_createVariable _ _, fun var value hvar hvalue => ?_,
    fun _ _ _ _ _ _ hf hf' => FactCode.compare_of_pack hf hf'⟩
  · -- a failed operation leaves what it wrote before it failed, which is nothing unless data are
    -- derived
    have hleft := edit.update_leaves (taskOf edits) e t' hrun
    rw [hleft]
    cases edit with
    | derive d => exact absurd rfl (hedit d)
    | _ => rfl
  · -- both positions are below the sizes, which are at most the capacity
    have hpack := FactCode.pack_eq_ok_iff.mpr
      ⟨Nat.lt_of_lt_of_le hvar h.vars, Nat.lt_of_lt_of_le hvalue h.values, rfl⟩
    obtain ⟨hvar', hvalue'⟩ := FactCode.pack_eq_ok hpack
    exact ⟨_, hpack, hvar', hvalue', FactCode.code_lt_of_pack hpack⟩

namespace Theatre

/-- A theatre has as many seats as there may be variables. -/
def edits : List Edit := List.replicate capacity (.createVariable "seat")

/-- Each seat is another variable, as long as there is room. -/
theorem codedTables_seats (n : Nat) (h : n ≤ capacity) :
    (taskOf (List.replicate n (.createVariable "seat"))).codedTables = (Task.empty.values, n) := by
  induction n with
  | zero => rfl
  | succ n ih =>
    obtain ⟨hvalues, hsize⟩ := Prod.mk.inj (ih (Nat.le_of_succ_le h))
    -- the last creation still finds room, as there are fewer than `capacity` seats before it
    have hroom : ¬capacity ≤ (taskOf (List.replicate n (.createVariable "seat"))).vars.size := by
      rw [hsize]
      exact Nat.not_le_of_lt h
    rw [List.replicate_succ', taskOf_append_singleton, Task.after, runOn_edit_createVariable,
      if_neg hroom]
    refine Prod.ext hvalues ?_
    show (Array.push _ _).size = n + 1
    rw [Array.size_push, hsize]

theorem codedTables_edits : (taskOf edits).codedTables = (Task.empty.values, capacity) :=
  codedTables_seats capacity (Nat.le_refl _)

/-- In a full theatre the last seat can still be packed, and another seat is refused without any
change. -/
theorem full_theatre_packs :
    (∃ e, (Edit.createVariable "balcony").update.runOn (taskOf edits) = (.error e, taskOf edits)) ∧
    (∃ f, FactCode.pack 65535 .undefined = .ok f ∧ f.var = 65535 ∧ f.value = .undefined ∧
      f.code < Nat.pow 2 32) ∧
    compare (65534 * 65536 + 2) (65535 * 65536) = comparePairs (65534, 2) (65535, 0) := by
  obtain ⟨hvalues, hsize⟩ := Prod.mk.inj codedTables_edits
  have hlast : 65535 < (taskOf edits).vars.size := by
    rw [hsize]
    exact Nat.lt_succ_self 65535
  have hundefined : ValueId.undefined.index < (taskOf edits).values.size := by
    rw [hvalues]
    decide +kernel
  obtain ⟨-, hfail, -, -, hpack, horder⟩ := tables_stay_packable edits
  refine ⟨?_, hpack 65535 .undefined hlast hundefined, ?_⟩
  · obtain ⟨e, t', hrun⟩ : ∃ e t',
        (Edit.createVariable "balcony").update.runOn (taskOf edits) = (.error e, t') := by
      rw [runOn_edit_createVariable, hsize, if_pos (Nat.le_refl _)]
      exact ⟨_, _, rfl⟩
    have hleft := hfail (.createVariable "balcony") (fun _ h => nomatch h) e t' hrun
    rw [hleft] at hrun
    exact ⟨e, hrun⟩
  · have hlower : FactCode.pack 65534 .undefined = .ok ⟨65534 * 65536 + 2⟩ :=
      FactCode.pack_eq_ok_iff.mpr ⟨by decide +kernel, by decide +kernel, rfl⟩
    have hupper : FactCode.pack 65535 .truth = .ok ⟨65535 * 65536⟩ :=
      FactCode.pack_eq_ok_iff.mpr ⟨by decide +kernel, by decide +kernel, rfl⟩
    exact horder 65534 .undefined 65535 .truth _ _ hlower hupper

end Theatre

end TemporalPlanning.FiniteDomain
