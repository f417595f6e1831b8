import TemporalPlanning.Proofs.Grounding.Guarded.Lookups
import TemporalPlanning.Proofs.Grounding.Validity
/-!
Types of objects and parameters.

The matrix of the subtype relation is made from the parents of types, and it is read for the types
of objects and parameters. In a valid problem all of them are in the table of types, so no position
outside of the matrix is read.
-/
set_option autoImplicit false

namespace TemporalPlanning.Lifted

/-- All types are in the table. -/
def Task.HasTypes (task : Task) (types : List TypeId) : Prop :=
  ∀ type ∈ types, type.index < task.types.size

/-- The parents of types and the types of objects are in the table. -/
structure Task.HasClosedTypes (task : Task) : Prop where
  parents : ∀ entry ∈ task.types, task.HasTypes entry.parents
  objects : ∀ entry ∈ task.objects, task.HasTypes entry.types

end TemporalPlanning.Lifted

namespace TemporalPlanning.Grounding

open Lifted

namespace Guarded

/-! ## Definitions -/

section Definitions

variable (task : Lifted.Task)

/-- The direct supertypes of a type. -/
def parentsOf (type : TypeId) : Guarded (List TypeId) := do
  return (← read .types task.types type.index).parents

/-- One round: the parents of all types found so far are found as well. -/
def closeOnce (found : List TypeId) : Guarded (List TypeId) := do
  return addNew found (← found.mapM (parentsOf task)).flatten

/-- The types found after some rounds. -/
def close : Nat → List TypeId → Guarded (List TypeId)
  | 0, found => return found
  | rounds + 1, found => do close rounds (← closeOnce task found)

/-- The hierarchy of a task. -/
def hierarchy : Guarded Hierarchy := do
  let supertypes ← (List.range task.types.size).mapM fun i => close task task.types.size [⟨i⟩]
  return ⟨supertypes.toArray⟩

/-- Whether a type is another one or derives from it. The matrix has a row and a column for each
type. -/
def isSubtype (h : Hierarchy) (type target : TypeId) : Guarded Bool := do
  let row ← read .types h.supertypes type.index
  let _ ← read .types h.supertypes target.index
  return row.contains target

/-- Whether one of the types is compatible with one of the valid types. -/
def compatible (h : Hierarchy) (types valid : List TypeId) : Guarded Bool :=
  types.anyM fun type => valid.anyM fun target => isSubtype h type target

variable (setting : Setting)

/-- Whether an object may be bound to a parameter with the given types. -/
def admits (types : List TypeId) (object : ObjectId) : Guarded Bool := do
  let entry ← read .objects setting.task.objects object.index
  compatible setting.hierarchy entry.types types

/-- The objects that a parameter with the given types ranges over. -/
def objectsOf (types : List TypeId) : Guarded (List ObjectId) :=
  select (admits setting types) ((List.range setting.task.objects.size).map ObjectId.mk)

end Definitions

/-! ## No type is missing -/

section Hierarchy

variable {task : Lifted.Task}

/-- Collecting types adds none that has not been there before. -/
theorem hasTypes_addNew {found candidates : List TypeId} (hfound : task.HasTypes found)
    (h : task.HasTypes candidates) : task.HasTypes (addNew found candidates) := by
  unfold addNew
  induction candidates generalizing found with
  | nil => exact hfound
  | cons type candidates ih =>
    obtain ⟨htype, h⟩ := List.forall_mem_cons.mp h
    rw [List.foldl_cons]
    split
    · exact ih hfound h
    · exact ih (List.forall_mem_append.mpr ⟨hfound, List.forall_mem_singleton.mpr htype⟩) h

variable (htypes : task.HasClosedTypes)
include htypes

/-- The parents of a type of the table are types of the table. -/
theorem parentsOf_eq_ok {type : TypeId} (h : type.index < task.types.size) :
    parentsOf task type = .ok (task.parentsOf type) ∧ task.HasTypes (task.parentsOf type) := by
  obtain ⟨entry, hentry, hread⟩ := exists_read_eq_ok .types h
  have hparents : task.parentsOf type = entry.parents := by
    rw [Task.parentsOf, hentry]
    rfl
  rw [parentsOf, hread, hparents]
  exact ⟨rfl, htypes.parents entry (Array.mem_of_getElem? hentry)⟩

theorem closeOnce_eq_ok {found : List TypeId} (h : task.HasTypes found) :
    closeOnce task found = .ok (task.closeOnce found) ∧ task.HasTypes (task.closeOnce found) := by
  refine ⟨?_, hasTypes_addNew h fun type htype => ?_⟩
  · rw [closeOnce, mapM_eq_ok fun type htype => (parentsOf_eq_ok htypes (h type htype)).1,
      Task.closeOnce, List.flatMap_def]
    rfl
  · obtain ⟨type', htype', hmem⟩ := List.mem_flatMap.mp htype
    exact (parentsOf_eq_ok htypes (h type' htype')).2 type hmem

/-- No round leaves the table, so the next one can read the parents of all types found so far. -/
theorem close_eq_ok {rounds : Nat} {found : List TypeId} (h : task.HasTypes found) :
    close task rounds found = .ok (task.close rounds found) := by
  induction rounds generalizing found with
  | zero => rfl
  | succ rounds ih =>
    obtain ⟨honce, hfound⟩ := closeOnce_eq_ok htypes h
    rw [close, honce, Task.close]
    exact ih hfound

theorem hierarchy_eq_ok : hierarchy task = .ok (Hierarchy.ofTask task) := by
  have hrow : ∀ i ∈ List.range task.types.size,
      close task task.types.size [⟨i⟩] = .ok (task.close task.types.size [⟨i⟩]) := fun i hi =>
    close_eq_ok htypes (List.forall_mem_singleton.mpr (List.mem_range.mp hi))
  rw [hierarchy, mapM_eq_ok hrow, Hierarchy.ofTask]
  show Except.ok (Hierarchy.mk _) = Except.ok (Hierarchy.mk _)
  rw [← Array.toList_range, ← Array.toList_map, Array.toArray_toList]

end Hierarchy

section Compatibility

variable {task : Lifted.Task}

/-- The row of the type and the column of the target both exist. -/
theorem isSubtype_eq_ok {type target : TypeId} (htype : type.index < task.types.size)
    (htarget : target.index < task.types.size) :
    isSubtype (Hierarchy.ofTask task) type target =
      .ok ((Hierarchy.ofTask task).isSubtype type target) := by
  have hsize : (Hierarchy.ofTask task).supertypes.size = task.types.size := by
    rw [Hierarchy.ofTask, Array.size_map, Array.size_range]
  rw [← hsize] at htype htarget
  obtain ⟨row, hrow, hread⟩ := exists_read_eq_ok .types htype
  obtain ⟨_, -, hcolumn⟩ := exists_read_eq_ok .types htarget
  rw [isSubtype, hread, hcolumn, Hierarchy.isSubtype, hrow]
  rfl

theorem compatible_eq_ok {types valid : List TypeId} (htypes : task.HasTypes types)
    (hvalid : task.HasTypes valid) : compatible (Hierarchy.ofTask task) types valid =
      .ok ((Hierarchy.ofTask task).compatible types valid) :=
  anyM_eq_ok fun type htype => anyM_eq_ok fun target htarget =>
    isSubtype_eq_ok (htypes type htype) (hvalid target htarget)

variable (htypes : task.HasClosedTypes) {valid : List TypeId} (hvalid : task.HasTypes valid)
include htypes hvalid

/-- An object of the table has types of the table. -/
theorem admits_eq_ok {o : ObjectId} (ho : o.index < task.objects.size) :
    admits (Setting.ofTask task) valid o = .ok ((Setting.ofTask task).admits valid o) := by
  obtain ⟨entry, hentry, hread⟩ := exists_read_eq_ok .objects ho
  have htypesOf : task.typesOf o = entry.types := by
    rw [Task.typesOf, hentry]
    rfl
  show (read .objects task.objects o.index >>= fun entry =>
    compatible (Hierarchy.ofTask task) entry.types valid) =
      .ok ((Hierarchy.ofTask task).compatible (task.typesOf o) valid)
  rw [hread, htypesOf]
  exact compatible_eq_ok (htypes.objects entry (Array.mem_of_getElem? hentry)) hvalid

/-- All objects of the table can be asked. -/
theorem objectsOf_eq_ok :
    objectsOf (Setting.ofTask task) valid = .ok ((Setting.ofTask task).objectsOf valid) := by
  refine select_eq_ok fun o ho => admits_eq_ok htypes hvalid ?_
  obtain ⟨i, hi, rfl⟩ := List.mem_map.mp ho
  exact List.mem_range.mp hi

end Compatibility

end Guarded

/-! ## Valid problems -/

theorem hasTypes_of_check {task : Lifted.Task} {context : String} {types : List TypeId}
    (h : task.checkTypes context types = .ok ()) : task.HasTypes types := fun type htype =>
  of_decide_eq_true (require_eq_ok.mp (check_forM_eq_ok h type htype))

/-- Valid problems refer to types of the table. -/
theorem hasClosedTypes_of_valid {p : Lifted.Problem} (hvalid : p.validate = .ok ()) :
    p.task.HasClosedTypes := by
  obtain ⟨-, h⟩ := check_bind_eq_ok.mp (mapError_eq_ok hvalid)
  obtain ⟨htables, -⟩ := check_bind_eq_ok.mp h
  obtain ⟨htypes, h⟩ := check_bind_eq_ok.mp htables
  obtain ⟨hobjects, -⟩ := check_bind_eq_ok.mp h
  exact ⟨fun entry hentry => hasTypes_of_check
      (check_forM_eq_ok htypes entry (Array.mem_toList_iff.mpr hentry)),
    fun entry hentry => hasTypes_of_check
      (check_forM_eq_ok hobjects entry (Array.mem_toList_iff.mpr hentry))⟩

end TemporalPlanning.Grounding
