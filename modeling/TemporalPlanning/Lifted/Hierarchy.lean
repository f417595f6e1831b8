import TemporalPlanning.Lifted.Basic
/-!
The subtype relation of a task.

A type derives from its parents and from everything its parents derive from. The question whether
one type derives from another is answered in two ways. `Task.derives?` searches upwards from the
subtype and remembers nothing, so on a table whose parents form a cycle it may not end: it leaves the
question open however deep it looks. `Hierarchy` holds the supertypes of every type, collected in
rounds until nothing is new, and answers for every table.
-/
set_option autoImplicit false

namespace TemporalPlanning.Lifted

namespace Task

variable (task : Task)

/-- The direct supertypes of a type. -/
def parentsOf (type : TypeId) : List TypeId := (task.types[type.index]?.map (·.parents)).getD []

/-- Whether a type is another one or derives from it, searched depth first over at most `depth`
levels; `none` if they do not suffice to tell. A type that is its own parent is not searched
again. -/
def derives? : Nat → TypeId → TypeId → Option Bool
  | 0, _, _ => none
  | depth + 1, type, target =>
    if type = target then some true
    else (task.parentsOf type).anyM fun parent =>
      if parent = type then some false else derives? depth parent target

/-- More levels than a search without repetition visits, and than any stack holds: a search that
does not end exhausts the stack, not this number. -/
def searchDepth : Nat := 1 <<< 62 + task.types.size

/-- Whether the search finds that a type is another one or derives from it. There is no answer where
the search does not end. -/
def isSubtype (type target : TypeId) : Bool :=
  (task.derives? task.searchDepth type target).getD false

/-- Whether one of the types is compatible with one of the valid types. -/
def compatibleTypes (types valid : List TypeId) : Bool :=
  types.any fun type => valid.any fun target => task.isSubtype type target

end Task

/-! ## Collected supertypes -/

/-- A list of types extended by those of the candidates that it does not hold yet. -/
def addNew (found candidates : List TypeId) : List TypeId :=
  candidates.foldl (fun found type => if found.contains type then found else found ++ [type]) found

/-- One round: the parents of all types found so far are found as well. -/
def Task.closeOnce (task : Task) (found : List TypeId) : List TypeId :=
  addNew found (found.flatMap task.parentsOf)

/-- The types found after some rounds. -/
def Task.close (task : Task) : Nat → List TypeId → List TypeId
  | 0, found => found
  | rounds + 1, found => close task rounds (task.closeOnce found)

/-- For every type of a task, the type itself and all types it derives from. -/
structure Hierarchy where
  supertypes : Array (List TypeId)

namespace Hierarchy

/-- The hierarchy of a task. Each round but the last finds a new type, so there are at most as
many rounds as types. -/
def ofTask (task : Task) : Hierarchy :=
  ⟨(Array.range task.types.size).map fun i => task.close task.types.size [⟨i⟩]⟩

variable (h : Hierarchy)

/-- Whether a type is another one or derives from it. -/
def isSubtype (type target : TypeId) : Bool :=
  (h.supertypes[type.index]?.getD []).contains target

/-- Whether one of the types is compatible with one of the valid types. -/
def compatible (types valid : List TypeId) : Bool :=
  types.any fun type => valid.any fun target => h.isSubtype type target

end Hierarchy

/-- The objects of a task that have one of the valid types, in the order of the table. -/
def Task.objectsOf (task : Task) (h : Hierarchy) (valid : List TypeId) : List ObjectId :=
  ((List.range task.objects.size).map ObjectId.mk).filter fun o =>
    h.compatible (task.typesOf o) valid

end TemporalPlanning.Lifted
