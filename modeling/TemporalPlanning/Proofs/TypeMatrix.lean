import Mathlib.Logic.Relation
import TemporalPlanning.Lifted.Hierarchy
import TemporalPlanning.Proofs.FlatTables
import TemporalPlanning.Proofs.Grounding.Guarded.Types
/-!
Supertypes as a flat matrix.

The types from which a type derives can be marked in a matrix with a row for every type. A row is
filled depth first: a supertype is marked, then its parents are visited in turn, and what is marked
already is not visited again. So the parents of what is being visited are missing for a while; what
holds at every moment is that nothing is marked without reason, and what holds when a visit ends is
that everything that it has marked has marked parents (`TypeMatrix.Visits`). Rows do not share
positions, so a row that has been filled stays as it is, and it holds exactly the types from which
its type derives.
-/
set_option autoImplicit false

namespace TemporalPlanning.Lifted

open Relation

/-! ## Deriving from a type -/

namespace Task

variable {task : Task} {type target : TypeId}

/-- A type is another one or derives from it. -/
def Derives (task : Task) : TypeId → TypeId → Prop :=
  ReflTransGen fun type parent => parent ∈ task.parentsOf type

theorem hasTypes_parentsOf (hclosed : task.HasClosedTypes) (type : TypeId) :
    task.HasTypes (task.parentsOf type) := by
  intro p hp
  rw [parentsOf] at hp
  cases hentry : task.types[type.index]? with
  | none =>
    rw [hentry] at hp
    cases hp
  | some entry =>
    rw [hentry] at hp
    exact hclosed.parents entry (Array.mem_of_getElem? hentry) p hp

theorem Derives.lt_size (hclosed : task.HasClosedTypes) (h : task.Derives type target)
    (htype : type.index < task.types.size) : target.index < task.types.size := by
  rcases ReflTransGen.cases_tail h with rfl | ⟨p, -, hp⟩
  · exact htype
  · exact hasTypes_parentsOf hclosed p target hp

end Task

/-! ## The matrix -/

/-- Whether the first type of a pair derives from the second, for all pairs in their order. -/
structure TypeMatrix where
  size : Nat
  marks : Array Bool

namespace TypeMatrix

/-- The matrix for some number of types in which nothing is marked. -/
def blank (size : Nat) : TypeMatrix := ⟨size, Array.replicate (size * size) false⟩

variable (m : TypeMatrix)

/-- The position of a pair. -/
def position (type supertype : TypeId) : Nat := type.index * m.size + supertype.index

/-- Whether a type is marked to derive from another one. -/
def isSubtype (type target : TypeId) : Bool := m.marks.getD (m.position type target) false

/-- Marks a type to derive from another one. -/
def mark (type supertype : TypeId) : TypeMatrix :=
  { m with marks := m.marks.setIfInBounds (m.position type supertype) true }

/-- Whether one of the types is marked to derive from one of the valid types. -/
def compatible (types valid : List TypeId) : Bool :=
  types.any fun type => valid.any fun target => m.isSubtype type target

/-- Marks a supertype in the row of a type and then visits its parents, unless it is marked. Each
level of the recursion sets a mark, so there are no more levels than marks to be set. -/
def visit (task : Task) (type : TypeId) : Nat → TypeMatrix → TypeId → TypeMatrix
  | 0, m, _ => m
  | depth + 1, m, supertype =>
    if m.isSubtype type supertype then m
    else (task.parentsOf supertype).foldl (visit task type depth) (m.mark type supertype)

/-- Fills the row of a type. -/
def addRow (task : Task) (m : TypeMatrix) (type : TypeId) : TypeMatrix :=
  visit task type (m.marks.size + 1) m type

/-- The matrix of a task, filled row by row. -/
def ofTask (task : Task) : TypeMatrix :=
  ((List.range task.types.size).map TypeId.mk).foldl (addRow task) (blank task.types.size)

/-! ## Setting marks -/

/-- There is a position for every pair of types of a task. -/
structure IsOver (task : Task) (m : TypeMatrix) : Prop where
  size : m.size = task.types.size
  marks : m.marks.size = task.types.size * task.types.size

/-- The number of marks that are not set. -/
def blanks (m : TypeMatrix) : Nat := m.marks.count false

variable {m m' m'' : TypeMatrix} {task : Task} {type s t u : TypeId}

theorem isOver_blank (task : Task) : (blank task.types.size).IsOver task :=
  ⟨rfl, Array.size_replicate⟩

theorem isSubtype_blank (size : Nat) (s t : TypeId) : (blank size).isSubtype s t = false :=
  getD_replicate _ _ _

theorem IsOver.position_lt (h : m.IsOver task) (htype : type.index < task.types.size)
    (hu : u.index < task.types.size) : m.position type u < m.marks.size := by
  rw [position, h.size, h.marks]
  exact code_lt_mul htype hu

theorem IsOver.mark (h : m.IsOver task) (type u : TypeId) : (m.mark type u).IsOver task :=
  ⟨h.size, Array.size_setIfInBounds.trans h.marks⟩

/-- A mark concerns one pair. -/
theorem IsOver.isSubtype_mark_iff (h : m.IsOver task) (hu : u.index < task.types.size)
    (ht : t.index < task.types.size) (htype : type.index < task.types.size) :
    (m.mark type u).isSubtype s t = true ↔ m.isSubtype s t = true ∨ (s = type ∧ t = u) := by
  rw [isSubtype, isSubtype, TypeMatrix.mark, getD_set_true_iff]
  refine or_congr_right ⟨fun hplace => ?_, ?_⟩
  · have hcode : type.index * m.size + u.index = s.index * m.size + t.index := hplace.1
    rw [h.size] at hcode
    obtain ⟨htypes, hsupertypes⟩ := code_inj hu ht hcode
    exact ⟨congrArg TypeId.mk htypes.symm, congrArg TypeId.mk hsupertypes.symm⟩
  · rintro ⟨rfl, rfl⟩
    exact ⟨rfl, h.position_lt htype ht⟩

theorem IsOver.blanks_mark_lt (h : m.IsOver task) (hu : u.index < task.types.size)
    (htype : type.index < task.types.size) (hnew : ¬m.isSubtype type u = true) :
    (m.mark type u).blanks < m.blanks := by
  have hlt := h.position_lt htype hu
  refine count_false_set_lt_of_getD fun hmarked => hnew ?_
  rw [Array.getD_eq_getD_getElem?, Array.getElem?_eq_getElem hlt] at hmarked
  rw [isSubtype, Array.getD_eq_getD_getElem?, Array.getElem?_eq_getElem hlt]
  exact hmarked

/-! ## Visits -/

/-- What visiting some types does to a row. They are marked, nothing is marked that they do not
derive from, and whatever has been marked has marked parents. -/
structure Visits (task : Task) (type : TypeId) (starts : List TypeId) (m m' : TypeMatrix) :
    Prop where
  isOver : m'.IsOver task
  blanks : m'.blanks ≤ m.blanks
  keeps : ∀ s t, t.index < task.types.size → m.isSubtype s t = true → m'.isSubtype s t = true
  reached : ∀ t ∈ starts, m'.isSubtype type t = true
  sound : ∀ s t, t.index < task.types.size → m'.isSubtype s t = true →
    m.isSubtype s t = true ∨ (s = type ∧ ∃ u ∈ starts, task.Derives u t)
  closed : ∀ t, t.index < task.types.size → m'.isSubtype type t = true →
    m.isSubtype type t = true ∨ ∀ p ∈ task.parentsOf t, m'.isSubtype type p = true

namespace Visits

/-- What is marked need not be visited. -/
theorem refl {starts : List TypeId} (h : m.IsOver task)
    (hstarts : ∀ t ∈ starts, m.isSubtype type t = true) : Visits task type starts m m where
  isOver := h
  blanks := Nat.le_refl _
  keeps _ _ _ hmarked := hmarked
  reached := hstarts
  sound _ _ _ hmarked := Or.inl hmarked
  closed _ _ hmarked := Or.inl hmarked

/-- One visit after another. -/
theorem cons {starts : List TypeId} (hclosed : task.HasClosedTypes)
    (hstart : t.index < task.types.size) (hfirst : Visits task type [t] m m')
    (hrest : Visits task type starts m' m'') : Visits task type (t :: starts) m m'' where
  isOver := hrest.isOver
  blanks := Nat.le_trans hrest.blanks hfirst.blanks
  keeps s u hu hmarked := hrest.keeps s u hu (hfirst.keeps s u hu hmarked)
  reached u hu := by
    rcases List.mem_cons.mp hu with rfl | hu
    · exact hrest.keeps type u hstart (hfirst.reached u (List.mem_singleton_self u))
    · exact hrest.reached u hu
  sound s u hu hmarked := by
    rcases hrest.sound s u hu hmarked with hmarked | ⟨hs, v, hv, hderives⟩
    · refine (hfirst.sound s u hu hmarked).imp_right fun ⟨hs, v, hv, hderives⟩ => ?_
      rw [List.mem_singleton.mp hv] at hderives
      exact ⟨hs, t, List.mem_cons_self, hderives⟩
    · exact Or.inr ⟨hs, v, List.mem_cons_of_mem t hv, hderives⟩
  closed u hu hmarked := by
    rcases hrest.closed u hu hmarked with hmarked | hparents
    · refine (hfirst.closed u hu hmarked).imp_right fun hparents p hp => ?_
      exact hrest.keeps type p (Task.hasTypes_parentsOf hclosed u p hp) (hparents p hp)
    · exact Or.inr hparents

/-- A type is visited by marking it and visiting its parents. -/
theorem of_mark (hm : m.IsOver task) (ht : t.index < task.types.size)
    (htype : type.index < task.types.size) (hnew : ¬m.isSubtype type t = true)
    (h : Visits task type (task.parentsOf t) (m.mark type t) m') : Visits task type [t] m m' where
  isOver := h.isOver
  blanks := Nat.le_trans h.blanks (Nat.le_of_lt (hm.blanks_mark_lt ht htype hnew))
  keeps s u hu hmarked :=
    h.keeps s u hu ((hm.isSubtype_mark_iff ht hu htype).mpr (Or.inl hmarked))
  reached u hu := by
    rw [List.mem_singleton.mp hu]
    exact h.keeps type t ht ((hm.isSubtype_mark_iff ht ht htype).mpr (Or.inr ⟨rfl, rfl⟩))
  sound s u hu hmarked := by
    rcases h.sound s u hu hmarked with hmarked | ⟨hs, p, hp, hderives⟩
    · refine ((hm.isSubtype_mark_iff ht hu htype).mp hmarked).imp_right fun ⟨hs, heq⟩ => ?_
      exact ⟨hs, t, List.mem_singleton_self t, heq ▸ ReflTransGen.refl⟩
    · exact Or.inr ⟨hs, t, List.mem_singleton_self t, ReflTransGen.head hp hderives⟩
  closed u hu hmarked := by
    rcases h.closed u hu hmarked with hmarked | hparents
    · -- the only new mark is the one whose parents have been visited
      refine ((hm.isSubtype_mark_iff ht hu htype).mp hmarked).imp_right fun ⟨_, heq⟩ => ?_
      rw [heq]
      exact h.reached
    · exact Or.inr hparents

end Visits

/-- Visiting the types of a list one after the other, each of them by itself. -/
theorem visits_foldl {depth : Nat} (hclosed : task.HasClosedTypes)
    (hvisit : ∀ (m : TypeMatrix) (t : TypeId), m.IsOver task → t.index < task.types.size →
      m.blanks < depth → Visits task type [t] m (visit task type depth m t))
    {starts : List TypeId} (hm : m.IsOver task) (hstarts : task.HasTypes starts)
    (hdepth : m.blanks < depth) :
    Visits task type starts m (starts.foldl (visit task type depth) m) := by
  induction starts generalizing m with
  | nil => exact .refl hm (List.forall_mem_nil _)
  | cons t rest ih =>
    obtain ⟨ht, hrest⟩ := List.forall_mem_cons.mp hstarts
    have hfirst := hvisit m t hm ht hdepth
    exact hfirst.cons hclosed ht
      (ih hfirst.isOver hrest (Nat.lt_of_le_of_lt hfirst.blanks hdepth))

/-- **A visit marks what a type derives from**, if there are as many levels as marks to be set. -/
theorem visits_visit (hclosed : task.HasClosedTypes) (htype : type.index < task.types.size)
    (depth : Nat) (m : TypeMatrix) (t : TypeId) (hm : m.IsOver task)
    (ht : t.index < task.types.size) (hdepth : m.blanks < depth) :
    Visits task type [t] m (visit task type depth m t) := by
  induction depth generalizing m t with
  | zero => exact absurd hdepth (Nat.not_lt_zero _)
  | succ depth ih =>
    unfold visit
    split
    next hmarked => exact .refl hm (List.forall_mem_singleton.mpr hmarked)
    next hnew =>
      -- the new mark makes up for the level
      have hlt := hm.blanks_mark_lt ht htype hnew
      exact .of_mark hm ht htype hnew (visits_foldl hclosed ih (hm.mark type t)
        (Task.hasTypes_parentsOf hclosed t) (by omega))

/-! ## Rows -/

/-- There are enough levels to fill a row. -/
theorem visits_addRow (hclosed : task.HasClosedTypes) (hm : m.IsOver task)
    (htype : type.index < task.types.size) :
    Visits task type [type] m (addRow task m type) :=
  visits_visit hclosed htype _ m type hm htype (Nat.lt_succ_of_le Array.count_le_size)

/-- A row that has been filled holds the types from which its type derives, and the other rows stay
as they are. -/
theorem addRow_isSubtype_iff (hclosed : task.HasClosedTypes) (hm : m.IsOver task)
    (htype : type.index < task.types.size)
    (hblank : ∀ t, t.index < task.types.size → m.isSubtype type t = false)
    (ht : t.index < task.types.size) : (addRow task m type).isSubtype s t = true ↔
      (s = type ∧ task.Derives type t) ∨ (s ≠ type ∧ m.isSubtype s t = true) := by
  have h := visits_addRow hclosed hm htype
  constructor
  · intro hmarked
    rcases h.sound s t ht hmarked with hold | ⟨hs, u, hu, hderives⟩
    · refine Or.inr ⟨fun hs => ?_, hold⟩
      rw [hs, hblank t ht] at hold
      cases hold
    · rw [List.mem_singleton.mp hu] at hderives
      exact Or.inl ⟨hs, hderives⟩
  · rintro (⟨rfl, hderives⟩ | ⟨-, hold⟩)
    · induction hderives with
      | refl => exact h.reached s (List.mem_singleton_self s)
      | @tail p t hpath hparent ih =>
        have hp : p.index < task.types.size := Task.Derives.lt_size hclosed hpath htype
        rcases h.closed p hp (ih hp) with hold | hparents
        · rw [hblank p hp] at hold
          cases hold
        · exact hparents t hparent
    · exact h.keeps s t ht hold

theorem isSubtype_foldl_addRow (hclosed : task.HasClosedTypes) {types : List TypeId}
    (htypes : task.HasTypes types) (hnodup : types.Nodup) (hm : m.IsOver task)
    (hblank : ∀ s ∈ types, ∀ t, t.index < task.types.size → m.isSubtype s t = false)
    (ht : t.index < task.types.size) : (types.foldl (addRow task) m).isSubtype s t = true ↔
      (s ∈ types ∧ task.Derives s t) ∨ (s ∉ types ∧ m.isSubtype s t = true) := by
  induction types generalizing m with
  | nil => simp
  | cons type rest ih =>
    obtain ⟨htype, hrest⟩ := List.forall_mem_cons.mp htypes
    obtain ⟨hnew, hnodup⟩ := List.nodup_cons.mp hnodup
    have hrow := fun {s t : TypeId} => addRow_isSubtype_iff (s := s) (t := t) hclosed hm htype
      (hblank type List.mem_cons_self)
    rw [List.foldl_cons, ih hrest hnodup (visits_addRow hclosed hm htype).isOver, hrow ht,
      List.mem_cons]
    · by_cases hs : s = type
      · subst hs
        simp [hnew]
      · simp [hs]
    · intro s hs t ht
      rw [← Bool.not_eq_true, hrow ht]
      rintro (⟨rfl, -⟩ | ⟨-, hold⟩)
      · exact hnew hs
      · rw [hblank s (List.mem_cons_of_mem type hs) t ht] at hold
        cases hold

/-- **The matrix of a task** tells for all its types whether one derives from the other. -/
theorem isSubtype_ofTask_iff (hclosed : task.HasClosedTypes) (hs : s.index < task.types.size)
    (ht : t.index < task.types.size) :
    (ofTask task).isSubtype s t = true ↔ task.Derives s t := by
  have htypes : task.HasTypes ((List.range task.types.size).map TypeId.mk) := by
    intro u hu
    obtain ⟨i, hi, rfl⟩ := List.mem_map.mp hu
    exact List.mem_range.mp hi
  have hnodup : ((List.range task.types.size).map TypeId.mk).Nodup :=
    List.Pairwise.map TypeId.mk (fun _ _ hne heq => hne (TypeId.mk.inj heq)) List.nodup_range
  have hmem : s ∈ (List.range task.types.size).map TypeId.mk :=
    List.mem_map.mpr ⟨s.index, List.mem_range.mpr hs, rfl⟩
  rw [ofTask, isSubtype_foldl_addRow hclosed htypes hnodup (isOver_blank task)
    (fun u _ v _ => isSubtype_blank _ u v) ht]
  simp [hmem]

end TypeMatrix

end TemporalPlanning.Lifted
