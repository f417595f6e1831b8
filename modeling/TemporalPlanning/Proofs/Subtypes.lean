import Mathlib.Data.List.Nodup
import Mathlib.Data.List.Perm.Subperm
import TemporalPlanning.Proofs.TypeMatrix
/-!
The two subtype tests.

A hierarchy answers for every valid table whether one type derives from another: each round finds a
new type or nothing is left to be found, and there are as many rounds as types. So does the flat
matrix, which holds the same relation. The search from the subtype upwards never gives a wrong
answer, but it may give none. It goes on for ever exactly if it comes back to a type that it is just
searching, which takes a cycle of at least two types.
-/
set_option autoImplicit false

namespace TemporalPlanning.Lifted

open Relation

namespace Task

variable {task : Task} {type parent target : TypeId}

/-! ## Collected supertypes -/

theorem mem_addNew {found candidates : List TypeId} :
    type ∈ addNew found candidates ↔ type ∈ found ∨ type ∈ candidates := by
  unfold addNew
  induction candidates generalizing found with
  | nil => simp only [List.foldl_nil, List.not_mem_nil, or_false]
  | cons candidate rest ih =>
    rw [List.foldl_cons, ih, List.mem_cons]
    split
    next h =>
      have hfound := List.contains_iff_mem.mp h
      grind
    · rw [List.mem_append, List.mem_singleton, or_assoc]

theorem mem_closeOnce {found : List TypeId} :
    type ∈ task.closeOnce found ↔ type ∈ found ∨ ∃ t ∈ found, type ∈ task.parentsOf t := by
  rw [closeOnce, mem_addNew, List.mem_flatMap]

theorem addNew_eq_self {found candidates : List TypeId} (h : ∀ t ∈ candidates, t ∈ found) :
    addNew found candidates = found := by
  unfold addNew
  induction candidates with
  | nil => rfl
  | cons candidate rest ih =>
    obtain ⟨hfirst, hrest⟩ := List.forall_mem_cons.mp h
    rw [List.foldl_cons, if_pos (List.contains_iff_mem.mpr hfirst)]
    exact ih hrest

theorem nodup_addNew {found : List TypeId} (candidates : List TypeId) (h : found.Nodup) :
    (addNew found candidates).Nodup := by
  unfold addNew
  induction candidates generalizing found with
  | nil => exact h
  | cons candidate rest ih =>
    rw [List.foldl_cons]
    split
    · exact ih h
    next hnew =>
      refine ih (h.append (List.nodup_singleton _) (List.disjoint_singleton.mpr fun hmem => ?_))
      exact hnew (List.contains_iff_mem.mpr hmem)

/-- All parents of the types of a list are in the list. -/
def IsUpwardClosed (task : Task) (found : List TypeId) : Prop :=
  ∀ t ∈ found, ∀ p ∈ task.parentsOf t, p ∈ found

theorem closeOnce_of_isUpwardClosed {found : List TypeId} (h : task.IsUpwardClosed found) :
    task.closeOnce found = found :=
  addNew_eq_self fun p hp =>
    let ⟨t, ht, hp⟩ := List.mem_flatMap.mp hp
    h t ht p hp

theorem close_of_isUpwardClosed {found : List TypeId} (h : task.IsUpwardClosed found)
    (rounds : Nat) : task.close rounds found = found := by
  induction rounds with
  | zero => rfl
  | succ rounds ih => rw [close, closeOnce_of_isUpwardClosed h, ih]

/-- A round that finds nothing new is the last one, and every other one finds a type. -/
theorem isUpwardClosed_close_or_le {found : List TypeId} (rounds : Nat) (h : found.Nodup) :
    task.IsUpwardClosed (task.close rounds found) ∨
      found.length + rounds ≤ (task.close rounds found).length := by
  induction rounds generalizing found with
  | zero => exact Or.inr (Nat.le_refl _)
  | succ rounds ih =>
    by_cases hclosed : task.IsUpwardClosed found
    · rw [close_of_isUpwardClosed hclosed]
      exact Or.inl hclosed
    · refine (ih (nodup_addNew _ h)).imp_right fun hle => Nat.le_trans ?_ hle
      obtain ⟨t, ht, p, hp, hnew⟩ : ∃ t ∈ found, ∃ p ∈ task.parentsOf t, p ∉ found := by
        simpa only [IsUpwardClosed, not_forall, exists_prop] using hclosed
      have hsubset : (p :: found) ⊆ task.closeOnce found :=
        List.cons_subset.mpr ⟨mem_closeOnce.mpr (Or.inr ⟨t, ht, hp⟩),
          fun _ h => mem_closeOnce.mpr (Or.inl h)⟩
      have hlength : found.length + 1 ≤ (task.closeOnce found).length :=
        (List.subperm_of_subset (List.nodup_cons.mpr ⟨hnew, h⟩) hsubset).length_le
      show found.length + (rounds + 1) ≤ (task.closeOnce found).length + rounds
      omega

theorem mem_close_of_mem {found : List TypeId} (rounds : Nat) (h : type ∈ found) :
    type ∈ task.close rounds found := by
  induction rounds generalizing found with
  | zero => exact h
  | succ rounds ih => exact ih (mem_closeOnce.mpr (Or.inl h))

theorem derives_of_mem_close {found : List TypeId} {rounds : Nat}
    (h : target ∈ task.close rounds found) : ∃ t ∈ found, task.Derives t target := by
  induction rounds generalizing found with
  | zero => exact ⟨target, h, ReflTransGen.refl⟩
  | succ rounds ih =>
    obtain ⟨t, ht, hderives⟩ := ih h
    rcases mem_closeOnce.mp ht with ht | ⟨s, hs, hparent⟩
    · exact ⟨t, ht, hderives⟩
    · exact ⟨s, hs, ReflTransGen.head hparent hderives⟩

theorem nodup_close {found : List TypeId} (rounds : Nat) (h : found.Nodup) :
    (task.close rounds found).Nodup := by
  induction rounds generalizing found with
  | zero => exact h
  | succ rounds ih => exact ih (nodup_addNew _ h)

/-- Different types of a table are not more than the table has. -/
theorem length_le_of_nodup {types : List TypeId} (hnodup : types.Nodup)
    (h : task.HasTypes types) : types.length ≤ task.types.size := by
  have hindices : (types.map TypeId.index).Nodup :=
    hnodup.map fun s t (heq : s.index = t.index) => congrArg TypeId.mk heq
  have hsubset : types.map TypeId.index ⊆ List.range task.types.size := by
    intro i hi
    obtain ⟨t, ht, rfl⟩ := List.mem_map.mp hi
    exact List.mem_range.mpr (h t ht)
  have hlength := (List.subperm_of_subset hindices hsubset).length_le
  rwa [List.length_map, List.length_range] at hlength

theorem hasTypes_close (hclosed : task.HasClosedTypes) {found : List TypeId} (rounds : Nat)
    (h : task.HasTypes found) : task.HasTypes (task.close rounds found) := by
  intro t ht
  obtain ⟨s, hs, hderives⟩ := derives_of_mem_close ht
  exact hderives.lt_size hclosed (h s hs)

/-- As many rounds as there are types find all supertypes of a type. -/
theorem isUpwardClosed_close (hclosed : task.HasClosedTypes)
    (htype : type.index < task.types.size) :
    task.IsUpwardClosed (task.close task.types.size [type]) := by
  have hnodup : [type].Nodup := List.nodup_singleton type
  refine (isUpwardClosed_close_or_le task.types.size hnodup).resolve_right fun hle => ?_
  have hlength := length_le_of_nodup (nodup_close task.types.size hnodup)
    (hasTypes_close hclosed task.types.size (List.forall_mem_singleton.mpr htype))
  rw [List.length_singleton] at hle
  omega

/-! ## The search -/

/-- The search for a target goes on from a type to one of its parents: the type is not the target,
and no earlier parent derives from the target. -/
def Asks (task : Task) (target type parent : TypeId) : Prop :=
  type ≠ target ∧ parent ≠ type ∧ ∃ before after,
    task.parentsOf type = before ++ parent :: after ∧
      ∀ p ∈ before, p ≠ type → ¬task.Derives p target

/-- The search for a target comes back to a type that it is just searching. -/
def IsEndless (task : Task) (target type : TypeId) : Prop :=
  ∃ t, ReflTransGen (task.Asks target) type t ∧ TransGen (task.Asks target) t t

theorem Asks.mem (h : task.Asks target type parent) : parent ∈ task.parentsOf type := by
  obtain ⟨-, -, before, after, heq, -⟩ := h
  rw [heq]
  exact List.mem_append_right before List.mem_cons_self

/-- What a test that may leave questions open finds in a list. -/
theorem anyM_eq_some {α : Type} {test : α → Option Bool} {P : α → Prop} {l : List α} {found : Bool}
    (htest : ∀ a ∈ l, ∀ b, test a = some b → (b = true ↔ P a)) (h : l.anyM test = some found) :
    found = true ↔ ∃ a ∈ l, P a := by
  induction l with
  | nil =>
    cases h
    simp only [Bool.false_eq_true, List.not_mem_nil, false_and, exists_false]
  | cons a l ih =>
    rw [List.anyM_cons] at h
    obtain ⟨first, hfirst, h⟩ := Option.bind_eq_some_iff.mp h
    rw [List.exists_mem_cons_iff, ← htest a List.mem_cons_self first hfirst]
    cases first with
    | true =>
      cases h
      simp only [true_or]
    | false =>
      rw [ih (fun b hb => htest b (List.mem_cons_of_mem a hb)) h]
      simp only [Bool.false_eq_true, false_or]

/-- An element is looked at if nothing is found before it. -/
theorem exists_test_of_anyM {α : Type} {test : α → Option Bool} {before after : List α} {a : α}
    {found : Bool} (h : (before ++ a :: after).anyM test = some found)
    (hbefore : ∀ b ∈ before, test b ≠ some true) : ∃ b, test a = some b := by
  induction before with
  | nil =>
    rw [List.nil_append, List.anyM_cons] at h
    obtain ⟨first, hfirst, -⟩ := Option.bind_eq_some_iff.mp h
    exact ⟨first, hfirst⟩
  | cons c before ih =>
    obtain ⟨hc, hbefore⟩ := List.forall_mem_cons.mp hbefore
    rw [List.cons_append, List.anyM_cons] at h
    obtain ⟨first, hfirst, h⟩ := Option.bind_eq_some_iff.mp h
    cases first with
    | true => exact absurd hfirst hc
    | false => exact ih h hbefore

/-- A list is decided if every element is that is looked at. -/
theorem exists_anyM_eq_some {α : Type} {test : α → Option Bool} {l : List α}
    (h : ∀ before a after, l = before ++ a :: after → (∀ b ∈ before, test b = some false) →
      ∃ b, test a = some b) : ∃ found, l.anyM test = some found := by
  induction l with
  | nil => exact ⟨false, rfl⟩
  | cons a l ih =>
    obtain ⟨first, hfirst⟩ := h [] a l rfl (List.forall_mem_nil _)
    rw [List.anyM_cons, hfirst]
    cases first with
    | true => exact ⟨true, rfl⟩
    | false =>
      refine ih fun before b after heq hbefore => h (a :: before) b after ?_ ?_
      · rw [heq, List.cons_append]
      · exact List.forall_mem_cons.mpr ⟨hfirst, hbefore⟩

/-- What is asked of a parent. -/
def parentAnswer (task : Task) (depth : Nat) (type target parent : TypeId) : Option Bool :=
  if parent = type then some false else task.derives? depth parent target

theorem derives?_succ_of_ne {depth : Nat} (h : type ≠ target) :
    task.derives? (depth + 1) type target =
      (task.parentsOf type).anyM (task.parentAnswer depth type target) := by
  rw [derives?, if_neg h]
  rfl

/-- A type derives from another one if one of its parents does, itself apart. -/
theorem derives_iff_of_ne (h : type ≠ target) : task.Derives type target ↔
    ∃ p ∈ task.parentsOf type, p ≠ type ∧ task.Derives p target := by
  constructor
  · intro hderives
    -- a path that starts with a type that is its own parent can be cut short
    induction hderives using ReflTransGen.head_induction_on with
    | refl => exact absurd rfl h
    | head hparent hrest ih =>
      rename_i t p
      by_cases heq : p = t
      · subst heq
        exact ih h
      · exact ⟨p, hparent, heq, hrest⟩
  · rintro ⟨p, hp, -, hderives⟩
    exact ReflTransGen.head hp hderives

/-- **The search is never wrong.** -/
theorem derives_iff_of_derives?_eq_some {depth : Nat} {found : Bool}
    (h : task.derives? depth type target = some found) :
    found = true ↔ task.Derives type target := by
  induction depth generalizing type found with
  | zero => cases h
  | succ depth ih =>
    by_cases heq : type = target
    · rw [derives?, if_pos heq] at h
      cases h
      exact iff_of_true rfl (heq ▸ ReflTransGen.refl)
    · rw [derives?_succ_of_ne heq] at h
      rw [derives_iff_of_ne heq]
      refine anyM_eq_some (fun p hp b hb => ?_) h
      rw [parentAnswer] at hb
      split at hb
      next hself =>
        cases hb
        simp only [Bool.false_eq_true, hself, ne_eq, not_true_eq_false, false_and]
      next hother => rw [ih hb, ne_eq, and_iff_right hother]

/-- An endless search goes on from some parent. -/
theorem IsEndless.exists_asks (h : task.IsEndless target type) :
    ∃ p, task.Asks target type p ∧ task.IsEndless target p := by
  obtain ⟨t, hpath, hcycle⟩ := h
  rcases ReflTransGen.cases_head hpath with rfl | ⟨p, hp, hpath⟩
  · obtain ⟨p, hp, hback⟩ := TransGen.head'_iff.mp hcycle
    exact ⟨p, hp, type, hback, hcycle⟩
  · exact ⟨p, hp, t, hpath, hcycle⟩

/-- **An endless search leaves the question open** at every depth. -/
theorem derives?_of_isEndless (h : task.IsEndless target type) (depth : Nat) :
    task.derives? depth type target = none := by
  induction depth generalizing type with
  | zero => rfl
  | succ depth ih =>
    obtain ⟨p, ⟨hne, hself, before, after, heq, hbefore⟩, hendless⟩ := h.exists_asks
    rw [derives?_succ_of_ne hne, heq, Option.eq_none_iff_forall_ne_some]
    intro found hfound
    obtain ⟨b, hb⟩ := exists_test_of_anyM hfound fun q hq htrue => by
      rw [parentAnswer] at htrue
      split at htrue
      · cases htrue
      next hother =>
        exact hbefore q hq hother ((derives_iff_of_derives?_eq_some htrue).mp rfl)
    rw [parentAnswer, if_neg hself, ih hendless] at hb
    cases hb

theorem not_isEndless_of_asks (h : ¬task.IsEndless target type)
    (hasks : task.Asks target type parent) : ¬task.IsEndless target parent :=
  fun ⟨t, hpath, hcycle⟩ => h ⟨t, ReflTransGen.head hasks hpath, hcycle⟩

/-- A search that does not come back to the types of its path is at most as deep as there are types
that are not on the path. -/
theorem exists_derives?_eq_some (hclosed : task.HasClosedTypes) {path : List TypeId} {depth : Nat}
    (hnodup : path.Nodup) (hpath : task.HasTypes path) (htype : type.index < task.types.size)
    (hleads : ∀ t ∈ path, TransGen (task.Asks target) t type)
    (hends : ¬task.IsEndless target type) (hdepth : task.types.size ≤ path.length + depth) :
    ∃ found, task.derives? depth type target = some found := by
  have hnew : type ∉ path := fun hmem => hends ⟨type, ReflTransGen.refl, hleads type hmem⟩
  have hnodup' : (type :: path).Nodup := List.nodup_cons.mpr ⟨hnew, hnodup⟩
  have hpath' : task.HasTypes (type :: path) := List.forall_mem_cons.mpr ⟨htype, hpath⟩
  induction depth generalizing type path with
  | zero =>
    have hlength := length_le_of_nodup hnodup' hpath'
    rw [List.length_cons] at hlength
    omega
  | succ depth ih =>
    by_cases heq : type = target
    · exact ⟨true, by rw [derives?, if_pos heq]⟩
    rw [derives?_succ_of_ne heq]
    refine exists_anyM_eq_some fun before p after hparents hbefore => ?_
    rw [parentAnswer]
    split
    · exact ⟨false, rfl⟩
    next hself =>
      have hasks : task.Asks target type p :=
        ⟨heq, hself, before, after, hparents, fun q hq hother hderives => by
          have hanswer := hbefore q hq
          rw [parentAnswer, if_neg hother] at hanswer
          exact Bool.false_ne_true ((derives_iff_of_derives?_eq_some hanswer).mpr hderives)⟩
      have hleads' : ∀ t ∈ type :: path, TransGen (task.Asks target) t p :=
        List.forall_mem_cons.mpr ⟨TransGen.single hasks, fun t ht => (hleads t ht).tail hasks⟩
      have hends' := not_isEndless_of_asks hends hasks
      have hnew' : p ∉ type :: path := fun hmem =>
        hends' ⟨p, ReflTransGen.refl, hleads' p hmem⟩
      have htype' := hasTypes_parentsOf hclosed type p hasks.mem
      refine ih hnodup' hpath' htype' hleads' hends' ?_ hnew' (List.nodup_cons.mpr ⟨hnew', hnodup'⟩)
        (List.forall_mem_cons.mpr ⟨htype', hpath'⟩)
      rw [List.length_cons]
      omega

/-- An endless search has found a cycle of at least two types above its start. -/
theorem IsEndless.exists_cycle (h : task.IsEndless target type) : ∃ t, task.Derives type t ∧
    TransGen (fun s p => p ∈ task.parentsOf s ∧ p ≠ s) t t := by
  obtain ⟨t, hpath, hcycle⟩ := h
  refine ⟨t, hpath.lift id fun _ _ hasks => hasks.mem, hcycle.lift id fun _ _ hasks => ?_⟩
  exact ⟨hasks.mem, hasks.2.1⟩

end Task

/-! ## Both tests -/

/-- The supertypes that a hierarchy holds for a type are the types that it derives from. -/
theorem Hierarchy.isSubtype_ofTask_iff {task : Task} (hclosed : task.HasClosedTypes)
    {type target : TypeId} (htype : type.index < task.types.size) :
    (Hierarchy.ofTask task).isSubtype type target = true ↔ task.Derives type target := by
  have hrow : (Hierarchy.ofTask task).supertypes[type.index]? =
      some (task.close task.types.size [type]) := by
    rw [Hierarchy.ofTask, Array.getElem?_map, Array.getElem?_range, if_pos htype]
    rfl
  rw [Hierarchy.isSubtype, hrow, Option.getD_some, List.contains_iff_mem]
  constructor
  · intro h
    obtain ⟨t, ht, hderives⟩ := Task.derives_of_mem_close h
    rwa [List.mem_singleton.mp ht] at hderives
  · intro hderives
    induction hderives with
    | refl => exact Task.mem_close_of_mem _ List.mem_cons_self
    | tail _ hparent ih => exact Task.isUpwardClosed_close hclosed htype _ ih _ hparent

/-- The matrix of a task gives the answers of its hierarchy. -/
theorem TypeMatrix.isSubtype_ofTask {task : Task} (hclosed : task.HasClosedTypes)
    {type target : TypeId} (htype : type.index < task.types.size)
    (htarget : target.index < task.types.size) :
    (TypeMatrix.ofTask task).isSubtype type target =
      (Hierarchy.ofTask task).isSubtype type target := by
  rw [Bool.eq_iff_iff, TypeMatrix.isSubtype_ofTask_iff hclosed htype htarget]
  exact (Hierarchy.isSubtype_ofTask_iff hclosed htype).symm

/-- So the same objects are compatible with the parameters. -/
theorem TypeMatrix.compatible_ofTask {task : Task} (hclosed : task.HasClosedTypes)
    {types valid : List TypeId} (htypes : task.HasTypes types) (hvalid : task.HasTypes valid) :
    (TypeMatrix.ofTask task).compatible types valid =
      (Hierarchy.ofTask task).compatible types valid := by
  rw [Bool.eq_iff_iff, TypeMatrix.compatible, Hierarchy.compatible]
  simp only [List.any_eq_true]
  refine exists_congr fun type => and_congr_right fun htype => exists_congr fun target =>
    and_congr_right fun htarget => ?_
  rw [TypeMatrix.isSubtype_ofTask hclosed (htypes type htype) (hvalid target htarget)]

/-- **Both tests tell whether a type derives from another one**, in every valid problem and for all
its types: the hierarchy always does, and so does the search unless it comes back to a type that it
is just searching. Then the question stays open at every depth. This takes a cycle of at least two
types above the subtype. The flat matrix gives the answers of the hierarchy. -/
theorem subtype_tests_agree {p : Problem} (hvalid : p.validate = .ok ()) {type : TypeId}
    (htype : type.index < p.task.types.size) (target : TypeId) :
    ((Hierarchy.ofTask p.task).isSubtype type target = true ↔ p.task.Derives type target) ∧
    (¬p.task.IsEndless target type →
      p.task.isSubtype type target = (Hierarchy.ofTask p.task).isSubtype type target ∧
      ∀ depth, p.task.types.size ≤ depth → p.task.derives? depth type target =
        some ((Hierarchy.ofTask p.task).isSubtype type target)) ∧
    (p.task.IsEndless target type → ∀ depth, p.task.derives? depth type target = none) ∧
    (p.task.IsEndless target type → ∃ t, p.task.Derives type t ∧
      TransGen (fun s parent => parent ∈ p.task.parentsOf s ∧ parent ≠ s) t t) ∧
    (target.index < p.task.types.size → (TypeMatrix.ofTask p.task).isSubtype type target =
      (Hierarchy.ofTask p.task).isSubtype type target) := by
  have hclosed := Grounding.hasClosedTypes_of_valid hvalid
  have hhierarchy : (Hierarchy.ofTask p.task).isSubtype type target = true ↔
      p.task.Derives type target :=
    Hierarchy.isSubtype_ofTask_iff hclosed htype
  have hsearch : ¬p.task.IsEndless target type → ∀ depth, p.task.types.size ≤ depth →
      p.task.derives? depth type target =
        some ((Hierarchy.ofTask p.task).isSubtype type target) := by
    intro hends depth hdepth
    obtain ⟨found, hfound⟩ : ∃ found, p.task.derives? depth type target = some found :=
      Task.exists_derives?_eq_some hclosed List.nodup_nil (List.forall_mem_nil _) htype
        (List.forall_mem_nil _) hends (Nat.le_add_left_of_le hdepth)
    rw [hfound, Bool.eq_iff_iff.mpr
      ((Task.derives_iff_of_derives?_eq_some hfound).trans hhierarchy.symm)]
  refine ⟨hhierarchy, fun hends => ⟨?_, hsearch hends⟩, Task.derives?_of_isEndless,
    Task.IsEndless.exists_cycle, TypeMatrix.isSubtype_ofTask hclosed htype⟩
  rw [Task.isSubtype, hsearch hends p.task.searchDepth (Nat.le_add_left _ _), Option.getD_some]

/-- Cups and mugs are said to be mugs and cups; plates are neither. -/
def crockery : Problem where
  task := {
    domainName := "crockery"
    problemName := "problem"
    types := #[⟨"#boolean", []⟩, ⟨"number", []⟩, ⟨"cup", [⟨3⟩]⟩, ⟨"mug", [⟨2⟩]⟩, ⟨"plate", []⟩]
    objects := #[⟨"#false", [⟨0⟩]⟩, ⟨"#true", [⟨0⟩]⟩]
    functions := #[]
    init := []
    constraints := []
    metric := none }
  operators := []

/-- The search finds that cups are mugs, although mugs are also cups. -/
theorem cups_are_mugs : crockery.validate = .ok () ∧ 2 < crockery.task.types.size ∧
    (Hierarchy.ofTask crockery.task).isSubtype ⟨2⟩ ⟨3⟩ = true ∧
    ¬crockery.task.IsEndless ⟨3⟩ ⟨2⟩ ∧
    crockery.task.isSubtype ⟨2⟩ ⟨3⟩ = true ∧ crockery.task.Derives ⟨2⟩ ⟨3⟩ ∧
    (TypeMatrix.ofTask crockery.task).isSubtype ⟨2⟩ ⟨3⟩ = true := by
  have hvalid : crockery.validate = .ok () := by decide +kernel
  have hcup : (⟨2⟩ : TypeId).index < crockery.task.types.size := by decide
  have hmug : (Hierarchy.ofTask crockery.task).isSubtype ⟨2⟩ ⟨3⟩ = true := by decide +kernel
  obtain ⟨hderives, hends, hendless, -, hmatrix⟩ := subtype_tests_agree hvalid hcup ⟨3⟩
  have hsearch : ¬crockery.task.IsEndless ⟨3⟩ ⟨2⟩ := fun h => by
    have hopen := hendless h 2
    revert hopen
    decide +kernel
  exact ⟨hvalid, hcup, hmug, hsearch, (hends hsearch).1.trans hmug, hderives.mp hmug,
    (hmatrix (by decide)).trans hmug⟩

/-- Whether cups are plates stays open, although no cup is a plate. -/
theorem cups_may_be_plates : crockery.validate = .ok () ∧
    (Hierarchy.ofTask crockery.task).isSubtype ⟨2⟩ ⟨4⟩ = false ∧
    ∀ depth, crockery.task.derives? depth ⟨2⟩ ⟨4⟩ = none := by
  refine ⟨by decide +kernel, by decide +kernel, ?_⟩
  have hcup : crockery.task.Asks ⟨4⟩ ⟨2⟩ ⟨3⟩ :=
    ⟨by decide, by decide, [], [], rfl, List.forall_mem_nil _⟩
  have hmug : crockery.task.Asks ⟨4⟩ ⟨3⟩ ⟨2⟩ :=
    ⟨by decide, by decide, [], [], rfl, List.forall_mem_nil _⟩
  exact Task.derives?_of_isEndless
    ⟨⟨2⟩, Relation.ReflTransGen.refl, (Relation.TransGen.single hcup).tail hmug⟩

end TemporalPlanning.Lifted
