import TemporalPlanning.Encoding.Placement
import TemporalPlanning.Proofs.Mutex.Cover
import TemporalPlanning.Proofs.Mutex.Marks
/-!
Groups of mutex propositions.

The graph of a mutex relation has all propositions as vertices and a link for every listed pair.
So the propositions of a group are pairwise listed, and every proposition is in a group, whichever
way the graph is split.
-/
set_option autoImplicit false

namespace TemporalPlanning.Encoding

open Mutex

/-- Groups consist of mutex propositions, and no proposition is left out. -/
structure IsGrouping (isProposition : Array Bool) (mutex : Relation) (groups : List Group) :
    Prop where
  related : ∀ group ∈ groups, group.propositions.Pairwise mutex.Lists
  complete : ∀ v, isMarked isProposition v = true → ∃ group ∈ groups, v ∈ group.propositions

/-- A graph whose groups respect a relation and cover the vertices yields a grouping. -/
theorem isGrouping_of_split {isProposition : Array Bool} {mutex : Relation} {g g' : Graph}
    (hvertices : ∀ v, isMarked isProposition v = true → g.HasVertex v)
    (hrespects : g'.Respects g.vertices mutex.Lists)
    (hcovers : ∀ a v, g.vertices.get? a = some v → g'.Covers a) :
    IsGrouping isProposition mutex g'.groupList := by
  refine ⟨fun group hgroup => ?_, fun v hv => ?_⟩
  · obtain ⟨members, hmembers, rfl⟩ := List.mem_map.mp hgroup
    have hrelated := hrespects.groups members (Array.mem_toList_iff.mp hmembers)
    rw [← hrespects.vertices_eq] at hrelated
    exact hrelated
  · obtain ⟨a, ha⟩ := hvertices v hv
    obtain ⟨members, hmembers, hmem⟩ := hcovers a v ha
    refine ⟨_, List.mem_map.mpr ⟨members, Array.mem_toList_iff.mpr hmembers, rfl⟩, ?_⟩
    refine List.mem_filterMap.mpr ⟨a, hmem, ?_⟩
    rw [hrespects.vertices_eq]
    exact ha

section Building

variable (isProposition : Array Bool) (mutex : Relation)

theorem isBuilt_mutexGraph : (mutexGraph isProposition mutex).IsBuilt mutex.Lists := by
  refine List.foldlRecOn mutex.toList _ (motive := fun g : Graph => g.IsBuilt mutex.Lists) ?_
    fun g hg pair hpair => hg.addAdjacent (Or.inl hpair)
  exact List.foldlRecOn (marked isProposition) _
    (motive := fun g : Graph => g.IsBuilt mutex.Lists) Graph.isBuilt_empty
    fun g hg v _ => hg.addVertex v

theorem hasVertex_mutexGraph {v : VarId} (hv : isMarked isProposition v = true) :
    (mutexGraph isProposition mutex).HasVertex v := by
  -- every proposition is added at some point, and vertices stay
  have hadded : ((marked isProposition).foldl Graph.addVertex .empty).HasVertex v := by
    obtain ⟨g, -, hafter⟩ := exists_step_of_mem
      (R := fun g g' : Graph => ∀ v, g.HasVertex v → g'.HasVertex v) (fun _ _ h => h)
      (fun h h' v hv => h' v (h v hv)) (s := .empty) (f := Graph.addVertex)
      (fun g w _ v hv => hv.addVertex w) (mem_marked.mpr hv)
    exact hafter v (Graph.hasVertex_addVertex v)
  exact List.foldlRecOn mutex.toList _ (motive := fun g : Graph => g.HasVertex v) hadded
    fun g hg pair _ => hg.addAdjacent pair.1 pair.2

/-- Splitting into cliques has a result, since the graph has only been added to. -/
theorem mutexGroups_cliques : mutexGroups .cliques isProposition mutex =
    (mutexGraph isProposition mutex).splitCliques.groupList := by
  show (mutexGraph isProposition mutex).split?.elim [] Graph.groupList = _
  rw [(isBuilt_mutexGraph isProposition mutex).split?_eq]
  rfl

/-- **Groups of mutex propositions** are what their name says, and contain all propositions. -/
theorem isGrouping_mutexGroups (grouping : Grouping) :
    IsGrouping isProposition mutex (mutexGroups grouping isProposition mutex) := by
  have hrespects := (isBuilt_mutexGraph isProposition mutex).respects
  cases grouping with
  | cliques =>
    rw [mutexGroups_cliques]
    exact isGrouping_of_split (fun _ hv => hasVertex_mutexGraph isProposition mutex hv)
      (Graph.splitCliques_respects hrespects) fun _ _ ha => Graph.splitCliques_covers ha
  | components =>
    exact isGrouping_of_split (fun _ hv => hasVertex_mutexGraph isProposition mutex hv)
      (Graph.splitComponents_respects hrespects)
      fun _ _ ha => Graph.splitComponents_covers ha

end Building

end TemporalPlanning.Encoding
