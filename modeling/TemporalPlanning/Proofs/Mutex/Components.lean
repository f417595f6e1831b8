import TemporalPlanning.Proofs.Mutex.Splitting
/-!
The groups of a mutex graph that is split by components.

Splitting makes no link between propositions and loses no proposition by a cut. So groups consist of
propositions that were linked before, and every proposition is in some group. The rest of this module
shows that every group has a proposition. A clique contains at most one fictitious vertex, so it has a
proposition unless it is a fictitious vertex alone, and then it is dropped in the end. The cliques of
a cover are grown from propositions.
-/
set_option autoImplicit false

namespace TemporalPlanning.Mutex

namespace Graph

variable {g g' : Graph} {a : Nat}

/-! ## Groups with a proposition -/

/-- A group has a proposition, or it is a single vertex. -/
def HasRealOrSingle (g : Graph) (group : List Nat) : Prop :=
  (∃ a ∈ group, g.isFictitious a = false) ∨ ∃ a, group = [a]

theorem IsSeparated.hasRealOrSingle (h : g.IsSeparated) {component : List Nat}
    (hne : component ≠ []) (hclique : g.isClique component = true) :
    g.HasRealOrSingle component := by
  cases component with
  | nil => exact absurd rfl hne
  | cons a rest =>
    cases rest with
    | nil => exact Or.inr ⟨a, rfl⟩
    | cons b rest =>
      -- one of two vertices that are linked is a proposition
      have hb : b ∈ g.neighboursOf a :=
        (List.pairwise_cons.mp (pairwise_of_isClique hclique)).1 b List.mem_cons_self
      refine Or.inl ?_
      cases ha : g.isFictitious a with
      | false => exact ⟨a, List.mem_cons_self, ha⟩
      | true => exact ⟨b, List.mem_cons_of_mem _ List.mem_cons_self, h.separated a b hb ha⟩

theorem hasRealOrSingle_of_mem_cliquesOver {component clique : List Nat}
    (h : clique ∈ g.cliquesOver component) : g.HasRealOrSingle clique := by
  obtain ⟨a, -, hreal, rfl, -⟩ := exists_of_mem_cover h
  exact Or.inl ⟨a, mem_growClique g List.mem_cons_self, hreal⟩

/-- Components are not empty. -/
theorem ne_nil_of_mem_componentsFrom {vertices component : List Nat} {visited : Array Bool}
    (hsize : visited.size ≤ g.neighbours.size)
    (h : component ∈ g.componentsFrom visited vertices) : component ≠ [] := by
  induction vertices generalizing visited with
  | nil => cases h
  | cons a rest ih =>
    unfold componentsFrom at h
    split at h
    · exact ih hsize h
    · obtain ⟨hlast, hempty⟩ := explore_component hsize a
      rcases List.mem_cons.mp h with rfl | h
      · refine List.ne_nil_of_mem (hlast.start.resolve_right fun ha => ?_)
        rw [hempty] at ha
        cases ha
      · exact ih hlast.size h

theorem ne_nil_of_mem_components {vertices component : List Nat}
    (h : component ∈ g.components vertices) : component ≠ [] :=
  ne_nil_of_mem_componentsFrom (Nat.le_of_eq Array.size_replicate) h

theorem groups_cutOff (g : Graph) (clique : List Nat) : (g.cutOff clique).groups = g.groups := by
  unfold cutOff
  split
  · rfl
  next a rest =>
    have hcut : (rest.foldl (fun g b => g.unlink a b) g).groups = g.groups :=
      List.foldlRecOn rest _ (motive := fun g' : Graph => g'.groups = g.groups) rfl
        fun g' hg' b _ => hg'
    have hlinks : ∀ {g' : Graph} (fictitious : Nat), g'.groups = g.groups → (rest.foldl
        (fun g b => if b == fictitious || g.isLinked fictitious b then g
          else g.link fictitious b) g').groups = g.groups := fun fictitious hg' =>
      List.foldlRecOn rest _ (motive := fun g' : Graph => g'.groups = g.groups) hg'
        fun g' hg' b _ => by
          split
          · exact hg'
          · exact hg'
    dsimp only
    split
    · exact hlinks _ hcut
    · exact hlinks _ hcut

end Graph

/-! ## Single steps -/

/-- The component with which something is to be done. -/
def Job.component : Job → List Nat
  | .inspect component => component
  | .cut component _ => component

namespace Splitting

variable {limit : Graph → List Nat → Option Nat} {s s' : Splitting}

/-- All groups have a proposition or are single vertices, and there are vertices in all components
that are still to be split. -/
structure IsFilled (s : Splitting) : Prop where
  groups : ∀ group ∈ s.graph.groups, s.graph.HasRealOrSingle group
  jobs : ∀ job ∈ s.jobs, job.component ≠ []

/-- What is to be done after a cut concerns no empty component. -/
theorem ne_nil_of_mem_afterCut {g : Graph} {component : List Nat} {budget : Option Nat} {job : Job}
    (hne : component ≠ []) (h : job ∈ afterCut g component budget) : job.component ≠ [] := by
  unfold afterCut at h
  split at h
  · obtain ⟨part, hpart, rfl⟩ := List.mem_map.mp h
    exact Graph.ne_nil_of_mem_components hpart
  · rw [List.mem_singleton.mp h]
    exact hne

theorem Step.isFilled (h : Step limit s s') (hs : s.graph.IsSeparated) (hfilled : s.IsFilled) :
    s'.IsFilled := by
  obtain ⟨hgroups, hjobs⟩ := hfilled
  have hadded : ∀ {g : Graph} {groups : List (List Nat)},
      (∀ group ∈ g.groups, g.HasRealOrSingle group) →
      (∀ group ∈ groups, g.HasRealOrSingle group) →
      ∀ group ∈ (g.addGroups groups).groups, g.HasRealOrSingle group := fun hold hnew group hmem =>
    (Array.mem_append.mp hmem).elim (hold group) fun hmem => hnew group (List.mem_toArray.mp hmem)
  cases h with
  | group hclique =>
    obtain ⟨hne, hrest⟩ := List.forall_mem_cons.mp hjobs
    refine ⟨hadded hgroups fun group hmem => ?_, hrest⟩
    rw [List.mem_singleton.mp hmem]
    exact hs.hasRealOrSingle hne hclique
  | begin =>
    obtain ⟨hne, hrest⟩ := List.forall_mem_cons.mp hjobs
    exact ⟨hgroups, List.forall_mem_cons.mpr ⟨hne, hrest⟩⟩
  | cut _ hnext =>
    obtain ⟨hne, hrest⟩ := List.forall_mem_cons.mp hjobs
    obtain ⟨f, rest, hcut⟩ := hs.exists_isCut hnext
    refine ⟨fun group hmem => ?_, fun job hjob => ?_⟩
    · -- the groups are the same, and so are the propositions among the vertices
      rw [Graph.groups_cutOff] at hmem
      exact (hgroups group hmem).imp_left fun ⟨a, ha, hreal⟩ =>
        ⟨a, ha, (hcut.isFictitious a).trans hreal⟩
    · exact (List.mem_append.mp hjob).elim (ne_nil_of_mem_afterCut hne) (hrest job)
  | cover =>
    obtain ⟨-, hrest⟩ := List.forall_mem_cons.mp hjobs
    exact ⟨hadded hgroups fun group => Graph.hasRealOrSingle_of_mem_cliquesOver, hrest⟩

theorem Reaches.isFilled (h : Reaches limit s s') (hs : s.graph.IsSeparated)
    (hfilled : s.IsFilled) : s'.IsFilled := by
  induction h with
  | refl => exact hfilled
  | tail hreaches hstep ih => exact hstep.isFilled (Reaches.isSeparated hreaches hs) ih

theorem isFilled_start (g : Graph) : (start g).IsFilled := by
  refine ⟨fun group hmem => absurd hmem (Array.not_mem_empty group), fun job hjob => ?_⟩
  obtain ⟨component, hcomponent, rfl⟩ := List.mem_map.mp hjob
  exact Graph.ne_nil_of_mem_components hcomponent

end Splitting

/-! ## The groups of a split graph -/

/-- Every group that is left in the end contains a proposition. -/
theorem Graph.IsSeparated.exists_real_of_mem_splitComponents {g : Graph} (h : g.IsSeparated)
    {group : List Nat} (hgroup : group ∈ g.splitComponents.groups) :
    ∃ a ∈ group, g.splitComponents.isFictitious a = false := by
  obtain ⟨split, hreaches, heq⟩ := Splitting.reaches_splitComponents h
  have hfilled := hreaches.isFilled h.withoutGroups (Splitting.isFilled_start g)
  rw [← heq] at hgroup ⊢
  obtain ⟨hmem, hkept⟩ := Array.mem_filter.mp hgroup
  rcases hfilled.groups group hmem with hreal | ⟨a, rfl⟩
  · exact hreal
  · exact ⟨a, List.mem_singleton_self a, (Bool.not_eq_true' _).mp hkept⟩

/-- **The groups of a graph that is split by components**: their propositions were adjacent before,
none is listed twice, and there is at least one. Every proposition of the graph is in some group. -/
theorem splitComponents_groups_linked {ops : List Operation}
    (hadditions : ∀ op ∈ ops, op.isAddition = true) : ∃ g, graphOf ops = some g ∧
    (∀ group ∈ g.splitComponents.groupList,
      (∀ v ∈ group.propositions, ∀ w ∈ group.propositions, v ≠ w → g.areAdjacent v w = true) ∧
      group.propositions.Nodup ∧ group.propositions ≠ []) ∧
    ∀ v ∈ mentioned ops, ∃ group ∈ g.splitComponents.groupList, v ∈ group.propositions := by
  obtain ⟨g, hg, hbuilt⟩ := exists_graphOf_of_additions hadditions
  have htidy := isTidy_graphOf hg
  have hsymm := htidy.symm_areAdjacent
  have hvertices := htidy.cuts_splitComponents.vertices_eq
  have hrespects := Graph.splitComponents_respects (htidy.respects_areAdjacent hbuilt.groups)
  refine ⟨g, hg, fun group hgroup => ?_, fun v hv => ?_⟩
  · obtain ⟨members, hmembers, rfl⟩ := List.mem_map.mp hgroup
    rw [Array.mem_toList_iff] at hmembers
    have hpairwise := hrespects.groups members hmembers
    rw [← hvertices] at hpairwise
    obtain ⟨hnodup, hadjacent⟩ := htidy.nodup_and_adjacent hpairwise
    obtain ⟨a, ha, hreal⟩ := (isSeparated_graphOf hg).exists_real_of_mem_splitComponents hmembers
    obtain ⟨v, hv⟩ := Graph.exists_get?_of_not_isFictitious hreal
    exact ⟨hadjacent, hnodup, List.ne_nil_of_mem (Graph.mem_propositions.mpr ⟨a, ha, hv⟩)⟩
  · obtain ⟨a, ha⟩ := (hasVertex_graphOf_iff hg).mpr hv
    obtain ⟨members, hmembers, hmem⟩ := Graph.splitComponents_covers ha
    rw [← hvertices] at ha
    exact ⟨_, List.mem_map.mpr ⟨members, Array.mem_toList_iff.mpr hmembers, rfl⟩,
      Graph.mem_propositions.mpr ⟨a, hmem, ha⟩⟩

/-- Two triangles, with a link between the propositions 2 and 3. -/
def twoTriangles : List Operation :=
  [.addVertex ⟨0⟩, .addAdjacent ⟨0⟩ ⟨1⟩, .addAdjacent ⟨1⟩ ⟨2⟩, .addAdjacent ⟨0⟩ ⟨2⟩,
    .addAdjacent ⟨2⟩ ⟨3⟩, .addAdjacent ⟨3⟩ ⟨4⟩, .addAdjacent ⟨3⟩ ⟨5⟩, .addAdjacent ⟨4⟩ ⟨5⟩]

/-- The proposition 2 is cut off both triangles. -/
theorem splitComponents_twoTriangles : (∀ op ∈ twoTriangles, op.isAddition = true) ∧
    ∃ g, graphOf twoTriangles = some g ∧ g.splitComponents.groupList =
        [⟨[⟨0⟩, ⟨1⟩], true⟩, ⟨[⟨2⟩], true⟩, ⟨[⟨3⟩, ⟨5⟩, ⟨4⟩], false⟩] ∧
      g.areAdjacent ⟨5⟩ ⟨4⟩ = true ∧
      ∃ group ∈ g.splitComponents.groupList, ⟨2⟩ ∈ group.propositions := by
  have hadditions : ∀ op ∈ twoTriangles, op.isAddition = true := by decide
  have hgroups : (graphOf twoTriangles).map (fun g => g.splitComponents.groupList) =
      some [⟨[⟨0⟩, ⟨1⟩], true⟩, ⟨[⟨2⟩], true⟩, ⟨[⟨3⟩, ⟨5⟩, ⟨4⟩], false⟩] := by decide +kernel
  obtain ⟨g, hg, hproper, hcovers⟩ := splitComponents_groups_linked hadditions
  rw [hg, Option.map_some, Option.some.injEq] at hgroups
  obtain ⟨hadjacent, -⟩ := hproper ⟨[⟨3⟩, ⟨5⟩, ⟨4⟩], false⟩ (by rw [hgroups]; decide)
  exact ⟨hadditions, g, hg, hgroups, hadjacent ⟨5⟩ (by decide) ⟨4⟩ (by decide) (by decide),
    hcovers ⟨2⟩ (by decide)⟩

end TemporalPlanning.Mutex
