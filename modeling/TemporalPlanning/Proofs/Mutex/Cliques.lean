import Mathlib.Data.List.Pairwise
import TemporalPlanning.Proofs.Mutex.Cover
import TemporalPlanning.Proofs.Mutex.Histories
/-!
Covering a mutex graph by maximal cliques.

A clique is grown from one vertex, and the first thing the search does is to look at all neighbours
of that vertex. Whatever is looked at joins the clique or is not linked with some member, which
stays a member; and what is not a neighbour of the first vertex is not linked with that one. So
nothing can be added in the end. A vertex that is in a clique does not start another one.
-/
set_option autoImplicit false

namespace TemporalPlanning.Mutex

namespace Graph

variable {g : Graph} {a b c : Nat} {v w : VarId}

/-! ## What a search has looked at -/

/-- Whether a search has looked at a vertex. -/
def Search.HasVisited (s : Search) (a : Nat) : Prop := s.visited.getD a false = true

/-- Whatever has been visited is a member, or is not linked with some member. -/
def Search.IsExplained (g : Graph) (s : Search) : Prop :=
  ∀ a, s.HasVisited a → a ∈ s.members ∨ ∃ c ∈ s.members, c ∉ g.neighboursOf a

/-- A search goes on: members are added at the end, what has been visited stays visited, and the
table has as many places as before. -/
structure Search.Grows (s s' : Search) : Prop where
  members : s.members <+: s'.members
  visited : ∀ a, s.HasVisited a → s'.HasVisited a
  size : s'.visited.size = s.visited.size

namespace Search.Grows

theorem refl (s : Search) : Grows s s := ⟨List.prefix_rfl, fun _ h => h, rfl⟩

theorem trans {s s' s'' : Search} (h : Grows s s') (h' : Grows s' s'') : Grows s s'' :=
  ⟨h.members.trans h'.members, fun a ha => h'.visited a (h.visited a ha), h'.size.trans h.size⟩

end Search.Grows

theorem growAt_grows (g : Graph) (s : Search) (a : Nat) : Search.Grows s (g.growAt s a) := by
  have hvisited : ∀ b, s.HasVisited b → (s.visited.setIfInBounds a true).getD b false = true :=
    fun b hb => getD_set_true_iff.mpr (Or.inl hb)
  unfold growAt
  split
  · exact .refl s
  · dsimp only
    split
    · exact ⟨List.prefix_append _ _, hvisited, Array.size_setIfInBounds⟩
    · exact ⟨List.prefix_rfl, hvisited, Array.size_setIfInBounds⟩

theorem foldl_growAt_grows (g : Graph) (l : List Nat) (s : Search) :
    Search.Grows s (l.foldl g.growAt s) :=
  foldl_rel Search.Grows.refl Search.Grows.trans fun s' _ a _ => growAt_grows g s' a

theorem grow_grows (g : Graph) (fuel : Nat) (s : Search) : Search.Grows s (g.grow fuel s) := by
  induction fuel generalizing s with
  | zero => exact .refl s
  | succ fuel ih =>
    unfold grow
    split
    · exact .refl s
    next a stack _ =>
      have hstep := foldl_growAt_grows g (g.neighboursOf a) { s with stack }
      exact Search.Grows.trans ⟨hstep.members, hstep.visited, hstep.size⟩ (ih _)

/-- A vertex of the table has been visited after it has been looked at. -/
theorem hasVisited_growAt (s : Search) (ha : a < s.visited.size) : (g.growAt s a).HasVisited a := by
  by_cases hseen : s.visited.getD a true = true
  · rw [growAt, if_pos hseen]
    rw [Array.getD_eq_getD_getElem?, Array.getElem?_eq_getElem ha] at hseen
    rw [Search.HasVisited, Array.getD_eq_getD_getElem?, Array.getElem?_eq_getElem ha]
    exact hseen
  · have hset := getD_set_true_iff.mpr (Or.inr ⟨rfl, ha⟩)
    rw [growAt, if_neg hseen]
    dsimp only
    split <;> exact hset

theorem hasVisited_foldl_growAt {l : List Nat} {s : Search} (ha : a ∈ l)
    (hlt : a < s.visited.size) : (l.foldl g.growAt s).HasVisited a := by
  obtain ⟨s', hbefore, hafter⟩ := exists_step_of_mem Search.Grows.refl Search.Grows.trans (s := s)
    (fun s' b _ => growAt_grows g s' b) ha
  exact hafter.visited a (hasVisited_growAt s' (hbefore.size ▸ hlt))

theorem isExplained_growAt {s : Search} (h : s.IsExplained g) (a : Nat) :
    (g.growAt s a).IsExplained g := by
  unfold growAt
  split
  · exact h
  dsimp only
  split
  next hall =>
    intro b hb
    rcases getD_set_true_iff.mp hb with hb | ⟨rfl, -⟩
    · refine (h b hb).imp (List.mem_append_left _) fun ⟨c, hc, hfree⟩ => ?_
      exact ⟨c, List.mem_append_left _ hc, hfree⟩
    · exact Or.inl (List.mem_append_right _ (List.mem_singleton_self _))
  next hrejected =>
    intro b hb
    rcases getD_set_true_iff.mp hb with hb | ⟨rfl, -⟩
    · exact h b hb
    · obtain ⟨c, hc, hfree⟩ : ∃ c ∈ s.members, ¬g.isLinked a c = true := by
        simpa only [List.all_eq_true, not_forall, exists_prop] using hrejected
      exact Or.inr ⟨c, hc, fun hmem => hfree (isLinked_iff.mpr hmem)⟩

theorem isExplained_grow (fuel : Nat) {s : Search} (h : s.IsExplained g) :
    (g.grow fuel s).IsExplained g := by
  induction fuel generalizing s with
  | zero => exact h
  | succ fuel ih =>
    unfold grow
    split
    · exact h
    · exact ih (List.foldlRecOn _ _ (motive := Search.IsExplained g) h fun s hs a _ =>
        isExplained_growAt hs a)

/-! ## Maximal cliques -/

/-- A clique begins with the vertices from which it is grown. -/
theorem prefix_growClique (g : Graph) (seed : List Nat) : seed <+: g.growClique seed :=
  (grow_grows g _ (g.searchFrom seed)).members

theorem exists_growClique_eq_cons (g : Graph) (a : Nat) (seed : List Nat) :
    ∃ rest, seed <+: rest ∧ g.growClique (a :: seed) = a :: rest := by
  obtain ⟨more, hmore⟩ := prefix_growClique g (a :: seed)
  exact ⟨seed ++ more, List.prefix_append _ _, hmore.symm⟩

/-- **Nothing can be added to a clique** that is grown from a vertex: every vertex outside of it is
not linked with some member. -/
theorem IsTidy.exists_not_linked (h : g.IsTidy) (hb : b ∉ g.growClique [a]) :
    ∃ c ∈ g.growClique [a], c ∉ g.neighboursOf b := by
  by_cases hlinked : b ∈ g.neighboursOf a
  · have hlt : b < (g.searchFrom [a]).visited.size := by
      rw [searchFrom, List.foldl_cons, List.foldl_nil, Array.size_setIfInBounds,
        Array.size_replicate]
      exact h.lt_size hlinked
    -- the neighbours of the first vertex are looked at first
    have hvisited : (g.grow (g.neighbours.size + 1) (g.searchFrom [a])).HasVisited b :=
      (grow_grows g g.neighbours.size _).visited b (hasVisited_foldl_growAt hlinked hlt)
    have hexplained : (g.grow (g.neighbours.size + 1) (g.searchFrom [a])).IsExplained g := by
      refine isExplained_grow _ fun c hc => Or.inl ?_
      rcases getD_set_true_iff.mp hc with hc | ⟨rfl, -⟩
      · rw [getD_replicate] at hc
        cases hc
      · exact List.mem_singleton_self _
    exact (hexplained b hvisited).resolve_left hb
  · exact ⟨a, mem_growClique g List.mem_cons_self, fun ha => hlinked (h.symm b a ha)⟩

/-! ## Covers -/

/-- The first vertex of a clique of a cover is in no earlier clique. -/
theorem pairwise_cover {assigned : Array Bool} {vertices : List Nat}
    (hvertices : ∀ a ∈ vertices, a < assigned.size) :
    (g.cover assigned vertices).Pairwise fun earlier later =>
      ∀ a, later.head? = some a → a ∉ earlier := by
  induction vertices generalizing assigned with
  | nil => exact List.Pairwise.nil
  | cons a rest ih =>
    obtain ⟨-, hrest⟩ := List.forall_mem_cons.mp hvertices
    unfold cover
    split
    · exact ih hrest
    · refine List.Pairwise.cons (fun later hlater b hb hmem => ?_)
        (ih fun b hb => (size_foldl_set _ assigned).symm ▸ hrest b hb)
      -- a member of the first clique is assigned, so it starts no later one
      obtain ⟨c, hc, -, rfl, hfree⟩ := exists_of_mem_cover hlater
      obtain ⟨more, -, hmore⟩ := exists_growClique_eq_cons g c []
      rw [hmore, List.head?_cons, Option.some.injEq] at hb
      subst hb
      rw [getD_foldl_set_iff.mpr (Or.inr ⟨hmem, hrest c hc⟩)] at hfree
      cases hfree

/-! ## Propositions of a group -/

theorem mem_propositions {members : List Nat} :
    v ∈ (g.groupOf members).propositions ↔ ∃ a ∈ members, g.vertices.get? a = some v :=
  List.mem_filterMap

/-- The links of a graph respect its own adjacency. -/
theorem IsTidy.respects_areAdjacent (h : g.IsTidy) (hgroups : g.groups = #[]) :
    g.Respects g.vertices fun v w => g.areAdjacent v w = true := by
  refine ⟨rfl, h.size_le, fun a b hb v w hv hw => areAdjacent_iff.mpr ⟨a, b, hv, hw, hb⟩,
    fun group hgroup => ?_⟩
  rw [hgroups] at hgroup
  exact absurd hgroup (Array.not_mem_empty group)

/-- Propositions are pairwise adjacent, and none is listed twice. -/
theorem IsTidy.nodup_and_adjacent (h : g.IsTidy) {propositions : List VarId}
    (hadjacent : propositions.Pairwise fun v w => g.areAdjacent v w = true) :
    propositions.Nodup ∧
      ∀ v ∈ propositions, ∀ w ∈ propositions, v ≠ w → g.areAdjacent v w = true := by
  have hsymm := h.symm_areAdjacent
  refine ⟨hadjacent.imp fun hvw heq => ?_, fun v hv w hw hne => ?_⟩
  · rw [heq, h.areAdjacent_self] at hvw
    cases hvw
  · exact hadjacent.forall hv hw hne

/-- A vertex that is not fictitious stands for a proposition. -/
theorem exists_get?_of_not_isFictitious (h : g.isFictitious a = false) :
    ∃ v, g.vertices.get? a = some v := by
  rw [isFictitious_eq_false_iff] at h
  exact ⟨_, Array.getElem?_eq_getElem h⟩

/-- The proposition of the vertex from which a clique is grown comes first. -/
theorem exists_head?_growClique (h : g.isFictitious a = false) : ∃ v,
    g.vertices.get? a = some v ∧ (g.groupOf (g.growClique [a])).propositions.head? = some v := by
  obtain ⟨v, hv⟩ := exists_get?_of_not_isFictitious h
  obtain ⟨rest, -, hrest⟩ := exists_growClique_eq_cons g a []
  refine ⟨v, hv, ?_⟩
  rw [groupOf, hrest, List.filterMap_cons_some hv, List.head?_cons]

/-- In a graph without fictitious vertices, no proposition is adjacent to all of a clique that has
been grown, and the clique has no place for `none of them`. -/
theorem IsTidy.isMaximal_growClique (h : g.IsTidy) (hsize : g.neighbours.size = g.vertices.size)
    (ha : g.isFictitious a = false) : (g.groupOf (g.growClique [a])).noneOfThem = false ∧
      ∀ v, v ∉ (g.groupOf (g.growClique [a])).propositions →
        ∃ w ∈ (g.groupOf (g.growClique [a])).propositions, g.areAdjacent v w = false := by
  obtain ⟨v₀, hv₀, -⟩ := exists_head?_growClique ha
  have hreal : ∀ b ∈ g.growClique [a], g.isFictitious b = false := by
    intro b hb
    have hlt := h.lt_size_of_mem_growClique_singleton (h.lt_size_of_get? hv₀) hb
    rw [isFictitious_eq_false_iff, ← hsize]
    exact hlt
  refine ⟨List.any_eq_false.mpr fun b hb => ?_, fun v hv => ?_⟩
  · rw [hreal b hb]
    exact Bool.false_ne_true
  by_cases hvertex : g.HasVertex v
  · obtain ⟨b, hb⟩ := hvertex
    have hout : b ∉ g.growClique [a] := fun hmem => hv (mem_propositions.mpr ⟨b, hmem, hb⟩)
    obtain ⟨c, hc, hfree⟩ := h.exists_not_linked hout
    obtain ⟨w, hw⟩ := exists_get?_of_not_isFictitious (hreal c hc)
    refine ⟨w, mem_propositions.mpr ⟨c, hc, hw⟩, ?_⟩
    rw [← Bool.not_eq_true, areAdjacent_iff]
    rintro ⟨b', c', hb', hc', hlinked⟩
    rw [g.vertices.position_unique hb' hb rfl, g.vertices.position_unique hc' hw rfl] at hlinked
    exact hfree hlinked
  · -- what is no vertex is adjacent to nothing
    refine ⟨v₀, mem_propositions.mpr ⟨a, mem_growClique g List.mem_cons_self, hv₀⟩, ?_⟩
    rw [← Bool.not_eq_true, areAdjacent_iff]
    rintro ⟨b, -, hb, -⟩
    exact hvertex ⟨b, hb⟩

/-- The groups of cliques are those of the propositions in order. -/
theorem groupList_splitCliques : g.splitCliques.groupList =
    (g.cliquesOver (List.range g.vertices.size)).map g.groupOf := rfl

theorem exists_of_mem_splitCliques {group : Group} (h : group ∈ g.splitCliques.groupList) :
    ∃ a, g.isFictitious a = false ∧ group = g.groupOf (g.growClique [a]) := by
  rw [groupList_splitCliques] at h
  obtain ⟨clique, hclique, rfl⟩ := List.mem_map.mp h
  obtain ⟨a, -, hreal, rfl, -⟩ := exists_of_mem_cover hclique
  exact ⟨a, hreal, rfl⟩

/-- The first proposition of a group is in no earlier group. -/
theorem pairwise_splitCliques (hsize : g.neighbours.size = g.vertices.size) :
    g.splitCliques.groupList.Pairwise fun earlier later =>
      ∀ v, later.propositions.head? = some v → v ∉ earlier.propositions := by
  rw [groupList_splitCliques, List.pairwise_map]
  have hcover : (g.cliquesOver (List.range g.vertices.size)).Pairwise fun earlier later =>
      ∀ a, later.head? = some a → a ∉ earlier :=
    pairwise_cover fun a ha => by
      rw [Array.size_replicate, hsize]
      exact List.mem_range.mp ha
  refine hcover.imp_of_mem fun {earlier later} _ hlater hfirst v hv hmem => ?_
  obtain ⟨a, -, hreal, rfl, -⟩ := exists_of_mem_cover hlater
  obtain ⟨w, ha, hw⟩ := exists_head?_growClique hreal
  obtain ⟨b, hb, hget⟩ := mem_propositions.mp hmem
  obtain ⟨rest, -, hrest⟩ := exists_growClique_eq_cons g a []
  rw [hv] at hw
  cases hw
  rw [g.vertices.position_unique hget ha rfl] at hb
  exact hfirst a (by rw [hrest, List.head?_cons]) hb

end Graph

/-! ## Splitting a graph into cliques -/

/-- **Splitting covers a graph with maximal cliques.** It succeeds on a graph that has only been added
to. A group has no place for `none of them`, lists pairwise adjacent propositions once each, and no
other proposition is adjacent to all of them. Every proposition of the graph is in a group, and the
first proposition of a group is in no earlier one. -/
theorem splitCliques_covers_maximally {ops : List Operation}
    (hadditions : ∀ op ∈ ops, op.isAddition = true) :
    ∃ g g', graphOf ops = some g ∧ g.split? = some g' ∧
    (∀ group ∈ g'.groupList,
      group.noneOfThem = false ∧ group.propositions ≠ [] ∧ group.propositions.Nodup ∧
      (∀ v ∈ group.propositions, ∀ w ∈ group.propositions, v ≠ w → g.areAdjacent v w = true) ∧
      ∀ v, v ∉ group.propositions → ∃ w ∈ group.propositions, g.areAdjacent v w = false) ∧
    (∀ v ∈ mentioned ops, ∃ group ∈ g'.groupList, v ∈ group.propositions) ∧
    g'.groupList.Pairwise fun earlier later =>
      ∀ v, later.propositions.head? = some v → v ∉ earlier.propositions := by
  obtain ⟨g, hg, hbuilt⟩ := exists_graphOf_of_additions hadditions
  have htidy := isTidy_graphOf hg
  have hsymm := htidy.symm_areAdjacent
  have hrespects := Graph.splitCliques_respects (htidy.respects_areAdjacent hbuilt.groups)
  refine ⟨g, g.splitCliques, hg, hbuilt.split?_eq, fun group hgroup => ?_, fun v hv => ?_,
    Graph.pairwise_splitCliques hbuilt.size⟩
  · obtain ⟨members, hmembers, hgroupOf⟩ := List.mem_map.mp hgroup
    obtain ⟨hnodup, hadjacent⟩ := htidy.nodup_and_adjacent
      (hrespects.groups members (Array.mem_toList_iff.mp hmembers))
    obtain ⟨a, ha, rfl⟩ := Graph.exists_of_mem_splitCliques hgroup
    obtain ⟨v, -, hfirst⟩ := Graph.exists_head?_growClique ha
    obtain ⟨hnone, hmaximal⟩ := htidy.isMaximal_growClique hbuilt.size ha
    refine ⟨hnone, fun hnil => ?_, ?_, ?_, hmaximal⟩
    · rw [hnil] at hfirst
      cases hfirst
    · exact hgroupOf ▸ hnodup
    · exact hgroupOf ▸ hadjacent
  · obtain ⟨a, ha⟩ := (hasVertex_graphOf_iff hg).mpr hv
    obtain ⟨members, hmembers, hmem⟩ := Graph.splitCliques_covers ha
    exact ⟨_, List.mem_map.mpr ⟨members, Array.mem_toList_iff.mpr hmembers, rfl⟩,
      Graph.mem_propositions.mpr ⟨a, hmem, ha⟩⟩

/-- The propositions 0, 1 and 2 are all linked with each other, and 2 is linked with 3. -/
def triangleAndTail : List Operation :=
  [.addVertex ⟨0⟩, .addAdjacent ⟨0⟩ ⟨1⟩, .addAdjacent ⟨1⟩ ⟨2⟩, .addAdjacent ⟨0⟩ ⟨2⟩,
    .addAdjacent ⟨2⟩ ⟨3⟩]

/-- The triangle is one group, and the tail another one that contains the proposition 2 as well. -/
theorem splitCliques_triangleAndTail : (∀ op ∈ triangleAndTail, op.isAddition = true) ∧
    ∃ g g', graphOf triangleAndTail = some g ∧ g.split? = some g' ∧
      g'.groupList = [⟨[⟨0⟩, ⟨1⟩, ⟨2⟩], false⟩, ⟨[⟨3⟩, ⟨2⟩], false⟩] ∧
      (∃ w ∈ [⟨0⟩, ⟨1⟩, ⟨2⟩], g.areAdjacent ⟨3⟩ w = false) ∧
      ∃ group ∈ g'.groupList, ⟨2⟩ ∈ group.propositions := by
  have hadditions : ∀ op ∈ triangleAndTail, op.isAddition = true := by decide
  have hgroups : ((graphOf triangleAndTail).bind Graph.split?).map Graph.groupList =
      some [⟨[⟨0⟩, ⟨1⟩, ⟨2⟩], false⟩, ⟨[⟨3⟩, ⟨2⟩], false⟩] := by decide +kernel
  obtain ⟨g, g', hg, hsplit, hmaximal, hcovers, -⟩ := splitCliques_covers_maximally hadditions
  rw [hg, Option.bind_some, hsplit, Option.map_some, Option.some.injEq] at hgroups
  obtain ⟨-, -, -, -, hothers⟩ := hmaximal ⟨[⟨0⟩, ⟨1⟩, ⟨2⟩], false⟩ (by rw [hgroups]; decide)
  exact ⟨hadditions, g, g', hg, hsplit, hgroups, hothers ⟨3⟩ (by decide),
    hcovers ⟨2⟩ (by decide)⟩

end TemporalPlanning.Mutex
