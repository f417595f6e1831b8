import TemporalPlanning.Proofs.Mutex.Links
/-!
Groups of a mutex graph contain all its propositions.

A vertex is left out of a cover only if an earlier clique contains it. Components of a list of
vertices contain these vertices: whatever a search has visited is in an earlier component, among
its members or still on its stack, and the stack is empty in the end because every vertex is put
there at most once. So nothing is lost when a component is replaced by its parts, and by induction
on the depth, nothing is lost by splitting. Only groups without any proposition are dropped.
-/
set_option autoImplicit false

namespace TemporalPlanning.Mutex

namespace Graph

variable {g : Graph} {a b : Nat}

/-! ## Growing cliques -/

/-- A member of a search is there from the beginning or is a neighbour of some vertex. -/
def MembersLinked (g : Graph) (seed : List Nat) (s : Search) : Prop :=
  ∀ a ∈ s.members, a ∈ seed ∨ ∃ b, a ∈ g.neighboursOf b

theorem membersLinked_growAt {seed : List Nat} {s : Search} (h : g.MembersLinked seed s)
    (ha : a ∈ g.neighboursOf b) : g.MembersLinked seed (g.growAt s a) := by
  unfold growAt
  split
  · exact h
  dsimp only
  split
  · intro c hc
    rcases List.mem_append.mp hc with hc | hc
    · exact h c hc
    · exact Or.inr ⟨b, List.mem_singleton.mp hc ▸ ha⟩
  · exact h

theorem membersLinked_grow {seed : List Nat} (fuel : Nat) {s : Search}
    (h : g.MembersLinked seed s) : g.MembersLinked seed (g.grow fuel s) := by
  induction fuel generalizing s with
  | zero => exact h
  | succ fuel ih =>
    unfold grow
    split
    · exact h
    next b stack _ =>
      refine ih (List.foldlRecOn _ _ (motive := g.MembersLinked seed) h fun s hs a ha => ?_)
      exact membersLinked_growAt hs ha

/-- What a clique has grown to is linked with something, unless it was there from the beginning. -/
theorem mem_seed_or_neighboursOf {seed : List Nat} (h : a ∈ g.growClique seed) :
    a ∈ seed ∨ ∃ b, a ∈ g.neighboursOf b := by
  have hlinked : g.MembersLinked seed (g.grow (g.neighbours.size + seed.length)
      (g.searchFrom seed)) := membersLinked_grow _ fun c hc => Or.inl hc
  exact hlinked a h

/-! ## Covering by cliques -/

/-- A proposition of the list is in a clique of the cover, unless it was in one before. -/
theorem exists_mem_cover {vertices : List Nat} (assigned : Array Bool) (ha : a ∈ vertices)
    (hreal : g.isFictitious a = false) :
    assigned.getD a false = true ∨ ∃ clique ∈ g.cover assigned vertices, a ∈ clique := by
  induction vertices generalizing assigned with
  | nil => cases ha
  | cons b rest ih =>
    unfold cover
    split
    next hskip =>
      rcases List.mem_cons.mp ha with rfl | ha
      · rw [hreal, Bool.or_false] at hskip
        exact Or.inl hskip
      · exact ih assigned ha
    · rcases List.mem_cons.mp ha with rfl | ha
      · exact Or.inr ⟨_, List.mem_cons_self, mem_growClique g List.mem_cons_self⟩
      · rcases ih ((g.growClique [b]).foldl (fun marks b => marks.setIfInBounds b true) assigned)
          ha with h | ⟨clique, hclique, hmem⟩
        · exact (getD_foldl_set_iff.mp h).imp_right fun hmem => ⟨_, List.mem_cons_self, hmem.1⟩
        · exact Or.inr ⟨clique, List.mem_cons_of_mem _ hclique, hmem⟩

theorem exists_mem_cliquesOver {vertices : List Nat} (ha : a ∈ vertices)
    (hreal : g.isFictitious a = false) : ∃ clique ∈ g.cliquesOver vertices, a ∈ clique := by
  refine (exists_mem_cover _ ha hreal).resolve_left fun h => ?_
  rw [getD_replicate] at h
  cases h

/-- A clique of a cover is grown from a proposition of the list that was in no clique before. -/
theorem exists_of_mem_cover {assigned : Array Bool} {vertices clique : List Nat}
    (h : clique ∈ g.cover assigned vertices) : ∃ a ∈ vertices, g.isFictitious a = false ∧
      clique = g.growClique [a] ∧ assigned.getD a false = false := by
  induction vertices generalizing assigned with
  | nil => cases h
  | cons a rest ih =>
    unfold cover at h
    split at h
    · exact (ih h).imp fun b hb => ⟨List.mem_cons_of_mem _ hb.1, hb.2⟩
    next hstart =>
      rw [Bool.or_eq_true, not_or, Bool.not_eq_true, Bool.not_eq_true] at hstart
      rcases List.mem_cons.mp h with rfl | h
      · exact ⟨a, List.mem_cons_self, hstart.2, rfl, hstart.1⟩
      · obtain ⟨b, hb, hreal, hclique, hfree⟩ := ih h
        refine ⟨b, List.mem_cons_of_mem _ hb, hreal, hclique, ?_⟩
        rw [← Bool.not_eq_true] at hfree ⊢
        exact fun hassigned => hfree (getD_foldl_set_iff.mpr (Or.inl hassigned))

/-! ## Marks for propositions only -/

theorem foldlM_mark? (clique : List Nat) (marks : Array Bool) : clique.foldlM mark? marks =
    if ∀ a ∈ clique, a < marks.size then
      some (clique.foldl (fun marks a => marks.setIfInBounds a true) marks) else none := by
  induction clique generalizing marks with
  | nil => rfl
  | cons a rest ih =>
    rw [List.foldlM_cons, mark?]
    by_cases ha : a < marks.size
    · rw [if_pos ha]
      show rest.foldlM mark? (marks.setIfInBounds a true) = _
      rw [ih, Array.size_setIfInBounds]
      simp only [List.forall_mem_cons, ha, true_and, List.foldl_cons]
    · rw [if_neg ha, if_neg fun hall => ha (hall a List.mem_cons_self)]
      rfl

/-- Two tables of marks say the same of all propositions. The first one has no marks for other
vertices. -/
structure MarksAgree (g : Graph) (marks full : Array Bool) : Prop where
  size : marks.size = g.vertices.size
  size_le : g.vertices.size ≤ full.size
  same : ∀ a, g.isFictitious a = false → (marks.getD a false = true ↔ full.getD a false = true)

/-- They still do when propositions are marked in both. -/
theorem MarksAgree.foldl_set {marks full : Array Bool} (h : g.MarksAgree marks full)
    (clique : List Nat) :
    g.MarksAgree (clique.foldl (fun marks a => marks.setIfInBounds a true) marks)
      (clique.foldl (fun marks a => marks.setIfInBounds a true) full) := by
  induction clique generalizing marks full with
  | nil => exact h
  | cons a rest ih =>
    refine ih ⟨?_, ?_, fun b hb => ?_⟩
    · rw [Array.size_setIfInBounds, h.size]
    · rw [Array.size_setIfInBounds]
      exact h.size_le
    · rw [getD_set_true_iff, getD_set_true_iff, h.same b hb]
      have hlt : b < g.vertices.size := isFictitious_eq_false_iff.mp hb
      have hsize := h.size
      have hle := h.size_le
      refine or_congr_right (and_congr_right fun hab => ?_)
      omega

/-- A cover with marks for propositions only is the same cover, unless a clique takes in a vertex
that has no mark. -/
theorem coverMarked?_eq {marks full : Array Bool} {vertices : List Nat}
    (h : g.MarksAgree marks full) (hvertices : ∀ a ∈ vertices, g.isFictitious a = false) :
    g.coverMarked? marks vertices =
      if ∀ clique ∈ g.cover full vertices, ∀ a ∈ clique, g.isFictitious a = false then
        some (g.cover full vertices) else none := by
  induction vertices generalizing marks full with
  | nil => rfl
  | cons a rest ih =>
    obtain ⟨ha, hrest⟩ := List.forall_mem_cons.mp hvertices
    unfold coverMarked? cover
    by_cases hmarked : marks.getD a false = true
    · rw [if_pos hmarked, (h.same a ha).mp hmarked, Bool.true_or, if_pos rfl]
      exact ih h hrest
    have hfull : ¬(full.getD a false || g.isFictitious a) = true := by
      rw [ha, Bool.or_false, ← h.same a ha]
      exact hmarked
    rw [if_neg hmarked, if_neg hfull]
    dsimp only
    rw [foldlM_mark?, h.size]
    -- the clique is marked if its members are propositions, and then the rest is covered
    by_cases hclique : ∀ b ∈ g.growClique [a], g.isFictitious b = false
    · rw [if_pos fun b hb => isFictitious_eq_false_iff.mp (hclique b hb)]
      show (g.coverMarked? _ rest).bind _ = _
      rw [ih (h.foldl_set _) hrest,
        if_congr (List.forall_mem_cons.trans (and_iff_right hclique)) rfl rfl]
      split <;> rfl
    · rw [if_neg fun hlt => hclique fun b hb => isFictitious_eq_false_iff.mpr (hlt b hb),
        if_neg fun hall => hclique (hall _ List.mem_cons_self)]
      rfl

/-- All cliques of the partition consist of propositions. -/
def KeepsToPropositions (g : Graph) : Prop :=
  ∀ clique ∈ g.cliquesOver (List.range g.vertices.size), ∀ a ∈ clique, g.isFictitious a = false

instance (g : Graph) : Decidable g.KeepsToPropositions :=
  inferInstanceAs (Decidable (∀ clique ∈ _, ∀ a ∈ clique, _))

/-- **A graph is split into its cliques if they keep to the propositions**, and there is no result
otherwise. -/
theorem split?_eq (hsize : g.vertices.size ≤ g.neighbours.size) :
    g.split? = if g.KeepsToPropositions then some g.splitCliques else none := by
  have hagree : g.MarksAgree (Array.replicate g.vertices.size false)
      (Array.replicate g.neighbours.size false) := by
    refine ⟨Array.size_replicate, ?_, fun a _ => ?_⟩
    · rw [Array.size_replicate]
      exact hsize
    · rw [getD_replicate, getD_replicate]
  have hvertices : ∀ a ∈ List.range g.vertices.size, g.isFictitious a = false := fun a ha =>
    isFictitious_eq_false_iff.mpr (List.mem_range.mp ha)
  show (g.coverMarked? _ _).bind _ = _
  rw [coverMarked?_eq hagree hvertices]
  show Option.bind (if g.KeepsToPropositions then _ else none) _ = _
  split <;> rfl

/-- As long as a graph has only been added to, splitting it has a result. -/
theorem IsBuilt.split?_eq {R : VarId → VarId → Prop} (h : g.IsBuilt R) :
    g.split? = some g.splitCliques := by
  rw [Graph.split?_eq (Nat.le_of_eq h.size.symm), if_pos]
  intro clique hclique b hb
  obtain ⟨a, ha, -, rfl, -⟩ := exists_of_mem_cover hclique
  rcases mem_seed_or_neighboursOf hb with hb | ⟨c, hb⟩
  · rw [List.mem_singleton.mp hb]
    exact isFictitious_eq_false_iff.mpr (List.mem_range.mp ha)
  · obtain ⟨_, _, -, hget, -⟩ := h.related c b hb
    exact not_isFictitious_of_get? hget

/-! ## Connected components -/

/-- What holds of a search from a vertex, given what was visited before it. -/
structure Explores (g : Graph) (start : Nat) (seen : Nat → Prop) (s : Search) : Prop where
  size : s.visited.size ≤ g.neighbours.size
  start : start ∈ s.members ∨ start ∈ s.stack
  visited : ∀ a, s.visited.getD a false = true → seen a ∨ a ∈ s.members ∨ a ∈ s.stack

/-- The number of vertices that are on the stack or may be put there. -/
def Search.pending (s : Search) : Nat := s.stack.length + s.visited.count false

variable {start : Nat} {seen : Nat → Prop} {s : Search}

/-- A neighbour that is put on the stack was not visited before. -/
theorem exploreAt_explores (h : g.Explores start seen s) (a : Nat) :
    g.Explores start seen (exploreAt s a) ∧ (exploreAt s a).pending ≤ s.pending := by
  unfold exploreAt
  split
  · exact ⟨h, Nat.le_refl _⟩
  next hfree =>
    refine ⟨⟨?_, h.start.imp_right (List.mem_cons_of_mem _), fun b hb => ?_⟩, ?_⟩
    · exact Nat.le_trans (Nat.le_of_eq Array.size_setIfInBounds) h.size
    · rcases getD_set_true_iff.mp hb with hb | ⟨rfl, -⟩
      · exact (h.visited b hb).imp_right fun hb => hb.imp_right (List.mem_cons_of_mem _)
      · exact Or.inr (Or.inr List.mem_cons_self)
    · have hcount := count_false_set_lt_of_getD hfree
      show (a :: s.stack).length + (s.visited.setIfInBounds a true).count false ≤ _
      rw [List.length_cons, Search.pending]
      omega

/-- With enough fuel a search ends with an empty stack. -/
theorem explore_explores (fuel : Nat) (h : g.Explores start seen s) (hfuel : s.pending ≤ fuel) :
    g.Explores start seen (g.explore fuel s) ∧ (g.explore fuel s).stack = [] := by
  induction fuel generalizing s with
  | zero =>
    rw [Search.pending] at hfuel
    have hlength : s.stack.length = 0 := by omega
    exact ⟨h, List.length_eq_zero_iff.mp hlength⟩
  | succ fuel ih =>
    unfold explore
    split
    next hnil => exact ⟨h, hnil⟩
    next a stack hstack =>
      have hpop : g.Explores start seen { s with stack, members := s.members ++ [a] } := by
        have hmove : ∀ b, b ∈ s.members ∨ b ∈ s.stack → b ∈ s.members ++ [a] ∨ b ∈ stack := by
          intro b hb
          rw [hstack, List.mem_cons] at hb
          rw [List.mem_append, List.mem_singleton, or_assoc]
          exact hb
        exact ⟨h.size, hmove _ h.start, fun b hb => (h.visited b hb).imp_right (hmove b)⟩
      have hpending : { s with stack, members := s.members ++ [a] }.pending ≤ fuel := by
        rw [Search.pending, hstack, List.length_cons] at hfuel
        show stack.length + s.visited.count false ≤ fuel
        omega
      have hfold := List.foldlRecOn (g.neighboursOf a) exploreAt
        (motive := fun s => g.Explores start seen s ∧ s.pending ≤ fuel) ⟨hpop, hpending⟩
        fun s hs b _ => by
          obtain ⟨hexplores, hle⟩ := exploreAt_explores hs.1 b
          exact ⟨hexplores, Nat.le_trans hle hs.2⟩
      exact ih hfold.1 hfold.2

/-- The search for a component ends with an empty stack. -/
theorem explore_component {visited : Array Bool} (hsize : visited.size ≤ g.neighbours.size)
    (b : Nat) : g.Explores b (fun a => visited.getD a false = true)
      (g.explore (g.neighbours.size + 1) ⟨visited.setIfInBounds b true, [], [b]⟩) ∧
    (g.explore (g.neighbours.size + 1) ⟨visited.setIfInBounds b true, [], [b]⟩).stack = [] := by
  refine explore_explores _ ⟨?_, Or.inr List.mem_cons_self, fun c hc => ?_⟩ ?_
  · exact Nat.le_trans (Nat.le_of_eq Array.size_setIfInBounds) hsize
  · rcases getD_set_true_iff.mp hc with hc | ⟨rfl, -⟩
    · exact Or.inl hc
    · exact Or.inr (Or.inr List.mem_cons_self)
  · have hcount : (visited.setIfInBounds b true).count false ≤ visited.size :=
      Nat.le_trans Array.count_le_size (Nat.le_of_eq Array.size_setIfInBounds)
    show [b].length + (visited.setIfInBounds b true).count false ≤ _
    rw [List.length_singleton]
    omega

/-- A vertex of the list is in a component, unless it was visited before. -/
theorem exists_mem_componentsFrom {vertices : List Nat} (visited : Array Bool)
    (hsize : visited.size ≤ g.neighbours.size) (ha : a ∈ vertices) :
    visited.getD a false = true ∨
      ∃ component ∈ g.componentsFrom visited vertices, a ∈ component := by
  induction vertices generalizing visited with
  | nil => cases ha
  | cons b rest ih =>
    unfold componentsFrom
    split
    next hvisited =>
      rcases List.mem_cons.mp ha with rfl | ha
      · exact Or.inl hvisited
      · exact ih visited hsize ha
    · obtain ⟨hlast, hempty⟩ := explore_component hsize b
      dsimp only
      -- with the stack empty, what has been visited is in this component or was visited before
      have hdone : ∀ {c}, c ∈ (g.explore (g.neighbours.size + 1)
          ⟨visited.setIfInBounds b true, [], [b]⟩).stack → False := fun hc => by
        rw [hempty] at hc
        cases hc
      rcases List.mem_cons.mp ha with rfl | ha
      · exact Or.inr ⟨_, List.mem_cons_self, hlast.start.resolve_right hdone⟩
      · rcases ih _ hlast.size ha with h | ⟨component, hcomponent, hmem⟩
        · refine (hlast.visited a h).imp_right fun hmem => ?_
          exact ⟨_, List.mem_cons_self, hmem.resolve_right hdone⟩
        · exact Or.inr ⟨component, List.mem_cons_of_mem _ hcomponent, hmem⟩

theorem exists_mem_components (g : Graph) {vertices : List Nat} (ha : a ∈ vertices) :
    ∃ component ∈ g.components vertices, a ∈ component := by
  refine (exists_mem_componentsFrom _ (Nat.le_of_eq Array.size_replicate) ha).resolve_left
    fun h => ?_
  rw [getD_replicate] at h
  cases h

/-! ## Splitting -/

/-- A graph has the propositions of another one and at least its groups. -/
structure Extends (g g' : Graph) : Prop where
  vertices : g'.vertices = g.vertices
  groups : ∀ group ∈ g.groups, group ∈ g'.groups

namespace Extends

theorem refl (g : Graph) : g.Extends g := ⟨rfl, fun _ h => h⟩

theorem trans {g' g'' : Graph} (h : g.Extends g') (h' : g'.Extends g'') : g.Extends g'' :=
  ⟨h'.vertices.trans h.vertices, fun group hgroup => h'.groups group (h.groups group hgroup)⟩

theorem isFictitious {g' : Graph} (h : g.Extends g') (a : Nat) :
    g'.isFictitious a = g.isFictitious a := by
  rw [Graph.isFictitious, Graph.isFictitious, h.vertices]

end Extends

theorem addGroups_extends (g : Graph) (groups : List (List Nat)) :
    g.Extends (g.addGroups groups) := ⟨rfl, fun _ h => Array.mem_append.mpr (Or.inl h)⟩

theorem cutOff_extends (g : Graph) (clique : List Nat) : g.Extends (g.cutOff clique) := by
  unfold cutOff
  split
  · exact .refl g
  next a rest =>
    have hcut : g.Extends (rest.foldl (fun g b => g.unlink a b) g) :=
      foldl_rel Extends.refl Extends.trans fun g _ b _ => ⟨rfl, fun _ h => h⟩
    have hlinks : ∀ (g : Graph) (fictitious : Nat), g.Extends (rest.foldl
        (fun g b => if b == fictitious || g.isLinked fictitious b then g
          else g.link fictitious b) g) := fun g fictitious =>
      foldl_rel Extends.refl Extends.trans fun g _ b _ => by
        split
        · exact .refl g
        · exact ⟨rfl, fun _ h => h⟩
    dsimp only
    split
    · exact hcut.trans (hlinks _ _)
    · have hadded : ∀ g : Graph, g.Extends g.addFictitious := fun g => ⟨rfl, fun _ h => h⟩
      exact (hcut.trans (hadded _)).trans (hlinks _ _)

/-- The parts of a component contain its vertices. -/
theorem cutApart_extends (component : List Nat) (budget : Nat) (g : Graph) :
    g.Extends (cutApart component budget g).1 ∧ ∀ parts,
      (cutApart component budget g).2 = some parts →
        ∀ a ∈ component, ∃ part ∈ parts, a ∈ part := by
  induction budget generalizing g with
  | zero => exact ⟨.refl g, fun _ h => by cases h⟩
  | succ budget ih =>
    unfold cutApart
    split
    · exact ⟨.refl g, fun _ h => by cases h⟩
    next a b _ =>
      have hcut := cutOff_extends g (g.growClique [a, b])
      dsimp only
      split
      · refine ⟨hcut, fun parts hparts c hc => ?_⟩
        cases hparts
        exact exists_mem_components _ hc
      · obtain ⟨hext, hparts⟩ := ih (g.cutOff (g.growClique [a, b]))
        exact ⟨hcut.trans hext, hparts⟩

/-- Some group contains a vertex. -/
def Covers (g : Graph) (a : Nat) : Prop := ∃ group ∈ g.groups, a ∈ group

theorem Covers.mono {g' : Graph} (h : g.Covers a) (hext : g.Extends g') : g'.Covers a :=
  h.imp fun group hgroup => ⟨hext.groups group hgroup.1, hgroup.2⟩

theorem covers_addGroups {groups : List (List Nat)} (h : ∃ group ∈ groups, a ∈ group) :
    (g.addGroups groups).Covers a := by
  obtain ⟨group, hgroup, ha⟩ := h
  exact ⟨group, Array.mem_append.mpr (Or.inr (List.mem_toArray.mpr hgroup)), ha⟩

/-- A step that splits one component, repeated for a list of components, covers all of them. -/
theorem foldl_covers {f : Graph → List Nat → Graph}
    (hext : ∀ (g : Graph) component, g.Extends (f g component))
    (hcovers : ∀ (g : Graph) component, ∀ a ∈ component, g.isFictitious a = false →
      (f g component).Covers a) (components : List (List Nat)) (g : Graph) :
    g.Extends (components.foldl f g) ∧ ∀ component ∈ components, ∀ a ∈ component,
      g.isFictitious a = false → (components.foldl f g).Covers a := by
  refine ⟨foldl_rel Extends.refl Extends.trans fun g _ c _ => hext g c,
    fun component hcomponent a ha hreal => ?_⟩
  obtain ⟨g', hbefore, hafter⟩ :=
    exists_step_of_mem Extends.refl Extends.trans (s := g) (fun g c _ => hext g c) hcomponent
  refine (hcovers g' component a ha ?_).mono hafter
  rw [hbefore.isFictitious, hreal]

/-- Splitting components covers their propositions. -/
theorem splitAll_covers (fuel : Nat) (components : List (List Nat)) (g : Graph) :
    g.Extends (splitAll fuel components g) ∧ ∀ component ∈ components, ∀ a ∈ component,
      g.isFictitious a = false → (splitAll fuel components g).Covers a := by
  induction fuel generalizing components g with
  | zero =>
    exact foldl_covers (fun g component => addGroups_extends g _)
      (fun g component a ha hreal => covers_addGroups (exists_mem_cliquesOver ha hreal)) _ g
  | succ fuel ih =>
    refine foldl_covers (fun g component => ?_) (fun g component a ha hreal => ?_) _ g
    · split
      · exact addGroups_extends g _
      · have hcut := (cutApart_extends component (g.cutBudget component) g).1
        split
        next g' parts heq =>
          rw [heq] at hcut
          exact hcut.trans (ih parts g').1
        next g' heq =>
          rw [heq] at hcut
          exact hcut.trans (addGroups_extends g' _)
    · split
      · exact covers_addGroups ⟨component, List.mem_singleton_self _, ha⟩
      · obtain ⟨hcut, hparts⟩ := cutApart_extends component (g.cutBudget component) g
        split
        next g' parts heq =>
          -- the parts contain the vertices of the component, and are split further
          rw [heq] at hcut hparts
          obtain ⟨part, hpart, hmem⟩ := hparts parts rfl a ha
          exact (ih parts g').2 part hpart a hmem (by rw [hcut.isFictitious, hreal])
        next g' heq =>
          rw [heq] at hcut
          exact covers_addGroups
            (exists_mem_cliquesOver ha (by rw [hcut.isFictitious, hreal]))

variable {v : VarId}

theorem mem_range_of_get? (h : g.vertices.get? a = some v) : a ∈ List.range g.vertices.size :=
  List.mem_range.mpr (Array.getElem?_eq_some_iff.mp h).1

/-- **Every proposition of a split graph is in some group**, for both strategies. -/
theorem splitCliques_covers (h : g.vertices.get? a = some v) : g.splitCliques.Covers a := by
  obtain ⟨clique, hclique, hmem⟩ :=
    exists_mem_cliquesOver (mem_range_of_get? h) (not_isFictitious_of_get? h)
  exact ⟨clique, List.mem_toArray.mpr hclique, hmem⟩

theorem splitComponents_covers (h : g.vertices.get? a = some v) : g.splitComponents.Covers a := by
  obtain ⟨component, hcomponent, hmem⟩ := exists_mem_components g (mem_range_of_get? h)
  obtain ⟨hext, hcovers⟩ := splitAll_covers g.cutDepth (g.components (List.range g.vertices.size))
    { g with groups := #[] }
  obtain ⟨group, hgroup, ha⟩ := hcovers component hcomponent a hmem (not_isFictitious_of_get? h)
  refine ⟨group, Array.mem_filter.mpr ⟨hgroup, ?_⟩, ha⟩
  -- a group of one vertex that is dropped does not contain a proposition
  split
  · cases List.mem_singleton.mp ha
    rw [hext.isFictitious]
    show (!g.isFictitious a) = true
    rw [not_isFictitious_of_get? h]
    rfl
  · rfl

end Graph

end TemporalPlanning.Mutex
