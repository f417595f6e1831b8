import TemporalPlanning.Mutex.Graph
import TemporalPlanning.Proofs.Mutex.Progress
import TemporalPlanning.Proofs.Registry
/-!
Groups of a mutex graph consist of related propositions.

The graph is built with a link for every mutex pair and no others. Splitting by components then
changes it: links are cut, and links to fictitious vertices are made. Neither adds a link between
two propositions, so what is linked remains related (`Graph.Respects`), whatever is cut. A group is
either grown one vertex at a time, each linked with all members so far, or it has been checked to
be a clique; both times its propositions are related in the graph as it is then, and therefore in
the relation.
-/
set_option autoImplicit false

namespace TemporalPlanning.Mutex

namespace Graph

/-! ## Changing links -/

theorem getD_modify {α : Type} (xs : Array α) (f : α → α) (i j : Nat) (d : α) :
    (xs.modify i f).getD j d = if i = j ∧ i < xs.size then f (xs.getD j d) else xs.getD j d := by
  simp only [Array.getD_eq_getD_getElem?, Array.getElem?_modify]
  split
  next h =>
    subst h
    by_cases hlt : i < xs.size
    · rw [if_pos ⟨rfl, hlt⟩, Array.getElem?_eq_getElem hlt, Option.map_some, Option.getD_some,
        Option.getD_some]
    · rw [if_neg fun h => hlt h.2, Array.getElem?_eq_none (Nat.le_of_not_lt hlt)]
      rfl
  next h => rw [if_neg fun hij => h hij.1]

theorem mem_modify_append {xs : Array (List Nat)} {i j x y : Nat}
    (h : y ∈ (xs.modify i (· ++ [x])).getD j []) : y ∈ xs.getD j [] ∨ (i = j ∧ y = x) := by
  rw [getD_modify] at h
  split at h
  next hij =>
    rcases List.mem_append.mp h with h | h
    · exact Or.inl h
    · exact Or.inr ⟨hij.1, List.mem_singleton.mp h⟩
  · exact Or.inl h

theorem mem_of_mem_modify_filter {xs : Array (List Nat)} {i j y : Nat} {p : Nat → Bool}
    (h : y ∈ (xs.modify i (·.filter p)).getD j []) : y ∈ xs.getD j [] := by
  rw [getD_modify] at h
  split at h
  · exact (List.mem_filter.mp h).1
  · exact h

variable {g : Graph} {a b c d : Nat}

theorem isLinked_iff : g.isLinked a b = true ↔ b ∈ g.neighboursOf a := List.contains_iff_mem

theorem isFictitious_eq_true_iff : g.isFictitious a = true ↔ g.vertices.size ≤ a := decide_eq_true_iff

theorem isFictitious_eq_false_iff : g.isFictitious a = false ↔ a < g.vertices.size := by
  rw [isFictitious, decide_eq_false_iff_not, Nat.not_le]

/-- The vertices of propositions are not fictitious. -/
theorem not_isFictitious_of_get? {v : VarId} (ha : g.vertices.get? a = some v) :
    g.isFictitious a = false := isFictitious_eq_false_iff.mpr (Array.getElem?_eq_some_iff.mp ha).1

/-- A link that has been made joins the two vertices. -/
theorem mem_neighboursOf_link (h : d ∈ (g.link a b).neighboursOf c) :
    d ∈ g.neighboursOf c ∨ (c = a ∧ d = b) ∨ (c = b ∧ d = a) := by
  rcases mem_modify_append h with h | ⟨rfl, rfl⟩
  · rcases mem_modify_append h with h | ⟨rfl, rfl⟩
    · exact Or.inl h
    · exact Or.inr (Or.inl ⟨rfl, rfl⟩)
  · exact Or.inr (Or.inr ⟨rfl, rfl⟩)

theorem mem_neighboursOf_unlink (h : d ∈ (g.unlink a b).neighboursOf c) : d ∈ g.neighboursOf c :=
  mem_of_mem_modify_filter (mem_of_mem_modify_filter h)

/-- A new vertex has no links. -/
theorem mem_of_mem_push {xs : Array (List Nat)} {y : Nat}
    (h : y ∈ (xs.push []).getD c []) : y ∈ xs.getD c [] := by
  rw [Array.getD_eq_getD_getElem?, Array.getElem?_push] at h
  split at h
  · cases h
  · rwa [Array.getD_eq_getD_getElem?]

/-! ## Building a graph -/

/-- A graph as it is built: links join related propositions. -/
structure IsBuilt (R : VarId → VarId → Prop) (g : Graph) : Prop where
  size : g.neighbours.size = g.vertices.size
  related : ∀ a, ∀ b ∈ g.neighboursOf a, ∃ v w, g.vertices.get? a = some v ∧
    g.vertices.get? b = some w ∧ R v w
  groups : g.groups = #[]

/-- A proposition is a vertex of a graph. -/
def HasVertex (g : Graph) (v : VarId) : Prop := ∃ a, g.vertices.get? a = some v

/-- A proposition that is found is at the position where it is found. -/
theorem get?_of_find? {v : VarId} (h : g.vertices.find? v.index = some a) :
    g.vertices.get? a = some v := by
  obtain ⟨w, hw, hindex⟩ := Option.map_eq_some_iff.mp ((g.vertices.find?_eq_some_iff _ _).mp h)
  rw [hw]
  exact congrArg (fun i => some (VarId.mk i)) hindex

/-- Vertices keep their positions when one is added. -/
theorem get?_addVertex (v : VarId) {w : VarId} (h : g.vertices.get? a = some w) :
    (g.addVertex v).vertices.get? a = some w := by
  unfold addVertex
  split
  · exact h
  · rcases g.vertices.get?_intern_snd v a with hsame | ⟨-, hnone, -⟩
    · exact hsame.trans h
    · rw [hnone] at h
      cases h

theorem hasVertex_addVertex (v : VarId) : (g.addVertex v).HasVertex v := by
  unfold addVertex
  split
  next a ha => exact ⟨a, get?_of_find? ha⟩
  · have hfound := g.vertices.find?_intern_self v
    exact ⟨_, get?_of_find? (g := { g with vertices := (g.vertices.intern v).2 }) hfound⟩

theorem HasVertex.addVertex {w : VarId} (h : g.HasVertex w) (v : VarId) :
    (g.addVertex v).HasVertex w := h.imp fun _ ha => get?_addVertex v ha

theorem HasVertex.addAdjacent {u : VarId} (h : g.HasVertex u) (v w : VarId) :
    (g.addAdjacent v w).HasVertex u := by
  have hadded := (h.addVertex v).addVertex w
  unfold Graph.addAdjacent
  generalize (g.addVertex v).addVertex w = g' at hadded
  split
  · exact h
  dsimp only
  split
  · split <;> exact hadded
  · exact hadded

variable {R : VarId → VarId → Prop}

theorem isBuilt_empty : empty.IsBuilt R := by
  refine ⟨rfl, fun a b hb => ?_, rfl⟩
  rw [neighboursOf, Array.getD_eq_getD_getElem?, Array.getElem?_eq_none (Nat.zero_le a)] at hb
  cases hb

/-- A new vertex comes with an empty list of neighbours at its own position. -/
theorem IsBuilt.addVertex (h : g.IsBuilt R) (v : VarId) : (g.addVertex v).IsBuilt R := by
  refine ⟨?_, fun a b hb => ?_, ?_⟩
  · unfold Graph.addVertex
    split
    · exact h.size
    next hnew =>
      show (g.neighbours.push []).size = (g.vertices.intern v).2.entries.size
      rw [Array.size_push, h.size, Registry.intern]
      split
      next i hi =>
        rw [hnew] at hi
        cases hi
      · exact (Array.size_push _).symm
  · have hold : b ∈ g.neighboursOf a := by
      unfold Graph.addVertex at hb
      split at hb
      · exact hb
      · exact mem_of_mem_push hb
    obtain ⟨x, y, hx, hy, hxy⟩ := h.related a b hold
    exact ⟨x, y, get?_addVertex v hx, get?_addVertex v hy, hxy⟩
  · unfold Graph.addVertex
    split <;> exact h.groups

/-- A new link joins two related propositions in both directions. -/
theorem IsBuilt.link [Std.Symm R] (h : g.IsBuilt R) {v w : VarId}
    (ha : g.vertices.get? a = some v) (hb : g.vertices.get? b = some w) (hvw : R v w) :
    (g.link a b).IsBuilt R := by
  refine ⟨?_, fun c d hd => ?_, h.groups⟩
  · rw [Graph.link, Array.size_modify, Array.size_modify]
    exact h.size
  · rcases mem_neighboursOf_link hd with hd | ⟨rfl, rfl⟩ | ⟨rfl, rfl⟩
    · exact h.related c d hd
    · exact ⟨v, w, ha, hb, hvw⟩
    · exact ⟨w, v, hb, ha, Std.Symm.symm v w hvw⟩

/-- Linking two related propositions keeps the graph built from the relation. -/
theorem IsBuilt.addAdjacent [Std.Symm R] (h : g.IsBuilt R) {v w : VarId}
    (hvw : R v w) : (g.addAdjacent v w).IsBuilt R := by
  have hadded := (h.addVertex v).addVertex w
  unfold Graph.addAdjacent
  generalize (g.addVertex v).addVertex w = g' at hadded
  split
  · exact h
  dsimp only
  split
  next a b ha hb =>
    split
    · exact hadded
    · exact hadded.link (get?_of_find? ha) (get?_of_find? hb) hvw
  · exact hadded

/-! ## Graphs whose links respect a relation -/

/-- The propositions among some vertices are related, each with the later ones. -/
def AreRelated (vertices : Registry Nat VarId VarId.index) (R : VarId → VarId → Prop)
    (members : List Nat) : Prop := (members.filterMap vertices.get?).Pairwise R

/-- Links between propositions and groups of them respect a relation. Vertices behind the
propositions are fictitious. -/
structure Respects (vertices : Registry Nat VarId VarId.index) (R : VarId → VarId → Prop)
    (g : Graph) : Prop where
  vertices_eq : g.vertices = vertices
  size_le : vertices.size ≤ g.neighbours.size
  related : ∀ a, ∀ b ∈ g.neighboursOf a, ∀ v w, vertices.get? a = some v →
    vertices.get? b = some w → R v w
  groups : ∀ group ∈ g.groups, AreRelated vertices R group

/-- As long as nothing has been split, all links are between related propositions. -/
theorem IsBuilt.respects (h : g.IsBuilt R) : g.Respects g.vertices R := by
  refine ⟨rfl, Nat.le_of_eq h.size.symm, fun a b hb v w hv hw => ?_, fun group hgroup => ?_⟩
  · obtain ⟨v', w', hv', hw', hrelated⟩ := h.related a b hb
    rw [hv] at hv'
    rw [hw] at hw'
    cases hv'
    cases hw'
    exact hrelated
  · rw [h.groups] at hgroup
    exact absurd hgroup (Array.not_mem_empty group)

namespace Respects

variable {vertices : Registry Nat VarId VarId.index}

/-- A vertex stands for no proposition exactly if it is fictitious. -/
theorem get?_eq_none_of_isFictitious (h : g.Respects vertices R) (ha : g.isFictitious a = true) :
    vertices.get? a = none := by
  rw [isFictitious, h.vertices_eq] at ha
  exact Array.getElem?_eq_none (of_decide_eq_true ha)

theorem unlink (h : g.Respects vertices R) (a b : Nat) : (g.unlink a b).Respects vertices R := by
  refine ⟨h.vertices_eq, ?_, fun c d hd => h.related c d (mem_neighboursOf_unlink hd), h.groups⟩
  show vertices.size ≤ ((g.neighbours.modify _ _).modify _ _).size
  rw [Array.size_modify, Array.size_modify]
  exact h.size_le

/-- A link to a fictitious vertex relates nothing. -/
theorem link (h : g.Respects vertices R) (ha : vertices.get? a = none) (b : Nat) :
    (g.link a b).Respects vertices R := by
  refine ⟨h.vertices_eq, ?_, fun c d hd v w hv hw => ?_, h.groups⟩
  · show vertices.size ≤ ((g.neighbours.modify _ _).modify _ _).size
    rw [Array.size_modify, Array.size_modify]
    exact h.size_le
  · rcases mem_neighboursOf_link hd with hd | ⟨rfl, -⟩ | ⟨-, rfl⟩
    · exact h.related c d hd v w hv hw
    · rw [ha] at hv
      cases hv
    · rw [ha] at hw
      cases hw

/-- A vertex that stands for no proposition cannot break the relation. -/
theorem addFictitious (h : g.Respects vertices R) : g.addFictitious.Respects vertices R := by
  refine ⟨h.vertices_eq, ?_, fun c d hd => h.related c d (mem_of_mem_push hd), h.groups⟩
  show vertices.size ≤ (g.neighbours.push []).size
  rw [Array.size_push]
  exact Nat.le_succ_of_le h.size_le

/-- Groups of related propositions may be added. -/
theorem addGroups (h : g.Respects vertices R) {groups : List (List Nat)}
    (hgroups : ∀ group ∈ groups, AreRelated vertices R group) :
    (g.addGroups groups).Respects vertices R := by
  refine ⟨h.vertices_eq, h.size_le, h.related, fun group hgroup => ?_⟩
  rcases Array.mem_append.mp hgroup with hgroup | hgroup
  · exact h.groups group hgroup
  · exact hgroups group (List.mem_toArray.mp hgroup)

/-! ### Cutting -/

/-- The links that cutting off a clique makes have a fictitious end. -/
theorem cutOff (h : g.Respects vertices R) (clique : List Nat) :
    (g.cutOff clique).Respects vertices R := by
  unfold Graph.cutOff
  split
  · exact h
  next a rest =>
    have hcut : (rest.foldl (fun g b => g.unlink a b) g).Respects vertices R :=
      List.foldlRecOn rest _ (motive := fun g : Graph => g.Respects vertices R) h
        fun g hg b _ => hg.unlink a b
    -- the vertex that takes the place of the first one is fictitious
    have hlinks : ∀ {g : Graph} {fictitious : Nat}, g.Respects vertices R →
        vertices.get? fictitious = none →
        (rest.foldl (fun g b => if b == fictitious || g.isLinked fictitious b then g
          else g.link fictitious b) g).Respects vertices R := fun hg hnone =>
      List.foldlRecOn rest _ (motive := fun g : Graph => g.Respects vertices R) hg
        fun g hg b _ => by
          split
          · exact hg
          · exact hg.link hnone b
    dsimp only
    split
    next b hb => exact hlinks hcut (h.get?_eq_none_of_isFictitious (List.find?_some hb))
    · exact hlinks hcut.addFictitious (Array.getElem?_eq_none hcut.size_le)

/-- The relation is respected whenever cutting stops. -/
theorem cutApart (component : List Nat) (budget : Nat) (h : g.Respects vertices R) :
    (Graph.cutApart component budget g).1.Respects vertices R := by
  induction budget generalizing g with
  | zero => exact h
  | succ budget ih =>
    unfold Graph.cutApart
    split
    · exact h
    next a b _ =>
      dsimp only
      split
      · exact h.cutOff _
      · exact ih (h.cutOff _)

/-! ### Cliques -/

/-- Vertices that are linked pairwise stand for related propositions, and fictitious ones among them
for none. -/
theorem areRelated_of_pairwise [Std.Symm R] (h : g.Respects vertices R)
    {members : List Nat}
    (hmembers : members.Pairwise fun a b => a ∈ g.neighboursOf b ∨ b ∈ g.neighboursOf a) :
    AreRelated vertices R members := by
  refine List.pairwise_filterMap.mpr (hmembers.imp fun {a b} hab v hv w hw => ?_)
  rcases hab with hab | hab
  · exact Std.Symm.symm w v (h.related b a hab w v hw hv)
  · exact h.related a b hab v w hv hw

end Respects

/-! ## Growing cliques -/

/-- Members are linked with the earlier ones. -/
def IsClique (g : Graph) (members : List Nat) : Prop :=
  members.Pairwise fun a b => a ∈ g.neighboursOf b

/-- A search goes on with more members. -/
structure Search.Extends (g : Graph) (s s' : Search) : Prop where
  members : ∀ a ∈ s.members, a ∈ s'.members
  isClique : g.IsClique s.members → g.IsClique s'.members

namespace Search.Extends

theorem refl (g : Graph) (s : Search) : Extends g s s := ⟨fun _ h => h, id⟩

theorem trans {s s' s'' : Search} (h : Extends g s s') (h' : Extends g s' s'') :
    Extends g s s'' :=
  ⟨fun a ha => h'.members a (h.members a ha), fun hs => h'.isClique (h.isClique hs)⟩

end Search.Extends

/-- A vertex is only added to a search if it is linked with all members. -/
theorem growAt_extends (g : Graph) (s : Search) (a : Nat) : Search.Extends g s (g.growAt s a) := by
  unfold growAt
  split
  · exact .refl g s
  · dsimp only
    split
    next hall =>
      refine ⟨fun b hb => List.mem_append_left _ hb, fun hs => ?_⟩
      refine List.pairwise_append.mpr ⟨hs, List.pairwise_singleton _ _, fun b hb c hc => ?_⟩
      cases List.mem_singleton.mp hc
      exact isLinked_iff.mp (List.all_eq_true.mp hall b hb)
    · exact ⟨fun _ hb => hb, id⟩

/-- Growing never loses a member, and a clique stays one. -/
theorem grow_extends (g : Graph) (fuel : Nat) (s : Search) :
    Search.Extends g s (g.grow fuel s) := by
  induction fuel generalizing s with
  | zero => exact .refl g s
  | succ fuel ih =>
    unfold grow
    split
    · exact .refl g s
    next a stack _ =>
      have hgrown : Search.Extends g { s with stack }
          ((g.neighboursOf a).foldl g.growAt { s with stack }) :=
        foldl_rel (Search.Extends.refl g) Search.Extends.trans fun s' _ b _ => growAt_extends g s' b
      exact Search.Extends.trans ⟨hgrown.members, hgrown.isClique⟩ (ih _)

/-- A clique contains the vertices from which it is grown. -/
theorem mem_growClique (g : Graph) {seed : List Nat} (ha : a ∈ seed) : a ∈ g.growClique seed :=
  (grow_extends g _ (g.searchFrom seed)).members a ha

theorem isClique_growClique (g : Graph) (a : Nat) : g.IsClique (g.growClique [a]) :=
  (grow_extends g _ (g.searchFrom [a])).isClique (List.pairwise_singleton _ _)

/-- Every set of a cover is a clique, as it has been grown from one vertex. -/
theorem isClique_of_mem_cover {assigned : Array Bool} {vertices : List Nat} {clique : List Nat}
    (h : clique ∈ g.cover assigned vertices) : g.IsClique clique := by
  induction vertices generalizing assigned with
  | nil => cases h
  | cons a rest ih =>
    unfold cover at h
    split at h
    · exact ih h
    · rcases List.mem_cons.mp h with rfl | h
      · exact isClique_growClique g a
      · exact ih h

theorem pairwise_of_isClique {members : List Nat} (h : g.isClique members = true) :
    members.Pairwise fun a b => b ∈ g.neighboursOf a := by
  induction members with
  | nil => exact List.Pairwise.nil
  | cons a rest ih =>
    obtain ⟨hall, hrest⟩ := Bool.and_eq_true_iff.mp h
    exact List.Pairwise.cons (fun b hb => isLinked_iff.mp (List.all_eq_true.mp hall b hb))
      (ih hrest)

/-! ## Splitting -/

section Splitting

variable {vertices : Registry Nat VarId VarId.index} [Std.Symm R]

theorem areRelated_of_mem_cliquesOver (h : g.Respects vertices R) {members clique : List Nat}
    (hclique : clique ∈ g.cliquesOver members) : AreRelated vertices R clique :=
  h.areRelated_of_pairwise ((isClique_of_mem_cover hclique).imp Or.inl)

/-- All groups that splitting adds consist of related propositions. -/
theorem splitAll_respects (fuel : Nat) (components : List (List Nat))
    (h : g.Respects vertices R) : (splitAll fuel components g).Respects vertices R := by
  induction fuel generalizing components g with
  | zero =>
    refine List.foldlRecOn components _ (motive := fun g : Graph => g.Respects vertices R) h
      fun g hg component _ => ?_
    exact hg.addGroups fun group hgroup => areRelated_of_mem_cliquesOver hg hgroup
  | succ fuel ih =>
    refine List.foldlRecOn components _ (motive := fun g : Graph => g.Respects vertices R) h
      fun g hg component _ => ?_
    split
    next hclique =>
      refine hg.addGroups fun group hgroup => ?_
      rw [List.mem_singleton.mp hgroup]
      exact hg.areRelated_of_pairwise ((pairwise_of_isClique hclique).imp Or.inr)
    · -- the cliques are taken from the graph as it is after cutting, which has no new links between
      -- propositions
      have hcut := hg.cutApart component (g.cutBudget component)
      split
      next g' parts heq =>
        rw [heq] at hcut
        exact ih parts hcut
      next g' heq =>
        rw [heq] at hcut
        exact hcut.addGroups fun group hgroup => areRelated_of_mem_cliquesOver hcut hgroup

/-- **The groups of a split graph are related propositions**, for both strategies. -/
theorem splitCliques_respects (h : g.Respects vertices R) :
    g.splitCliques.Respects vertices R :=
  ⟨h.vertices_eq, h.size_le, h.related, fun _ hgroup =>
    areRelated_of_mem_cliquesOver h (List.mem_toArray.mp hgroup)⟩

/-- Splitting by components respects the relation. -/
theorem splitComponents_respects (h : g.Respects vertices R) :
    g.splitComponents.Respects vertices R := by
  have hempty : { g with groups := #[] }.Respects vertices R :=
    ⟨h.vertices_eq, h.size_le, h.related, fun group hgroup =>
      absurd hgroup (Array.not_mem_empty group)⟩
  have hsplit := splitAll_respects g.cutDepth (g.components (List.range g.vertices.size))
    hempty
  exact ⟨hsplit.vertices_eq, hsplit.size_le, hsplit.related, fun group hgroup =>
    hsplit.groups group (Array.mem_filter.mp hgroup).1⟩

end Splitting

end Graph

end TemporalPlanning.Mutex
