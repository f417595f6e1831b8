import Mathlib.Logic.Relation
import TemporalPlanning.Proofs.Mutex.LinkCounts
/-!
Splitting a mutex graph by components ends.

Components are split one after the other. A clique becomes a group, and any other component is cut
until it falls apart into components that are split in turn. Here this is done in single steps, and
with any limit on the number of cuts of a component or with none.

It is not obvious that the steps come to an end: a cut may add a vertex and as many links as it
removes, and a part may have all propositions of its component. But every cut decreases the numbers
of links in lexicographic order (`Graph.linkCounts`), because no two fictitious vertices are ever
linked. All other steps leave the links as they are and leave less to be done. The function that
splits a graph makes the same steps; its depth is bounded by a number that exceeds the number of
cuts, so the bound is never met.
-/
set_option autoImplicit false

namespace TemporalPlanning.Mutex

/-! ## Searches -/

namespace Graph

variable {g : Graph} {a b : Nat}

theorem pending_growAt_le (s : Search) (a : Nat) : (g.growAt s a).pending ≤ s.pending := by
  unfold growAt
  split
  · exact Nat.le_refl _
  next hfree =>
    have hcount := count_false_set_lt_of_getD hfree
    dsimp only
    split
    · show (a :: s.stack).length + (s.visited.setIfInBounds a true).count false ≤ _
      rw [List.length_cons, Search.pending]
      omega
    · exact Nat.add_le_add_left hcount.le _

/-- With enough fuel no vertex is left whose neighbours are to be looked at. -/
theorem stack_grow_eq_nil (fuel : Nat) {s : Search} (hfuel : s.pending ≤ fuel) :
    (g.grow fuel s).stack = [] := by
  induction fuel generalizing s with
  | zero =>
    rw [Search.pending] at hfuel
    have hlength : s.stack.length = 0 := by omega
    exact List.length_eq_zero_iff.mp hlength
  | succ fuel ih =>
    unfold grow
    split
    next hnil => exact hnil
    next a stack hstack =>
      refine ih (List.foldlRecOn _ _ (motive := fun s => s.pending ≤ fuel) ?_ fun s hs b _ =>
        (pending_growAt_le s b).trans hs)
      rw [Search.pending, hstack, List.length_cons] at hfuel
      show stack.length + s.visited.count false ≤ fuel
      omega

/-- The searches of a graph end: nothing is left on their stacks when the fuel is used up. -/
structure SearchesEnd (g : Graph) : Prop where
  grow : ∀ seed, (g.grow (g.neighbours.size + seed.length) (g.searchFrom seed)).stack = []
  explore : ∀ (visited : Array Bool) (a : Nat), visited.size ≤ g.neighbours.size →
    (g.explore (g.neighbours.size + 1) ⟨visited.setIfInBounds a true, [], [a]⟩).stack = []

theorem size_searchFrom (g : Graph) (seed : List Nat) :
    (g.searchFrom seed).visited.size = g.neighbours.size :=
  List.foldlRecOn seed _ (motive := fun visited : Array Bool => visited.size = g.neighbours.size)
    Array.size_replicate fun _ hsize _ _ => Array.size_setIfInBounds.trans hsize

theorem searchesEnd (g : Graph) : g.SearchesEnd := by
  refine ⟨fun seed => stack_grow_eq_nil _ ?_, fun visited a hsize => (explore_component hsize a).2⟩
  have hcount : (g.searchFrom seed).visited.count false ≤ g.neighbours.size :=
    Array.count_le_size.trans (size_searchFrom g seed).le
  have hstack : (g.searchFrom seed).stack.length = seed.length := List.length_reverse
  rw [Search.pending, hstack]
  omega

/-! ## The bound on the depth -/

/-- Every link is listed at both of its ends, so there are no more links than entries in the table. -/
theorem card_links_le (g : Graph) : g.realLinks.card + g.fictitiousLinks.card ≤
    ((List.range g.neighbours.size).flatMap g.neighboursOf).length := by
  have hdisjoint : Disjoint g.realLinks g.fictitiousLinks := by
    refine Finset.disjoint_left.mpr fun p hreal hfictitious => ?_
    have hlt := (Finset.mem_product.mp (Finset.mem_filter.mp hreal).1).2
    exact Nat.not_lt_of_le (Finset.mem_filter.mp hfictitious).2.1 (Finset.mem_range.mp hlt)
  have hsubset : g.realLinks ∪ g.fictitiousLinks ⊆ ((List.range g.neighbours.size).flatMap fun a =>
      (g.neighboursOf a).map (a, ·)).toFinset := by
    rintro ⟨a, b⟩ hlink
    have hb : b ∈ g.neighboursOf a := (Finset.mem_union.mp hlink).elim
      (fun hlink => (Finset.mem_filter.mp hlink).2.2) fun hlink => (Finset.mem_filter.mp hlink).2.2
    rw [List.mem_toFinset, List.mem_flatMap]
    exact ⟨a, List.mem_range.mpr (lt_size_of_mem_neighboursOf hb), List.mem_map_of_mem hb⟩
  rw [← Finset.card_union_of_disjoint hdisjoint]
  refine (Finset.card_le_card hsubset).trans ((List.toFinset_card_le _).trans ?_)
  simp only [List.length_flatMap, List.length_map, Nat.le_refl]

/-- The bound on the depth exceeds the number of cuts. -/
theorem potential_lt_cutDepth (g : Graph) : g.potential < g.cutDepth := by
  refine Nat.lt_succ_of_le ?_
  calc g.realLinks.card * (g.vertices.size + 1) + g.fictitiousLinks.card
      ≤ (g.realLinks.card + g.fictitiousLinks.card) * (g.vertices.size + 1) := by
        rw [Nat.add_mul]
        exact Nat.add_le_add_left (Nat.le_mul_of_pos_right _ (Nat.succ_pos _)) _
    _ ≤ ((List.range g.neighbours.size).flatMap g.neighboursOf).length * (g.vertices.size + 1) :=
        Nat.mul_le_mul_right _ g.card_links_le

end Graph

/-! ## Single steps -/

/-- What is to be done with a component: it is looked at, or it is cut at most as often as a budget
allows if there is one. -/
inductive Job where
  | inspect (component : List Nat)
  | cut (component : List Nat) (budget : Option Nat)

/-- A graph that is being split, and what is still to be done. -/
structure Splitting where
  graph : Graph
  jobs : List Job

namespace Splitting

/-- The beginning: all components are to be looked at. -/
def start (g : Graph) : Splitting where
  graph := { g with groups := #[] }
  jobs := (g.components (List.range g.vertices.size)).map .inspect

/-- What is to be done with a component that has been cut: its parts are looked at if there are
several, and otherwise it is cut again. -/
def afterCut (g : Graph) (component : List Nat) (budget : Option Nat) : List Job :=
  if 1 < (g.components component).length then (g.components component).map .inspect
  else [.cut component (budget.map (· - 1))]

/-- A step, where `limit` is the number of cuts that may be tried on a component of a graph. -/
inductive Step (limit : Graph → List Nat → Option Nat) : Splitting → Splitting → Prop
  /-- A clique becomes a group. -/
  | group {g : Graph} {component : List Nat} {jobs : List Job}
      (hclique : g.isClique component = true) :
      Step limit ⟨g, .inspect component :: jobs⟩ ⟨g.addGroups [component], jobs⟩
  /-- Any other component is to be cut. -/
  | begin {g : Graph} {component : List Nat} {jobs : List Job}
      (hclique : g.isClique component = false) :
      Step limit ⟨g, .inspect component :: jobs⟩ ⟨g, .cut component (limit g component) :: jobs⟩
  | cut {g : Graph} {component : List Nat} {budget : Option Nat} {jobs : List Job} {a b : Nat}
      (hbudget : budget ≠ some 0) (hnext : g.nextCut? component = some (a, b)) :
      Step limit ⟨g, .cut component budget :: jobs⟩
        ⟨g.cutOff (g.growClique [a, b]),
          afterCut (g.cutOff (g.growClique [a, b])) component budget ++ jobs⟩
  /-- A component that cannot be cut any more is covered by cliques. -/
  | cover {g : Graph} {component : List Nat} {budget : Option Nat} {jobs : List Job}
      (hend : budget = some 0 ∨ g.nextCut? component = none) :
      Step limit ⟨g, .cut component budget :: jobs⟩
        ⟨g.addGroups (g.cliquesOver component), jobs⟩

/-- Some number of steps. -/
abbrev Reaches (limit : Graph → List Nat → Option Nat) : Splitting → Splitting → Prop :=
  Relation.ReflTransGen (Step limit)

variable {limit : Graph → List Nat → Option Nat} {s s' s'' : Splitting}

/-- There is at most one way to go on. -/
theorem Step.unique (h : Step limit s s') (h' : Step limit s s'') : s' = s'' := by
  cases h with
  | group hclique =>
    cases h' with
    | group => rfl
    | begin hother =>
      rw [hclique] at hother
      cases hother
  | begin hclique =>
    cases h' with
    | group hother =>
      rw [hclique] at hother
      cases hother
    | begin => rfl
  | cut hbudget hnext =>
    cases h' with
    | cut _ hother =>
      rw [hnext] at hother
      cases hother
      rfl
    | cover hend =>
      rw [hnext] at hend
      exact absurd (hend.resolve_right (Option.some_ne_none _)) hbudget
  | cover hend =>
    cases h' with
    | cut hbudget hnext =>
      rw [hnext] at hend
      exact absurd (hend.resolve_right (Option.some_ne_none _)) hbudget
    | cover => rfl

/-- As long as there is something to be done, there is exactly one way to go on. -/
theorem existsUnique_step (limit : Graph → List Nat → Option Nat) (h : s.jobs ≠ []) :
    ∃! s', Step limit s s' := by
  obtain ⟨s', hstep⟩ : ∃ s', Step limit s s' := by
    obtain ⟨g, jobs⟩ := s
    cases jobs with
    | nil => exact absurd rfl h
    | cons job jobs =>
      cases job with
      | inspect component =>
        cases hclique : g.isClique component with
        | true => exact ⟨_, .group hclique⟩
        | false => exact ⟨_, .begin hclique⟩
      | cut component budget =>
        by_cases hbudget : budget = some 0
        · exact ⟨_, .cover (Or.inl hbudget)⟩
        cases hnext : g.nextCut? component with
        | none => exact ⟨_, .cover (Or.inr hnext)⟩
        | some link => exact ⟨_, .cut hbudget hnext⟩
  exact ⟨s', hstep, fun s'' hother => hother.unique hstep⟩

/-! ## Steps come to an end -/

theorem Step.isSeparated (h : Step limit s s') (hs : s.graph.IsSeparated) :
    s'.graph.IsSeparated := by
  have hgroups : ∀ {g : Graph} (groups : List (List Nat)), g.IsSeparated →
      (g.addGroups groups).IsSeparated := fun groups hg =>
    ⟨(hg.cuts_addGroups groups).isTidy, hg.separated⟩
  cases h with
  | group => exact hgroups _ hs
  | begin => exact hs
  | cut _ hnext =>
    obtain ⟨f, rest, hcut⟩ := hs.exists_isCut hnext
    exact hcut.isSeparated hs
  | cover => exact hgroups _ hs

theorem Step.potential_le (h : Step limit s s') (hs : s.graph.IsSeparated) :
    s'.graph.potential ≤ s.graph.potential := by
  cases h with
  | cut _ hnext =>
    obtain ⟨f, rest, hcut⟩ := hs.exists_isCut hnext
    exact (hcut.potential_lt hs).le
  | _ => exact Nat.le_refl _

/-- **No two fictitious vertices are linked** at any time. -/
theorem Reaches.isSeparated (h : Reaches limit s s') (hs : s.graph.IsSeparated) :
    s'.graph.IsSeparated := by
  induction h with
  | refl => exact hs
  | tail _ hstep ih => exact hstep.isSeparated ih

theorem Reaches.potential_le (h : Reaches limit s s') (hs : s.graph.IsSeparated) :
    s'.graph.potential ≤ s.graph.potential := by
  induction h with
  | refl => exact Nat.le_refl _
  | tail hreaches hstep ih =>
    exact (hstep.potential_le (Reaches.isSeparated hreaches hs)).trans ih

/-- How much is to be done. A component that has been looked at may still have to be cut. -/
def amount : List Job → ℕ
  | [] => 0
  | .inspect _ :: jobs => amount jobs + 2
  | .cut _ _ :: jobs => amount jobs + 1

/-- What decreases with every step: the numbers of links, and then what is to be done. -/
def rank (s : Splitting) : (ℕ ×ₗ ℕ) ×ₗ ℕ := toLex (s.graph.linkCounts, amount s.jobs)

theorem Step.rank_lt (h : Step limit s s') (hs : s.graph.IsSeparated) : s'.rank < s.rank := by
  -- without a cut the numbers of links stay the same, and less is to be done
  cases h with
  | group => exact Prod.Lex.toLex_lt_toLex.mpr (Or.inr ⟨rfl, Nat.lt_add_of_pos_right Nat.two_pos⟩)
  | begin => exact Prod.Lex.toLex_lt_toLex.mpr (Or.inr ⟨rfl, Nat.lt_succ_self _⟩)
  | cut _ hnext =>
    obtain ⟨f, rest, hcut⟩ := hs.exists_isCut hnext
    exact Prod.Lex.toLex_lt_toLex.mpr (Or.inl (hcut.linkCounts_lt hs))
  | cover => exact Prod.Lex.toLex_lt_toLex.mpr (Or.inr ⟨rfl, Nat.lt_succ_self _⟩)

/-- There is no infinite sequence of steps. -/
theorem acc_of_isSeparated (limit : Graph → List Nat → Option Nat) (hs : s.graph.IsSeparated) :
    Acc (fun s' s => Step limit s s') s := by
  induction hrank : s.rank using WellFoundedLT.induction generalizing s with
  | ind rank ih =>
    exact Acc.intro s fun s' hstep =>
      ih s'.rank (hrank ▸ hstep.rank_lt hs) (hstep.isSeparated hs) rfl

/-! ## What the steps compute -/

/-- The limit on cuts that is used for splitting. -/
def usualLimit (g : Graph) (component : List Nat) : Option Nat := some (g.cutBudget component)

theorem afterCut_succ (g : Graph) (component : List Nat) (budget : Nat) :
    afterCut g component (some (budget + 1)) =
      if 1 < (g.components component).length then (g.components component).map .inspect
      else [.cut component (some budget)] := rfl

/-- Goes on with the parts of a component, or covers it by cliques if it has not been cut apart. -/
def goOn (component : List Nat) (jobs : List Job) : Graph × Option (List (List Nat)) → Splitting
  | (g, some parts) => ⟨g, parts.map .inspect ++ jobs⟩
  | (g, none) => ⟨g.addGroups (g.cliquesOver component), jobs⟩

/-- Cutting a component apart, step by step. -/
theorem reaches_cutApart (component : List Nat) (budget : Nat) (g : Graph) (jobs : List Job) :
    Reaches limit ⟨g, .cut component (some budget) :: jobs⟩
      (goOn component jobs (Graph.cutApart component budget g)) := by
  induction budget generalizing g with
  | zero => exact .single (.cover (Or.inl rfl))
  | succ budget ih =>
    unfold Graph.cutApart
    split
    next hnext => exact .single (.cover (Or.inr hnext))
    next a b hnext =>
      have hbudget : some (budget + 1) ≠ some 0 := fun heq =>
        Nat.succ_ne_zero budget (Option.some.inj heq)
      have hstep : Step limit ⟨g, .cut component (some (budget + 1)) :: jobs⟩
          ⟨g.cutOff (g.growClique [a, b]),
            afterCut (g.cutOff (g.growClique [a, b])) component (some (budget + 1)) ++ jobs⟩ :=
        .cut hbudget hnext
      rw [afterCut_succ] at hstep
      dsimp only
      split at hstep
      next hparts =>
        rw [if_pos hparts]
        exact .single hstep
      next hparts =>
        rw [if_neg hparts]
        exact .head hstep (ih _)

/-- There is at least one cut before a component falls apart. -/
theorem potential_cutApart_lt {component : List Nat} {budget : Nat} {g g' : Graph}
    {parts : List (List Nat)} (hg : g.IsSeparated)
    (h : Graph.cutApart component budget g = (g', some parts)) : g'.potential < g.potential := by
  induction budget generalizing g with
  | zero => cases h
  | succ budget ih =>
    unfold Graph.cutApart at h
    split at h
    · cases h
    next a b hnext =>
      obtain ⟨f, rest, hcut⟩ := hg.exists_isCut hnext
      dsimp only at h
      split at h
      · cases h
        exact hcut.potential_lt hg
      · exact (ih (hcut.isSeparated hg) h).trans (hcut.potential_lt hg)

/-- **Splitting components, step by step**, if the depth exceeds the number of cuts. -/
theorem reaches_splitAll {fuel : Nat} {components : List (List Nat)} {g : Graph} {jobs : List Job}
    (hg : g.IsSeparated) (hfuel : g.potential < fuel) :
    Reaches usualLimit ⟨g, components.map .inspect ++ jobs⟩
      ⟨Graph.splitAll fuel components g, jobs⟩ := by
  -- by induction on the depth, and for each depth on the components: what one of them leaves is a
  -- graph for which the depth is enough as well
  induction fuel generalizing components g jobs with
  | zero => exact absurd hfuel (Nat.not_lt_zero _)
  | succ fuel ih =>
    induction components generalizing g with
    | nil => exact .refl
    | cons component rest ihrest =>
      have hfirst : Reaches usualLimit ⟨g, .inspect component :: (rest.map .inspect ++ jobs)⟩
          ⟨Graph.splitAll (fuel + 1) [component] g, rest.map .inspect ++ jobs⟩ := by
        rw [Graph.splitAll, List.foldl_cons, List.foldl_nil]
        split
        next hclique => exact .single (.group hclique)
        next hclique =>
          refine .head (.begin (Bool.not_eq_true _ ▸ hclique)) ?_
          have hcut : Reaches usualLimit _ _ := reaches_cutApart component (g.cutBudget component) g
            (rest.map .inspect ++ jobs)
          split
          next g' parts heq =>
            -- the parts are split after a cut, so less depth is enough
            rw [heq] at hcut
            refine hcut.trans (ih (hcut.isSeparated hg) ?_)
            have hlt := potential_cutApart_lt hg heq
            omega
          next g' heq =>
            rw [heq] at hcut
            exact hcut
      exact hfirst.trans
        (ihrest (hfirst.isSeparated hg) ((hfirst.potential_le hg).trans_lt hfuel))

/-- Drops the groups that consist of a fictitious vertex. -/
def dropEmptyGroups (g : Graph) : Graph :=
  { g with
    groups := g.groups.filter fun group =>
      match group with
      | [a] => !g.isFictitious a
      | _ => true }

/-- A graph in which no two fictitious vertices are linked is split in steps. -/
theorem reaches_splitComponents {g : Graph} (h : g.IsSeparated) : ∃ split : Graph,
    Reaches usualLimit (start g) ⟨split, []⟩ ∧ dropEmptyGroups split = g.splitComponents := by
  refine ⟨_, ?_, rfl⟩
  have hstart : start g =
      ⟨{ g with groups := #[] }, (g.components (List.range g.vertices.size)).map .inspect ++ []⟩ := by
    rw [start, List.append_nil]
  rw [hstart]
  exact reaches_splitAll h.withoutGroups (Graph.potential_lt_cutDepth g)

end Splitting

/-! ## All histories -/

section Histories

variable {ops : List Operation} {g g' : Graph} {v w : VarId}

/-- A new proposition takes over the links of a fictitious vertex, which are links with propositions. -/
theorem Graph.IsSeparated.addVertex (h : g.IsSeparated) (v : VarId) :
    (g.addVertex v).IsSeparated := by
  refine ⟨h.toIsTidy.addVertex v, fun a b hb ha => ?_⟩
  rw [Graph.neighboursOf_addVertex] at hb
  by_cases hv : g.HasVertex v
  · rw [Graph.addVertex_of_hasVertex hv] at ha ⊢
    exact h.separated a b hb ha
  · rw [Graph.isFictitious_eq_true_iff, Graph.size_addVertex_of_new hv] at ha
    have hreal := h.separated a b hb (Graph.isFictitious_eq_true_iff.mpr (by omega))
    rw [Graph.isFictitious_eq_false_iff] at hreal ⊢
    rw [Graph.size_addVertex_of_new hv]
    omega

theorem Graph.IsSeparated.addAdjacent (h : g.IsSeparated) (v w : VarId) :
    (g.addAdjacent v w).IsSeparated := by
  by_cases hne : v = w
  · rw [hne, Graph.addAdjacent_self]
    exact h
  have hadded := (h.addVertex v).addVertex w
  refine ⟨h.toIsTidy.addAdjacent v w, fun c d hd hc => ?_⟩
  obtain ⟨a, b, -, ha, hb, heq⟩ := Graph.addAdjacent_eq (g := g) hne
  rw [heq] at hc hd ⊢
  split at hc
  next hlinked =>
    rw [if_pos hlinked] at hd ⊢
    exact hadded.separated c d hd hc
  next hnew =>
    rw [if_neg hnew] at hd ⊢
    -- the new link joins two propositions
    rcases Graph.mem_neighboursOf_link hd with hd | ⟨rfl, -⟩ | ⟨rfl, -⟩
    · exact hadded.separated c d hd hc
    · exact absurd (Graph.not_isFictitious_of_get? ha) (Bool.not_eq_false _ ▸ hc)
    · exact absurd (Graph.not_isFictitious_of_get? hb) (Bool.not_eq_false _ ▸ hc)

theorem Graph.IsSeparated.splitComponents (h : g.IsSeparated) : g.splitComponents.IsSeparated := by
  obtain ⟨split, hreaches, heq⟩ := Splitting.reaches_splitComponents h
  have hsplit : split.IsSeparated := hreaches.isSeparated h.withoutGroups
  rw [← heq]
  exact ⟨⟨hsplit.symm, hsplit.irrefl, hsplit.size_le⟩, hsplit.separated⟩

/-- **No two fictitious vertices are ever linked**, whatever is done to a graph. -/
theorem isSeparated_graphOf (h : graphOf ops = some g) : g.IsSeparated := by
  refine graphOf_induction (P := fun _ g => g.IsSeparated) ?_ (fun ops g op g' hops hg hop => ?_) h
  · exact ⟨isTidy_graphOf (show graphOf [] = some Graph.empty from rfl), fun a b hb =>
      absurd (Graph.lt_size_of_mem_neighboursOf hb) (Nat.not_lt_zero a)⟩
  cases op with
  | addVertex v =>
    cases hop
    exact hg.addVertex v
  | addAdjacent v w =>
    cases hop
    exact hg.addAdjacent v w
  | splitCliques =>
    rw [hg.eq_of_split? hop]
    exact ⟨⟨hg.symm, hg.irrefl, hg.size_le⟩, hg.separated⟩
  | splitComponents =>
    cases hop
    exact hg.splitComponents

end Histories

/-! ## Splitting ends -/

/-- **Splitting a graph by components ends**, with any limit on the number of cuts or with none. There
is no infinite sequence of steps, and the next step is determined as long as there is something to be
done. No two fictitious vertices are ever linked, the searches in every step end, and whatever cut is
made, it decreases the numbers of links between propositions and of links between a proposition and a
fictitious vertex, in lexicographic order. With the usual limit, the steps end in the graph that is
split. All this holds after every history that does not fail, and additions do not fail. -/
theorem splitting_ends (ops : List Operation) :
    ((∀ op ∈ ops, op.isAddition = true) → ∃ g, graphOf ops = some g) ∧
    ∀ g, graphOf ops = some g → ∀ limit : Graph → List Nat → Option Nat,
      Acc (fun s' s => Splitting.Step limit s s') (.start g) ∧
      (∀ s, Splitting.Reaches limit (.start g) s →
        (s.jobs ≠ [] → ∃! s', Splitting.Step limit s s') ∧ s.graph.SearchesEnd ∧
        (∀ a, ∀ b ∈ s.graph.neighboursOf a,
          s.graph.isFictitious a = true → s.graph.isFictitious b = false) ∧
        ∀ component a b, s.graph.nextCut? component = some (a, b) →
          (s.graph.cutOff (s.graph.growClique [a, b])).linkCounts < s.graph.linkCounts) ∧
      ∃ s, Splitting.Reaches Splitting.usualLimit (.start g) s ∧ s.jobs = [] ∧
        Splitting.dropEmptyGroups s.graph = g.splitComponents := by
  refine ⟨fun hadditions => ?_, fun g hg limit => ?_⟩
  · obtain ⟨g, hg, -⟩ := exists_graphOf_of_additions hadditions
    exact ⟨g, hg⟩
  have hseparated := isSeparated_graphOf hg
  have hstart : (Splitting.start g).graph.IsSeparated := hseparated.withoutGroups
  refine ⟨Splitting.acc_of_isSeparated limit hstart, fun s hs => ?_, ?_⟩
  · have hnow := hs.isSeparated hstart
    refine ⟨Splitting.existsUnique_step limit, s.graph.searchesEnd, hnow.separated,
      fun component a b hnext => ?_⟩
    obtain ⟨f, rest, hcut⟩ := hnow.exists_isCut hnext
    exact hcut.linkCounts_lt hnow
  · obtain ⟨split, hreaches, heq⟩ := Splitting.reaches_splitComponents hseparated
    exact ⟨_, hreaches, rfl, heq⟩

/-- Four propositions in a ring. -/
def ring : List Operation :=
  [.addAdjacent ⟨0⟩ ⟨1⟩, .addAdjacent ⟨1⟩ ⟨2⟩, .addAdjacent ⟨2⟩ ⟨3⟩, .addAdjacent ⟨3⟩ ⟨0⟩]

/-- The ring does not fall apart by the first cut, which replaces a link between two propositions by
one with a fictitious vertex. Even if the number of cuts is not limited, it ends. -/
theorem splitting_of_ring_ends : (∀ op ∈ ring, op.isAddition = true) ∧
    ∃ g, graphOf ring = some g ∧ g.nextCut? [0, 3, 2, 1] = some (0, 1) ∧
      (g.cutOff (g.growClique [0, 1])).components [0, 3, 2, 1] = [[0, 3, 2, 1, 4]] ∧
      g.linkCounts = toLex (4, 0) ∧
      (g.cutOff (g.growClique [0, 1])).linkCounts = toLex (3, 1) ∧
      (g.cutOff (g.growClique [0, 1])).linkCounts < g.linkCounts ∧
      Acc (fun s' s => Splitting.Step (fun _ _ => none) s s') (.start g) := by
  have hadditions : ∀ op ∈ ring, op.isAddition = true := by decide
  have hfirst : ∃ g ∈ graphOf ring, g.nextCut? [0, 3, 2, 1] = some (0, 1) ∧
      (g.cutOff (g.growClique [0, 1])).components [0, 3, 2, 1] = [[0, 3, 2, 1, 4]] ∧
      g.linkCounts = toLex (4, 0) ∧
      (g.cutOff (g.growClique [0, 1])).linkCounts = toLex (3, 1) ∧ g.groups = #[] := by
    decide +kernel
  obtain ⟨g, hg, hnext, hparts, hbefore, hafter, hgroups⟩ := hfirst
  obtain ⟨hends, hsteps, -⟩ := (splitting_ends ring).2 g hg fun _ _ => none
  obtain ⟨-, -, -, hcut⟩ := hsteps _ .refl
  -- the graph has no groups that the beginning would drop
  have hstart : (Splitting.start g).graph = g := by
    rw [Splitting.start, ← hgroups]
  rw [hstart] at hcut
  exact ⟨hadditions, g, hg, hnext, hparts, hbefore, hafter, hcut _ _ _ hnext, hends⟩

end TemporalPlanning.Mutex
