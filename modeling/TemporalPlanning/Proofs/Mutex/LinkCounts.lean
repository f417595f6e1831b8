import Mathlib.Data.Finset.Card
import Mathlib.Data.Finset.Prod
import Mathlib.Data.Prod.Lex
import TemporalPlanning.Proofs.Mutex.Cliques
/-!
What a cut does to the links of a mutex graph.

A cut takes a clique that begins with a proposition. It removes the links between that proposition
and the rest of the clique, and links the rest with a vertex that stands for none of them. As long
as no two such vertices are linked, a clique has at most one of them, which is the one that is
linked with the rest; so no two of them get linked.

The links between propositions become fewer, unless the rest consists of that one vertex only. Then
they stay as they are, and a link between a proposition and a fictitious vertex is gone.
-/
set_option autoImplicit false

namespace TemporalPlanning.Mutex

namespace Graph

variable {g g' : Graph} {a b c d f : Nat} {rest : List Nat}

/-! ## Counting links -/

/-- The links between propositions, each with the smaller vertex first. -/
def realLinks (g : Graph) : Finset (Nat × Nat) :=
  (Finset.range g.vertices.size ×ˢ Finset.range g.vertices.size).filter fun p =>
    p.1 < p.2 ∧ p.2 ∈ g.neighboursOf p.1

/-- The links between a proposition and a fictitious vertex, with the proposition first. -/
def fictitiousLinks (g : Graph) : Finset (Nat × Nat) :=
  (Finset.range g.vertices.size ×ˢ Finset.range g.neighbours.size).filter fun p =>
    g.vertices.size ≤ p.2 ∧ p.2 ∈ g.neighboursOf p.1

/-- The numbers of links of both kinds, in lexicographic order. -/
def linkCounts (g : Graph) : ℕ ×ₗ ℕ := toLex (g.realLinks.card, g.fictitiousLinks.card)

theorem mem_realLinks : (a, b) ∈ g.realLinks ↔
    g.isFictitious a = false ∧ g.isFictitious b = false ∧ a < b ∧ b ∈ g.neighboursOf a := by
  rw [realLinks, Finset.mem_filter, Finset.mem_product, Finset.mem_range, Finset.mem_range,
    isFictitious_eq_false_iff, isFictitious_eq_false_iff, and_assoc]

/-- No two fictitious vertices are linked. -/
structure IsSeparated (g : Graph) : Prop extends g.IsTidy where
  separated : ∀ a, ∀ b ∈ g.neighboursOf a, g.isFictitious a = true → g.isFictitious b = false

/-- Groups have nothing to do with links. -/
theorem IsSeparated.withoutGroups (h : g.IsSeparated) : { g with groups := #[] }.IsSeparated :=
  ⟨⟨h.symm, h.irrefl, h.size_le⟩, h.separated⟩

theorem IsSeparated.mem_fictitiousLinks (h : g.IsSeparated) : (a, b) ∈ g.fictitiousLinks ↔
    g.isFictitious b = true ∧ b ∈ g.neighboursOf a := by
  rw [fictitiousLinks, Finset.mem_filter, Finset.mem_product, Finset.mem_range, Finset.mem_range,
    isFictitious_eq_true_iff]
  refine ⟨fun hp => hp.2, fun hp => ⟨⟨?_, h.lt_size hp.2⟩, hp⟩⟩
  exact isFictitious_eq_false_iff.mp
    (h.separated b a (h.symm a b hp.2) (isFictitious_eq_true_iff.mpr hp.1))

/-! ## The clique that is cut -/

/-- Members of a clique are linked. -/
theorem IsSeparated.linked_of_isClique (h : g.IsSeparated) {members : List Nat}
    (hclique : g.IsClique members) (ha : a ∈ members) (hb : b ∈ members) (hne : a ≠ b) :
    b ∈ g.neighboursOf a := by
  have hsymm : Std.Symm fun a b => a ∈ g.neighboursOf b := ⟨fun a b hab => h.symm b a hab⟩
  exact hclique.forall hb ha hne.symm

/-- A clique has at most one fictitious vertex. -/
theorem IsSeparated.eq_of_isFictitious (h : g.IsSeparated) {members : List Nat}
    (hclique : g.IsClique members) (ha : a ∈ members) (hb : b ∈ members)
    (hfa : g.isFictitious a = true) (hfb : g.isFictitious b = true) : a = b := by
  by_contra hne
  rw [h.separated a b (h.linked_of_isClique hclique ha hb hne) hfa] at hfb
  cases hfb

/-- A clique that is grown from a link is a clique. -/
theorem IsTidy.isClique_growClique_link (h : g.IsTidy) (hb : b ∈ g.neighboursOf a) :
    g.IsClique (g.growClique [a, b]) := by
  refine (grow_extends g _ (g.searchFrom [a, b])).isClique ?_
  refine List.Pairwise.cons (fun c hc => ?_) (List.pairwise_singleton _ _)
  rw [List.mem_singleton.mp hc]
  exact h.symm a b hb

theorem highestDegree?_isReal {component : List Nat} (h : g.highestDegree? component = some a) :
    g.isFictitious a = false := by
  have hmem : a ∈ component.filter fun a => !g.isFictitious a := by
    refine mem_of_foldl_eq_some (fun best x c hc => ?_) h
    cases best with
    | none => exact Or.inr (Option.some.inj hc)
    | some b =>
      dsimp only at hc
      split at hc
      · exact Or.inl hc
      · exact Or.inr (Option.some.inj hc)
  have hreal := (List.mem_filter.mp hmem).2
  rwa [Bool.not_eq_eq_eq_not, Bool.not_true] at hreal

/-- A component is cut at a proposition and one of its neighbours. -/
theorem nextCut?_eq_some {component : List Nat} (h : g.nextCut? component = some (a, b)) :
    g.isFictitious a = false ∧ b ∈ g.neighboursOf a := by
  obtain ⟨a', ha, hb⟩ := Option.bind_eq_some_iff.mp h
  obtain ⟨b', hb, heq⟩ := Option.bind_eq_some_iff.mp hb
  cases heq
  exact ⟨highestDegree?_isReal ha, lowestNeighbour?_mem hb⟩

/-! ## Removing and making links -/

theorem mem_neighboursOf_foldl_unlink : d ∈ (rest.foldl (fun g b => g.unlink a b) g).neighboursOf c ↔
    d ∈ g.neighboursOf c ∧ ¬(c = a ∧ d ∈ rest) ∧ ¬(d = a ∧ c ∈ rest) := by
  induction rest generalizing g with
  | nil => simp only [List.foldl_nil, List.not_mem_nil, and_false, not_false_eq_true, and_true]
  | cons b rest ih =>
    rw [List.foldl_cons, ih, mem_neighboursOf_unlink_iff, List.mem_cons, List.mem_cons]
    tauto

/-- Links a vertex with all others of a list. -/
def linkAll (f : Nat) (rest : List Nat) (g : Graph) : Graph :=
  rest.foldl (fun g b => if b == f || g.isLinked f b then g else g.link f b) g

theorem linkAll_cons (f b : Nat) (rest : List Nat) (g : Graph) : linkAll f (b :: rest) g =
    linkAll f rest (if b == f || g.isLinked f b then g else g.link f b) := List.foldl_cons

theorem IsTidy.mem_neighboursOf_linkAll (h : g.IsTidy) (hf : f < g.neighbours.size)
    (hrest : ∀ b ∈ rest, b < g.neighbours.size) : d ∈ (linkAll f rest g).neighboursOf c ↔
      d ∈ g.neighboursOf c ∨ (c = f ∧ d ∈ rest ∧ d ≠ f) ∨ (d = f ∧ c ∈ rest ∧ c ≠ f) := by
  induction rest generalizing g with
  | nil => simp only [linkAll, List.foldl_nil, List.not_mem_nil, false_and, and_false, or_false]
  | cons b rest ih =>
    obtain ⟨hb, hrest⟩ := List.forall_mem_cons.mp hrest
    rw [linkAll_cons, List.mem_cons, List.mem_cons]
    split
    next hold =>
      rw [ih h hf hrest]
      -- the vertex itself is skipped, and so is what is linked already
      rw [Bool.or_eq_true, beq_iff_eq, isLinked_iff] at hold
      rcases hold with rfl | hlinked
      · tauto
      · have hback := h.symm f b hlinked
        grind
    next hnew =>
      rw [Bool.or_eq_true, beq_iff_eq, not_or] at hnew
      rw [ih (h.link hf hb (Ne.symm hnew.1)) (by rwa [size_link]) (by rwa [size_link]),
        mem_neighboursOf_link_iff hf hb]
      grind

/-! ## A cut -/

/-- What a cut does: a proposition loses its links with the rest of a clique, and the rest is linked
with a fictitious vertex, the only one of the clique if it has one. -/
structure IsCut (a f : Nat) (rest : List Nat) (g g' : Graph) : Prop where
  vertices_eq : g'.vertices = g.vertices
  isTidy : g'.IsTidy
  first : g.isFictitious a = false
  linked : ∀ b ∈ rest, b ∈ g.neighboursOf a
  ne_nil : rest ≠ []
  fictitious : g.isFictitious f = true
  eq_fictitious : ∀ b ∈ rest, g.isFictitious b = true → b = f
  mem_iff : ∀ c d, d ∈ g'.neighboursOf c ↔
    (d ∈ g.neighboursOf c ∧ ¬(c = a ∧ d ∈ rest) ∧ ¬(d = a ∧ c ∈ rest)) ∨
      (c = f ∧ d ∈ rest ∧ d ≠ f) ∨ (d = f ∧ c ∈ rest ∧ c ≠ f)

theorem IsTidy.exists_mem_neighboursOf_cutOff (h : g.IsTidy)
    (hrest : ∀ b ∈ rest, b < g.neighbours.size) : ∃ f, g.isFictitious f = true ∧
      (f ∈ rest ∨ ∀ b ∈ rest, g.isFictitious b = false) ∧
      ∀ c d, d ∈ (g.cutOff (a :: rest)).neighboursOf c ↔
        (d ∈ g.neighboursOf c ∧ ¬(c = a ∧ d ∈ rest) ∧ ¬(d = a ∧ c ∈ rest)) ∨
          (c = f ∧ d ∈ rest ∧ d ≠ f) ∨ (d = f ∧ c ∈ rest ∧ c ≠ f) := by
  have hcut : g.Cuts (rest.foldl (fun g b => g.unlink a b) g) :=
    foldl_cuts h fun g' hg' b _ => hg'.isTidy.cuts_unlink a b
  cases hfind : rest.reverse.find? g.isFictitious with
  | some f =>
    have hf : f ∈ rest := List.mem_reverse.mp (List.mem_of_find?_eq_some hfind)
    refine ⟨f, List.find?_some hfind, Or.inl hf, fun c d => ?_⟩
    have heq : g.cutOff (a :: rest) = linkAll f rest (rest.foldl (fun g b => g.unlink a b) g) := by
      rw [cutOff, hfind]
      rfl
    rw [heq, hcut.isTidy.mem_neighboursOf_linkAll (Nat.lt_of_lt_of_le (hrest f hf) hcut.size_le)
      (fun b hb => Nat.lt_of_lt_of_le (hrest b hb) hcut.size_le), mem_neighboursOf_foldl_unlink]
  | none =>
    have hadded := hcut.trans hcut.isTidy.cuts_addFictitious
    refine ⟨(rest.foldl (fun g b => g.unlink a b) g).neighbours.size, ?_, Or.inr fun b hb => ?_,
      fun c d => ?_⟩
    · rw [isFictitious_eq_true_iff]
      exact Nat.le_trans h.size_le hcut.size_le
    · exact Bool.eq_false_iff.mpr (List.find?_eq_none.mp hfind b (List.mem_reverse.mpr hb))
    have heq : g.cutOff (a :: rest) = linkAll (rest.foldl (fun g b => g.unlink a b) g).neighbours.size
        rest (rest.foldl (fun g b => g.unlink a b) g).addFictitious := by
      rw [cutOff, hfind]
      rfl
    have hsame : ∀ c, (rest.foldl (fun g b => g.unlink a b) g).addFictitious.neighboursOf c =
        (rest.foldl (fun g b => g.unlink a b) g).neighboursOf c := neighboursOf_push _
    rw [heq, hadded.isTidy.mem_neighboursOf_linkAll ((Array.size_push _).symm ▸ Nat.lt_succ_self _)
      (fun b hb => Nat.lt_of_lt_of_le (hrest b hb) hadded.size_le), hsame,
      mem_neighboursOf_foldl_unlink]

/-- **The cuts of a component are cuts.** -/
theorem IsSeparated.exists_isCut (h : g.IsSeparated) {component : List Nat}
    (hnext : g.nextCut? component = some (a, b)) :
    ∃ f rest, IsCut a f rest g (g.cutOff (g.growClique [a, b])) := by
  obtain ⟨ha, hb⟩ := nextCut?_eq_some hnext
  have hclique := h.isClique_growClique_link hb
  have hlt : ∀ c ∈ g.growClique [a, b], c < g.neighbours.size := fun c hc =>
    h.lt_size_of_mem_growClique hb hc
  have htidy := (h.cuts_cutOff hlt).isTidy
  have hvertices := (h.cuts_cutOff hlt).vertices_eq
  obtain ⟨rest, hprefix, heq⟩ := exists_growClique_eq_cons g a [b]
  have hbrest : b ∈ rest := hprefix.subset List.mem_cons_self
  rw [heq] at hclique hlt htidy hvertices ⊢
  obtain ⟨f, hf, honly, hmem⟩ := h.exists_mem_neighboursOf_cutOff (a := a) (List.forall_mem_cons.mp hlt).2
  have hafter := (List.pairwise_cons.mp hclique).1
  refine ⟨f, rest, hvertices, htidy, ha, fun c hc => h.symm c a (hafter c hc),
    List.ne_nil_of_mem hbrest, hf, fun c hc hfc => ?_, hmem⟩
  rcases honly with hfrest | hnone
  · exact h.eq_of_isFictitious hclique (List.mem_cons_of_mem a hc) (List.mem_cons_of_mem a hfrest) hfc hf
  · rw [hnone c hc] at hfc
    cases hfc

/-! ## Links after a cut -/

namespace IsCut

variable (h : g.IsSeparated) (hcut : IsCut a f rest g g')
include h hcut

omit h in
theorem isFictitious (c : Nat) : g'.isFictitious c = g.isFictitious c := by
  rw [Graph.isFictitious, Graph.isFictitious, hcut.vertices_eq]

/-- **A cut links no two fictitious vertices**: only one of them is in the clique, and the others are
linked with that one. -/
theorem isSeparated : g'.IsSeparated := by
  refine ⟨hcut.isTidy, fun c d hd hc => ?_⟩
  rw [hcut.isFictitious] at hc ⊢
  rcases (hcut.mem_iff c d).mp hd with ⟨hd, -⟩ | ⟨rfl, hd, hne⟩ | ⟨rfl, hc', hne⟩
  · exact h.separated c d hd hc
  · exact Bool.eq_false_iff.mpr fun hfd => hne (hcut.eq_fictitious d hd hfd)
  · exact absurd (hcut.eq_fictitious c hc' hc) hne

omit h in
/-- The links between propositions are those from before without the ones that are removed. -/
theorem mem_realLinks_iff : (c, d) ∈ g'.realLinks ↔
    (c, d) ∈ g.realLinks ∧ ¬(c = a ∧ d ∈ rest) ∧ ¬(d = a ∧ c ∈ rest) := by
  rw [mem_realLinks, mem_realLinks, hcut.isFictitious, hcut.isFictitious, hcut.mem_iff]
  have hf : ∀ {c}, g.isFictitious c = false → c ≠ f := fun hc heq => by
    rw [heq, hcut.fictitious] at hc
    cases hc
  constructor
  · rintro ⟨hc, hd, hlt, hlink | ⟨heq, -⟩ | ⟨heq, -⟩⟩
    · exact ⟨⟨hc, hd, hlt, hlink.1⟩, hlink.2⟩
    · exact absurd heq (hf hc)
    · exact absurd heq (hf hd)
  · rintro ⟨⟨hc, hd, hlt, hlink⟩, hkept⟩
    exact ⟨hc, hd, hlt, Or.inl ⟨hlink, hkept⟩⟩

/-- A link with a fictitious vertex is one from before that has not been removed, or a new one with a
member of the clique. -/
theorem mem_fictitiousLinks_iff : (c, d) ∈ g'.fictitiousLinks ↔
    ((c, d) ∈ g.fictitiousLinks ∧ ¬(c = a ∧ d ∈ rest)) ∨ (d = f ∧ c ∈ rest ∧ c ≠ f) := by
  rw [(hcut.isSeparated h).mem_fictitiousLinks, h.mem_fictitiousLinks, hcut.isFictitious, hcut.mem_iff]
  constructor
  · rintro ⟨hd, hlink | ⟨-, hdrest, hne⟩ | hnew⟩
    · exact Or.inl ⟨⟨hd, hlink.1⟩, hlink.2.1⟩
    · exact absurd (hcut.eq_fictitious d hdrest hd) hne
    · exact Or.inr hnew
  · rintro (⟨⟨hd, hlink⟩, hkept⟩ | ⟨rfl, hnew⟩)
    · refine ⟨hd, Or.inl ⟨hlink, hkept, fun ⟨heq, _⟩ => ?_⟩⟩
      rw [heq, hcut.first] at hd
      cases hd
    · exact ⟨hcut.fictitious, Or.inr (Or.inr ⟨rfl, hnew⟩)⟩

/-- If the rest of the clique contains a proposition, its link with the first one is gone, and each
proposition has at most one new link. -/
theorem card_of_isReal (hb : b ∈ rest) (hreal : g.isFictitious b = false) :
    g'.realLinks.card < g.realLinks.card ∧
      g'.fictitiousLinks.card ≤ g.fictitiousLinks.card + g.vertices.size := by
  have hne : a ≠ b := fun heq => h.irrefl b (heq ▸ hcut.linked b hb)
  constructor
  · refine Finset.card_lt_card ((Finset.ssubset_iff_of_subset ?_).mpr ?_)
    · exact fun ⟨c, d⟩ hlink => (hcut.mem_realLinks_iff.mp hlink).1
    · -- the link that is gone is counted with its smaller vertex first
      rcases Nat.lt_or_gt_of_ne hne with hlt | hlt
      · refine ⟨(a, b), mem_realLinks.mpr ⟨hcut.first, hreal, hlt, hcut.linked b hb⟩, fun hlink => ?_⟩
        exact (hcut.mem_realLinks_iff.mp hlink).2.1 ⟨rfl, hb⟩
      · have hback := h.symm a b (hcut.linked b hb)
        refine ⟨(b, a), mem_realLinks.mpr ⟨hreal, hcut.first, hlt, hback⟩, fun hlink => ?_⟩
        exact (hcut.mem_realLinks_iff.mp hlink).2.2 ⟨rfl, hb⟩
  · -- a new link joins a proposition with the one fictitious vertex
    have hnew : g'.fictitiousLinks ⊆
        g.fictitiousLinks ∪ (Finset.range g.vertices.size).image (·, f) := by
      rintro ⟨c, d⟩ hlink
      rw [Finset.mem_union]
      refine ((hcut.mem_fictitiousLinks_iff h).mp hlink).imp (fun hold => hold.1) ?_
      rintro ⟨rfl, hc, hcf⟩
      refine Finset.mem_image.mpr ⟨c, Finset.mem_range.mpr ?_, rfl⟩
      exact isFictitious_eq_false_iff.mp
        (Bool.eq_false_iff.mpr fun hfc => hcf (hcut.eq_fictitious c hc hfc))
    calc g'.fictitiousLinks.card
        ≤ g.fictitiousLinks.card + ((Finset.range g.vertices.size).image (·, f)).card :=
          (Finset.card_le_card hnew).trans (Finset.card_union_le _ _)
      _ ≤ g.fictitiousLinks.card + g.vertices.size :=
          Nat.add_le_add_left (Finset.card_image_le.trans (Finset.card_range _).le) _

/-- If the rest is the fictitious vertex alone, only the link with it is gone. -/
theorem card_of_isFictitious (hall : ∀ b ∈ rest, g.isFictitious b = true) :
    g'.realLinks.card = g.realLinks.card ∧ g'.fictitiousLinks.card < g.fictitiousLinks.card := by
  have heq : ∀ b ∈ rest, b = f := fun b hb => hcut.eq_fictitious b hb (hall b hb)
  obtain ⟨b, hb⟩ := List.exists_mem_of_ne_nil rest hcut.ne_nil
  have hf : f ∈ rest := heq b hb ▸ hb
  have hreal : ∀ {b}, g.isFictitious b = false → b ∉ rest := fun hb hmem => by
    rw [hall _ hmem] at hb
    cases hb
  constructor
  · congr 1
    ext ⟨c, d⟩
    rw [hcut.mem_realLinks_iff]
    refine and_iff_left_of_imp fun hlink => ?_
    obtain ⟨hc, hd, -⟩ := mem_realLinks.mp hlink
    exact ⟨fun ⟨_, hdrest⟩ => hreal hd hdrest, fun ⟨_, hcrest⟩ => hreal hc hcrest⟩
  · refine Finset.card_lt_card ((Finset.ssubset_iff_of_subset ?_).mpr ⟨(a, f), ?_, fun hlink => ?_⟩)
    · rintro ⟨c, d⟩ hlink
      rcases (hcut.mem_fictitiousLinks_iff h).mp hlink with hold | ⟨-, hc, hne⟩
      · exact hold.1
      · exact absurd (heq c hc) hne
    · exact h.mem_fictitiousLinks.mpr ⟨hcut.fictitious, hcut.linked f hf⟩
    · rcases (hcut.mem_fictitiousLinks_iff h).mp hlink with hold | ⟨-, ha, -⟩
      · exact hold.2 ⟨rfl, hf⟩
      · exact hreal hcut.first ha

/-- The numbers of links after a cut. -/
theorem card_cases :
    (g'.realLinks.card < g.realLinks.card ∧
      g'.fictitiousLinks.card ≤ g.fictitiousLinks.card + g.vertices.size) ∨
    (g'.realLinks.card = g.realLinks.card ∧ g'.fictitiousLinks.card < g.fictitiousLinks.card) := by
  by_cases hall : ∀ b ∈ rest, g.isFictitious b = true
  · exact Or.inr (hcut.card_of_isFictitious h hall)
  · obtain ⟨b, hb, hreal⟩ : ∃ b ∈ rest, g.isFictitious b = false := by
      simpa only [not_forall, exists_prop, Bool.not_eq_true] using hall
    exact Or.inl (hcut.card_of_isReal h hb hreal)

/-- **A cut decreases the numbers of links** in lexicographic order. -/
theorem linkCounts_lt : g'.linkCounts < g.linkCounts :=
  Prod.Lex.toLex_lt_toLex.mpr ((hcut.card_cases h).imp_left fun hreal => hreal.1)

end IsCut

/-! ## How many cuts there can be -/

/-- Bounds the number of cuts: a link between propositions that is removed may make as many links
with fictitious vertices as there are propositions. -/
def potential (g : Graph) : ℕ :=
  g.realLinks.card * (g.vertices.size + 1) + g.fictitiousLinks.card

theorem IsCut.potential_lt (h : g.IsSeparated) (hcut : IsCut a f rest g g') :
    g'.potential < g.potential := by
  rw [potential, potential, hcut.vertices_eq]
  rcases hcut.card_cases h with ⟨hreal, hfictitious⟩ | ⟨hreal, hfictitious⟩
  · calc g'.realLinks.card * (g.vertices.size + 1) + g'.fictitiousLinks.card
        < (g'.realLinks.card + 1) * (g.vertices.size + 1) + g.fictitiousLinks.card := by
          rw [Nat.add_one_mul]
          omega
      _ ≤ g.realLinks.card * (g.vertices.size + 1) + g.fictitiousLinks.card :=
          Nat.add_le_add_right (Nat.mul_le_mul_right _ hreal) _
  · rw [hreal]
    exact Nat.add_lt_add_left hfictitious _

end Graph

end TemporalPlanning.Mutex
