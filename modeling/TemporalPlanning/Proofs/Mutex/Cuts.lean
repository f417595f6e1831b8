import TemporalPlanning.Proofs.Mutex.Cover
/-!
Cutting a mutex graph.

The table of links is symmetric and links no vertex with itself. Splitting by components changes it
all the time: it removes links, and it links vertices that stand for no proposition. Both keep the
table as it should be, and neither makes a link between two propositions (`Graph.Cuts`).
-/
set_option autoImplicit false

namespace TemporalPlanning.Mutex

namespace Graph

variable {g g' g'' : Graph} {a b c d : Nat}

/-! ## Links in both directions -/

/-- The links of a graph are symmetric and join different vertices, and every proposition has an
entry in the table of links. -/
structure IsTidy (g : Graph) : Prop where
  symm : ∀ a, ∀ b ∈ g.neighboursOf a, a ∈ g.neighboursOf b
  irrefl : ∀ a, a ∉ g.neighboursOf a
  size_le : g.vertices.size ≤ g.neighbours.size

theorem lt_size_of_mem_neighboursOf (h : b ∈ g.neighboursOf a) : a < g.neighbours.size := by
  by_contra hlt
  rw [neighboursOf, Array.getD_eq_getD_getElem?,
    Array.getElem?_eq_none (Nat.le_of_not_lt hlt)] at h
  cases h

theorem IsTidy.lt_size (h : g.IsTidy) (hb : b ∈ g.neighboursOf a) : b < g.neighbours.size :=
  lt_size_of_mem_neighboursOf (h.symm a b hb)

theorem size_link : (g.link a b).neighbours.size = g.neighbours.size := by
  rw [link, Array.size_modify, Array.size_modify]

theorem size_unlink : (g.unlink a b).neighbours.size = g.neighbours.size := by
  rw [unlink, Array.size_modify, Array.size_modify]

/-- A link makes the two vertices neighbours of each other and changes nothing else. -/
theorem mem_neighboursOf_link_iff (ha : a < g.neighbours.size) (hb : b < g.neighbours.size) :
    d ∈ (g.link a b).neighboursOf c ↔
      d ∈ g.neighboursOf c ∨ (c = a ∧ d = b) ∨ (c = b ∧ d = a) := by
  refine ⟨mem_neighboursOf_link, fun h => ?_⟩
  simp only [neighboursOf, link, getD_modify, Array.size_modify, ha, hb, and_true] at h ⊢
  grind

/-- What is unlinked are the two vertices from each other, and nothing else. -/
theorem mem_neighboursOf_unlink_iff : d ∈ (g.unlink a b).neighboursOf c ↔
    d ∈ g.neighboursOf c ∧ ¬(c = a ∧ d = b) ∧ ¬(c = b ∧ d = a) := by
  by_cases hc : c < g.neighbours.size
  · simp only [neighboursOf, unlink, getD_modify, Array.size_modify]
    grind
  · -- there is nothing to be removed behind the table
    have hnone : ∀ {g : Graph}, ¬c < g.neighbours.size → d ∉ g.neighboursOf c := fun hc h =>
      hc (lt_size_of_mem_neighboursOf h)
    exact iff_of_false (hnone (by rwa [size_unlink])) fun h => hnone hc h.1

theorem neighboursOf_push (xs : Array (List Nat)) (c : Nat) :
    (xs.push []).getD c [] = xs.getD c [] := by
  rw [Array.getD_eq_getD_getElem?, Array.getD_eq_getD_getElem?, Array.getElem?_push]
  split
  next h => rw [h, Array.getElem?_eq_none (Nat.le_refl _)]; rfl
  · rfl

/-! ## Cutting -/

/-- A graph comes from another one by cutting links: of the links between propositions, none is
new. -/
structure Cuts (g g' : Graph) : Prop where
  vertices_eq : g'.vertices = g.vertices
  size_le : g.neighbours.size ≤ g'.neighbours.size
  isTidy : g'.IsTidy
  linked : ∀ a, ∀ b ∈ g'.neighboursOf a, g.isFictitious a = false → g.isFictitious b = false →
    b ∈ g.neighboursOf a

namespace Cuts

theorem refl (h : g.IsTidy) : g.Cuts g := ⟨rfl, Nat.le_refl _, h, fun _ _ hb _ _ => hb⟩

theorem isFictitious (h : g.Cuts g') (a : Nat) : g'.isFictitious a = g.isFictitious a := by
  rw [Graph.isFictitious, Graph.isFictitious, h.vertices_eq]

/-- Cutting may go on where it has stopped. -/
theorem trans (h : g.Cuts g') (h' : g'.Cuts g'') : g.Cuts g'' where
  vertices_eq := h'.vertices_eq.trans h.vertices_eq
  size_le := Nat.le_trans h.size_le h'.size_le
  isTidy := h'.isTidy
  linked a b hb ha hb' := h.linked a b
    (h'.linked a b hb ((h.isFictitious a).trans ha) ((h.isFictitious b).trans hb')) ha hb'

end Cuts

namespace IsTidy

theorem cuts_unlink (h : g.IsTidy) (a b : Nat) : g.Cuts (g.unlink a b) := by
  refine ⟨rfl, Nat.le_of_eq size_unlink.symm, ⟨fun c d hd => ?_, fun c hc => ?_, ?_⟩,
    fun c d hd _ _ => (mem_neighboursOf_unlink_iff.mp hd).1⟩
  · rw [mem_neighboursOf_unlink_iff] at hd ⊢
    exact ⟨h.symm c d hd.1, by tauto, by tauto⟩
  · exact h.irrefl c (mem_neighboursOf_unlink_iff.mp hc).1
  · rw [size_unlink]
    exact h.size_le

/-- Linking two different vertices in the table keeps it symmetric. -/
theorem link (h : g.IsTidy) (ha : a < g.neighbours.size) (hb : b < g.neighbours.size)
    (hne : a ≠ b) : (g.link a b).IsTidy := by
  refine ⟨fun c d hd => ?_, fun c hc => ?_, ?_⟩
  · rw [mem_neighboursOf_link_iff ha hb] at hd ⊢
    exact hd.imp (h.symm c d) fun hd => by tauto
  · rcases (mem_neighboursOf_link_iff ha hb).mp hc with hc | ⟨rfl, rfl⟩ | ⟨rfl, rfl⟩
    · exact h.irrefl c hc
    · exact hne rfl
    · exact hne rfl
  · rw [size_link]
    exact h.size_le

/-- A link to a fictitious vertex joins no propositions. -/
theorem cuts_link (h : g.IsTidy) (ha : a < g.neighbours.size) (hb : b < g.neighbours.size)
    (hne : a ≠ b) (hfictitious : g.isFictitious a = true) : g.Cuts (g.link a b) := by
  refine ⟨rfl, Nat.le_of_eq size_link.symm, h.link ha hb hne, fun c d hd hc hd' => ?_⟩
  rcases mem_neighboursOf_link hd with hd | ⟨rfl, -⟩ | ⟨-, rfl⟩
  · exact hd
  · rw [hfictitious] at hc
    cases hc
  · rw [hfictitious] at hd'
    cases hd'

/-- A new vertex without links stands for no proposition. -/
theorem cuts_addFictitious (h : g.IsTidy) : g.Cuts g.addFictitious := by
  have hsame : ∀ c, g.addFictitious.neighboursOf c = g.neighboursOf c :=
    neighboursOf_push g.neighbours
  have hsize : g.addFictitious.neighbours.size = g.neighbours.size + 1 := Array.size_push _
  refine ⟨rfl, by omega, ⟨fun c d hd => ?_, fun c hc => ?_, ?_⟩, fun c d hd _ _ => hsame c ▸ hd⟩
  · rw [hsame] at hd ⊢
    exact h.symm c d hd
  · rw [hsame] at hc
    exact h.irrefl c hc
  · rw [hsize]
    exact Nat.le_succ_of_le h.size_le

theorem cuts_addGroups (h : g.IsTidy) (groups : List (List Nat)) : g.Cuts (g.addGroups groups) :=
  ⟨rfl, Nat.le_refl _, ⟨h.symm, h.irrefl, h.size_le⟩, fun _ _ hb _ _ => hb⟩

end IsTidy

/-- A fold whose steps cut cuts. -/
theorem foldl_cuts {α : Type} {f : Graph → α → Graph} {l : List α} (hg : g.IsTidy)
    (h : ∀ g', g.Cuts g' → ∀ x ∈ l, g'.Cuts (f g' x)) : g.Cuts (l.foldl f g) :=
  List.foldlRecOn l f (motive := g.Cuts) (.refl hg) fun g' hg' x hx => hg'.trans (h g' hg' x hx)

/-- Cutting off a clique unlinks its first member from the others. What it links these with instead
is a fictitious vertex. -/
theorem IsTidy.cuts_cutOff (h : g.IsTidy) {clique : List Nat}
    (hclique : ∀ a ∈ clique, a < g.neighbours.size) : g.Cuts (g.cutOff clique) := by
  unfold cutOff
  split
  · exact .refl h
  next a rest =>
    have hrest : ∀ b ∈ rest, b < g.neighbours.size := fun b hb =>
      hclique b (List.mem_cons_of_mem a hb)
    have hcut : g.Cuts (rest.foldl (fun g b => g.unlink a b) g) :=
      foldl_cuts h fun g' hg' b _ => hg'.isTidy.cuts_unlink a b
    -- the others are linked to a fictitious vertex of the table
    have hlinks : ∀ {g' : Graph} {fictitious : Nat}, g.Cuts g' →
        fictitious < g'.neighbours.size → g'.isFictitious fictitious = true →
        g.Cuts (rest.foldl (fun g b => if b == fictitious || g.isLinked fictitious b then g
          else g.link fictitious b) g') := by
      intro g' fictitious hg' hlt hfictitious
      refine hg'.trans (foldl_cuts hg'.isTidy fun g'' hg'' b hb => ?_)
      split
      · exact .refl hg''.isTidy
      next hnew =>
        rw [Bool.or_eq_true, beq_iff_eq, not_or] at hnew
        exact hg''.isTidy.cuts_link (Nat.lt_of_lt_of_le hlt hg''.size_le)
          (Nat.lt_of_lt_of_le (hrest b hb) (hg'.trans hg'').size_le) (Ne.symm hnew.1)
          ((hg''.isFictitious _).trans hfictitious)
    dsimp only
    split
    next b hb =>
      have hmem : b ∈ rest := List.mem_reverse.mp (List.mem_of_find?_eq_some hb)
      exact hlinks hcut (Nat.lt_of_lt_of_le (hrest b hmem) hcut.size_le)
        ((hcut.isFictitious b).trans (List.find?_some hb))
    · refine hlinks (hcut.trans hcut.isTidy.cuts_addFictitious) ?_ ?_
      · exact (Array.size_push _).symm ▸ Nat.lt_succ_self _
      · exact decide_eq_true hcut.isTidy.size_le

/-! ### What is cut off -/

/-- The clique that is grown from a link lies in the table. -/
theorem IsTidy.lt_size_of_mem_growClique (h : g.IsTidy) (hb : b ∈ g.neighboursOf a)
    (hc : c ∈ g.growClique [a, b]) : c < g.neighbours.size := by
  rcases mem_seed_or_neighboursOf hc with hc | ⟨d, hc⟩
  · rw [List.mem_cons, List.mem_singleton] at hc
    rcases hc with rfl | rfl
    · exact lt_size_of_mem_neighboursOf hb
    · exact h.lt_size hb
  · exact h.lt_size hc

theorem IsTidy.lt_size_of_mem_growClique_singleton (h : g.IsTidy) (ha : a < g.neighbours.size)
    (hb : b ∈ g.growClique [a]) : b < g.neighbours.size := by
  rcases mem_seed_or_neighboursOf hb with hb | ⟨c, hb⟩
  · rwa [List.mem_singleton.mp hb]
  · exact h.lt_size hb

/-- A fold that keeps what it has or takes the next element ends with an element. -/
theorem mem_of_foldl_eq_some {α : Type} {f : Option α → α → Option α} {l : List α} {c : α}
    (hf : ∀ best a c, f best a = some c → best = some c ∨ a = c) (h : l.foldl f none = some c) :
    c ∈ l := by
  have hfold : ∀ c, l.foldl f none = some c → c ∈ l :=
    List.foldlRecOn l f (motive := fun best => ∀ c, best = some c → c ∈ l)
      (fun _ hc => by cases hc) fun best hbest x hx c hc => by
        rcases hf best x c hc with hc | rfl
        · exact hbest c hc
        · exact hx
  exact hfold c h

/-- The lowest neighbour is a neighbour. -/
theorem lowestNeighbour?_mem (h : g.lowestNeighbour? a = some b) : b ∈ g.neighboursOf a := by
  refine mem_of_foldl_eq_some (fun best x c hc => ?_) h
  cases best with
  | none => exact Or.inr (Option.some.inj hc)
  | some d =>
    dsimp only at hc
    split at hc
    · exact Or.inl hc
    · exact Or.inr (Option.some.inj hc)

/-- However many cliques are cut off a component, the graph is only cut. -/
theorem IsTidy.cuts_cutApart (h : g.IsTidy) (component : List Nat) (budget : Nat) :
    g.Cuts (cutApart component budget g).1 := by
  induction budget generalizing g with
  | zero => exact .refl h
  | succ budget ih =>
    unfold cutApart
    split
    · exact .refl h
    next a b hnext =>
      obtain ⟨a', -, hb⟩ := Option.bind_eq_some_iff.mp hnext
      obtain ⟨b', hb, heq⟩ := Option.bind_eq_some_iff.mp hb
      cases heq
      -- the clique has been grown along links of a tidy graph, so its members are vertices
      have hcut := h.cuts_cutOff fun c hc =>
        h.lt_size_of_mem_growClique (lowestNeighbour?_mem hb) hc
      dsimp only
      split
      · exact hcut
      · exact hcut.trans (ih hcut.isTidy)

/-- Splitting all components only cuts the graph, however deep it goes. -/
theorem IsTidy.cuts_splitAll (h : g.IsTidy) (fuel : Nat) (components : List (List Nat)) :
    g.Cuts (splitAll fuel components g) := by
  induction fuel generalizing components g with
  | zero => exact foldl_cuts h fun g' hg' component _ => hg'.isTidy.cuts_addGroups _
  | succ fuel ih =>
    refine foldl_cuts h fun g' hg' component _ => ?_
    split
    · exact hg'.isTidy.cuts_addGroups _
    · -- either the component has come apart and its parts are split in turn, or the budget is used
      -- up and the rest is covered by cliques
      have hcut := hg'.isTidy.cuts_cutApart component (g'.cutBudget component)
      split
      next g'' parts heq =>
        rw [heq] at hcut
        exact hcut.trans (ih hcut.isTidy parts)
      next g'' heq =>
        rw [heq] at hcut
        exact hcut.trans (hcut.isTidy.cuts_addGroups _)

/-- **Splitting makes no link between propositions**, and it keeps links symmetric. -/
theorem IsTidy.cuts_splitComponents (h : g.IsTidy) : g.Cuts g.splitComponents := by
  have hempty : { g with groups := #[] }.IsTidy := ⟨h.symm, h.irrefl, h.size_le⟩
  have hsplit := hempty.cuts_splitAll g.cutDepth (g.components (List.range g.vertices.size))
  exact ⟨hsplit.vertices_eq, hsplit.size_le,
    ⟨hsplit.isTidy.symm, hsplit.isTidy.irrefl, hsplit.isTidy.size_le⟩, hsplit.linked⟩

theorem IsTidy.cuts_splitCliques (h : g.IsTidy) : g.Cuts g.splitCliques :=
  ⟨rfl, Nat.le_refl _, ⟨h.symm, h.irrefl, h.size_le⟩, fun _ _ hb _ _ => hb⟩

end Graph

end TemporalPlanning.Mutex
