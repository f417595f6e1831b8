import Mathlib.Data.List.Dedup
import Mathlib.Data.List.Induction
import TemporalPlanning.Proofs.Mutex.Cuts
/-!
Histories of a mutex graph.

Propositions and links are added in any order, and between the additions the graph may be split.
The table of links stays symmetric throughout, the propositions are those that have been mentioned,
and splitting makes no link between two propositions.

Splitting by components leaves vertices that stand for no proposition, however, and this has two
consequences. The next new proposition takes over the first of them with its links, so a link may join
two propositions that were never linked if one of them has been added while there were such vertices.
And splitting into cliques, which has no marks for such vertices, fails if a clique takes one in. No
other operation fails, and no history does in which cliques are not formed after components.
-/
set_option autoImplicit false

namespace TemporalPlanning.Mutex

namespace Graph

variable {g g' : Graph} {a b : Nat}

/-! ## Adding vertices -/

variable {u v w : VarId}

theorem find?_eq_some_iff_get? :
    g.vertices.find? v.index = some a ↔ g.vertices.get? a = some v := by
  refine ⟨get?_of_find?, fun h => ?_⟩
  rw [Registry.find?_eq_some_iff, h]
  rfl

theorem find?_eq_none_iff : g.vertices.find? v.index = none ↔ ¬g.HasVertex v := by
  rw [Option.eq_none_iff_forall_ne_some, HasVertex, not_exists]
  exact forall_congr' fun a => not_congr find?_eq_some_iff_get?

/-- A proposition that is there already is not added again. -/
theorem addVertex_of_hasVertex (h : g.HasVertex v) : g.addVertex v = g := by
  obtain ⟨a, ha⟩ := h
  rw [addVertex, find?_eq_some_iff_get?.mpr ha]

/-- A new proposition is put behind the others. -/
theorem get?_addVertex_of_new (h : ¬g.HasVertex v) (b : Nat) :
    (g.addVertex v).vertices.get? b =
      if b = g.vertices.size then some v else g.vertices.get? b := by
  rw [addVertex, find?_eq_none_iff.mpr h]
  show (g.vertices.intern v).2.get? b = _
  rw [Registry.intern]
  split
  next i hi =>
    rw [find?_eq_none_iff.mpr h] at hi
    cases hi
  next hfresh => exact g.vertices.get?_push v hfresh b

theorem neighbours_addVertex_of_new (h : ¬g.HasVertex v) :
    (g.addVertex v).neighbours = g.neighbours.push [] := by
  rw [addVertex, find?_eq_none_iff.mpr h]

theorem size_addVertex_of_new (h : ¬g.HasVertex v) :
    (g.addVertex v).vertices.size = g.vertices.size + 1 := by
  rw [addVertex, find?_eq_none_iff.mpr h]
  show (g.vertices.intern v).2.entries.size = g.vertices.entries.size + 1
  rw [Registry.intern]
  split
  next i hi =>
    rw [find?_eq_none_iff.mpr h] at hi
    cases hi
  · exact Array.size_push _

/-- Adding a vertex changes nobody's neighbours. -/
theorem neighboursOf_addVertex (v : VarId) (a : Nat) :
    (g.addVertex v).neighboursOf a = g.neighboursOf a := by
  by_cases h : g.HasVertex v
  · rw [addVertex_of_hasVertex h]
  · rw [neighboursOf, neighbours_addVertex_of_new h]
    exact neighboursOf_push g.neighbours a

theorem hasVertex_addVertex_iff : (g.addVertex v).HasVertex u ↔ g.HasVertex u ∨ u = v := by
  constructor
  · intro h
    by_cases hv : g.HasVertex v
    · rw [addVertex_of_hasVertex hv] at h
      exact Or.inl h
    obtain ⟨b, hb⟩ := h
    rw [get?_addVertex_of_new hv] at hb
    split at hb
    · exact Or.inr (Option.some.inj hb).symm
    · exact Or.inl ⟨b, hb⟩
  · rintro (h | rfl)
    · exact h.addVertex v
    · exact hasVertex_addVertex u

/-- The number of vertices that stand for no proposition. -/
def inventedCount (g : Graph) : Nat := g.neighbours.size - g.vertices.size

theorem inventedCount_addVertex (v : VarId) : (g.addVertex v).inventedCount = g.inventedCount := by
  by_cases h : g.HasVertex v
  · rw [addVertex_of_hasVertex h]
  · rw [inventedCount, size_addVertex_of_new h, neighbours_addVertex_of_new h, Array.size_push,
      Nat.add_sub_add_right, inventedCount]

theorem IsTidy.addVertex (h : g.IsTidy) (v : VarId) : (g.addVertex v).IsTidy := by
  refine ⟨fun a b hb => ?_, fun a ha => ?_, ?_⟩
  · rw [neighboursOf_addVertex] at hb ⊢
    exact h.symm a b hb
  · rw [neighboursOf_addVertex] at ha
    exact h.irrefl a ha
  · by_cases hv : g.HasVertex v
    · rw [addVertex_of_hasVertex hv]
      exact h.size_le
    · rw [size_addVertex_of_new hv, neighbours_addVertex_of_new hv, Array.size_push]
      exact Nat.succ_le_succ h.size_le

/-- A new proposition has no neighbours unless there are vertices that stand for none. -/
theorem IsTidy.not_mem_neighboursOf_new (h : g.IsTidy) (hinvented : g.inventedCount = 0)
    (a : Nat) : a ∉ g.neighboursOf g.vertices.size ∧ g.vertices.size ∉ g.neighboursOf a := by
  have hbehind : ¬g.vertices.size < g.neighbours.size := by
    rw [inventedCount] at hinvented
    omega
  exact ⟨fun ha => hbehind (lt_size_of_mem_neighboursOf ha), fun ha => hbehind (h.lt_size ha)⟩

/-! ## Adding links -/

theorem areAdjacent_iff : g.areAdjacent v w = true ↔
    ∃ a b, g.vertices.get? a = some v ∧ g.vertices.get? b = some w ∧ b ∈ g.neighboursOf a := by
  unfold areAdjacent
  split
  next a b ha hb =>
    rw [isLinked_iff]
    rw [find?_eq_some_iff_get?] at ha hb
    refine ⟨fun h => ⟨a, b, ha, hb, h⟩, fun ⟨a', b', ha', hb', h⟩ => ?_⟩
    rwa [g.vertices.position_unique ha ha' rfl, g.vertices.position_unique hb hb' rfl]
  next hnone =>
    refine iff_of_false Bool.false_ne_true fun ⟨a, b, ha, hb, _⟩ => ?_
    exact hnone a b (find?_eq_some_iff_get?.mpr ha) (find?_eq_some_iff_get?.mpr hb)

theorem IsTidy.areAdjacent_comm (h : g.IsTidy) (v w : VarId) :
    g.areAdjacent v w = g.areAdjacent w v := by
  have hsymm : ∀ v w, g.areAdjacent v w = true → g.areAdjacent w v = true := by
    intro v w hvw
    obtain ⟨a, b, ha, hb, hab⟩ := areAdjacent_iff.mp hvw
    exact areAdjacent_iff.mpr ⟨b, a, hb, ha, h.symm a b hab⟩
  exact Bool.eq_iff_iff.mpr ⟨hsymm v w, hsymm w v⟩

theorem IsTidy.areAdjacent_self (h : g.IsTidy) (v : VarId) : g.areAdjacent v v = false := by
  rw [← Bool.not_eq_true, areAdjacent_iff]
  rintro ⟨a, b, ha, hb, hab⟩
  rw [g.vertices.position_unique ha hb rfl] at hab
  exact h.irrefl b hab

theorem IsTidy.symm_areAdjacent (h : g.IsTidy) :
    Std.Symm fun v w => g.areAdjacent v w = true :=
  ⟨fun v w hvw => (h.areAdjacent_comm w v).trans hvw⟩

/-- Two different propositions are linked after they have been added. -/
theorem addAdjacent_eq (hne : v ≠ w) : ∃ a b, a ≠ b ∧
    ((g.addVertex v).addVertex w).vertices.get? a = some v ∧
    ((g.addVertex v).addVertex w).vertices.get? b = some w ∧
    g.addAdjacent v w = if ((g.addVertex v).addVertex w).isLinked a b then
      (g.addVertex v).addVertex w else ((g.addVertex v).addVertex w).link a b := by
  obtain ⟨a, ha⟩ := (hasVertex_addVertex (g := g) v).addVertex w
  obtain ⟨b, hb⟩ := hasVertex_addVertex (g := g.addVertex v) w
  refine ⟨a, b, ?_, ha, hb, ?_⟩
  · rintro rfl
    exact hne (Option.some.inj (ha.symm.trans hb))
  · rw [addAdjacent, if_neg hne]
    dsimp only
    rw [find?_eq_some_iff_get?.mpr ha, find?_eq_some_iff_get?.mpr hb]

theorem addAdjacent_self (v : VarId) : g.addAdjacent v v = g := if_pos rfl

/-- The positions of propositions are in the table of links. -/
theorem IsTidy.lt_size_of_get? (h : g.IsTidy) (ha : g.vertices.get? a = some v) :
    a < g.neighbours.size :=
  Nat.lt_of_lt_of_le (Array.getElem?_eq_some_iff.mp ha).1 h.size_le

theorem IsTidy.addAdjacent (h : g.IsTidy) (v w : VarId) : (g.addAdjacent v w).IsTidy := by
  by_cases hne : v = w
  · rw [hne, addAdjacent_self]
    exact h
  have hadded := (h.addVertex v).addVertex w
  obtain ⟨a, b, hab, ha, hb, heq⟩ := addAdjacent_eq (g := g) hne
  rw [heq]
  split
  · exact hadded
  · exact hadded.link (hadded.lt_size_of_get? ha) (hadded.lt_size_of_get? hb) hab

theorem vertices_addAdjacent (hne : v ≠ w) :
    (g.addAdjacent v w).vertices = ((g.addVertex v).addVertex w).vertices := by
  obtain ⟨a, b, -, -, -, heq⟩ := addAdjacent_eq (g := g) hne
  rw [heq]
  split <;> rfl

theorem inventedCount_addAdjacent (v w : VarId) :
    (g.addAdjacent v w).inventedCount = g.inventedCount := by
  by_cases hne : v = w
  · rw [hne, addAdjacent_self]
  obtain ⟨a, b, -, -, -, heq⟩ := addAdjacent_eq (g := g) hne
  have hadded : ((g.addVertex v).addVertex w).inventedCount = g.inventedCount := by
    rw [inventedCount_addVertex, inventedCount_addVertex]
  rw [heq]
  split
  · exact hadded
  · rw [inventedCount, size_link]
    exact hadded

/-! ## What links join -/

/-- Links between propositions join related ones. -/
def LinksOnly (R : VarId → VarId → Prop) (g : Graph) : Prop :=
  ∀ a, ∀ b ∈ g.neighboursOf a, ∀ v w, g.vertices.get? a = some v →
    g.vertices.get? b = some w → R v w

variable {R R' : VarId → VarId → Prop}

theorem LinksOnly.mono (h : g.LinksOnly R) (hR : ∀ v w, R v w → R' v w) : g.LinksOnly R' :=
  fun a b hb v w hv hw => hR v w (h a b hb v w hv hw)

theorem LinksOnly.cuts (h : g.LinksOnly R) (hcuts : g.Cuts g') : g'.LinksOnly R := by
  intro a b hb v w hv hw
  rw [hcuts.vertices_eq] at hv hw
  exact h a b (hcuts.linked a b hb (not_isFictitious_of_get? hv) (not_isFictitious_of_get? hw))
    v w hv hw

variable [Std.Symm R]

/-- A new proposition that may take over links has to be related with everything. -/
theorem LinksOnly.addVertex (h : g.LinksOnly R) (htidy : g.IsTidy)
    (hlate : ¬g.HasVertex v → 0 < g.inventedCount → ∀ w, R v w) : (g.addVertex v).LinksOnly R := by
  by_cases hv : g.HasVertex v
  · rwa [addVertex_of_hasVertex hv]
  intro a b hb x y hx hy
  rw [neighboursOf_addVertex] at hb
  rw [get?_addVertex_of_new hv] at hx hy
  rcases Nat.eq_zero_or_pos g.inventedCount with hinvented | hinvented
  · -- the position of the new proposition has no links
    have hnew := htidy.not_mem_neighboursOf_new hinvented
    have ha : a ≠ g.vertices.size := fun ha => (hnew b).1 (ha ▸ hb)
    have hb' : b ≠ g.vertices.size := fun hb' => (hnew a).2 (hb' ▸ hb)
    rw [if_neg ha] at hx
    rw [if_neg hb'] at hy
    exact h a b hb x y hx hy
  · split at hx
    · cases hx
      exact hlate hv hinvented y
    split at hy
    · cases hy
      exact Std.Symm.symm v x (hlate hv hinvented x)
    · exact h a b hb x y hx hy

theorem LinksOnly.addAdjacent (h : g.LinksOnly R) (htidy : g.IsTidy) (hvw : v ≠ w → R v w)
    (hlate : v ≠ w → ∀ u, u = v ∨ u = w → ¬g.HasVertex u → 0 < g.inventedCount → ∀ x, R u x) :
    (g.addAdjacent v w).LinksOnly R := by
  by_cases hne : v = w
  · rwa [hne, addAdjacent_self]
  have hadded : ((g.addVertex v).addVertex w).LinksOnly R := by
    refine (h.addVertex htidy (hlate hne v (Or.inl rfl))).addVertex (htidy.addVertex v) ?_
    rw [inventedCount_addVertex]
    exact fun hw => hlate hne w (Or.inr rfl) fun hold => hw (hold.addVertex v)
  obtain ⟨a, b, -, ha, hb, heq⟩ := addAdjacent_eq (g := g) hne
  rw [heq]
  split
  · exact hadded
  intro c d hd x y hx hy
  rcases mem_neighboursOf_link hd with hd | ⟨rfl, rfl⟩ | ⟨rfl, rfl⟩
  · exact hadded c d hd x y hx hy
  · cases hx.symm.trans ha
    cases hy.symm.trans hb
    exact hvw hne
  · cases hx.symm.trans hb
    cases hy.symm.trans ha
    exact Std.Symm.symm _ _ (hvw hne)

end Graph

/-! ## Histories -/

/-- What can be done to a graph. -/
inductive Operation where
  | addVertex (v : VarId)
  | addAdjacent (v w : VarId)
  | splitCliques
  | splitComponents
deriving DecidableEq

/-- Carries out an operation, which fails if it is a split into cliques that do not keep to the
propositions. -/
def Operation.apply (g : Graph) : Operation → Option Graph
  | .addVertex v => some (g.addVertex v)
  | .addAdjacent v w => some (g.addAdjacent v w)
  | .splitCliques => g.split?
  | .splitComponents => some g.splitComponents

/-- The propositions that an operation needs as vertices. -/
def Operation.mentions : Operation → List VarId
  | .addVertex v => [v]
  | .addAdjacent v w => if v = w then [] else [v, w]
  | .splitCliques | .splitComponents => []

/-- The graph after some operations on the empty one, if none of them fails. -/
def graphOf (ops : List Operation) : Option Graph := ops.foldlM Operation.apply Graph.empty

/-- The propositions that operations need as vertices. -/
def mentioned (ops : List Operation) : List VarId := ops.flatMap Operation.mentions

/-- Two propositions have been linked. -/
def HaveBeenLinked (ops : List Operation) (v w : VarId) : Prop :=
  .addAdjacent v w ∈ ops ∨ .addAdjacent w v ∈ ops

/-- A proposition is mentioned for the first time when there are vertices that stand for none. -/
def IsLate (ops : List Operation) (v : VarId) : Prop :=
  ∃ before op after g, ops = before ++ op :: after ∧ v ∈ op.mentions ∧ v ∉ mentioned before ∧
    graphOf before = some g ∧ 0 < g.inventedCount

/-- What may be linked after some operations. -/
def MayBeLinked (ops : List Operation) (v w : VarId) : Prop :=
  HaveBeenLinked ops v w ∨ IsLate ops v ∨ IsLate ops w

section Histories

variable {ops : List Operation} {op : Operation} {g g' : Graph} {u v w : VarId}

theorem graphOf_append_singleton (ops : List Operation) (op : Operation) :
    graphOf (ops ++ [op]) = (graphOf ops).bind fun g => op.apply g := by
  rw [graphOf, List.foldlM_append, ← graphOf]
  cases graphOf ops with
  | none => rfl
  | some g => exact bind_pure (op.apply g)

/-- What holds of the empty graph and is preserved by every operation that succeeds holds after every
history. -/
theorem graphOf_induction {P : List Operation → Graph → Prop} (empty : P [] Graph.empty)
    (step : ∀ ops g op g', graphOf ops = some g → P ops g → op.apply g = some g' →
      P (ops ++ [op]) g') (h : graphOf ops = some g) : P ops g := by
  induction ops using List.reverseRecOn generalizing g with
  | nil =>
    cases h
    exact empty
  | append_singleton ops op ih =>
    rw [graphOf_append_singleton, Option.bind_eq_some_iff] at h
    obtain ⟨before, hbefore, hop⟩ := h
    exact step ops before op g hbefore (ih hbefore) hop

theorem mentioned_append_singleton (ops : List Operation) (op : Operation) :
    mentioned (ops ++ [op]) = mentioned ops ++ op.mentions := by
  rw [mentioned, List.flatMap_append, List.flatMap_singleton, mentioned]

instance : Std.Symm (MayBeLinked ops) :=
  ⟨fun _ _ h => h.imp Or.symm Or.symm⟩

theorem IsLate.append (h : IsLate ops v) (op : Operation) : IsLate (ops ++ [op]) v := by
  obtain ⟨before, op', after, g, rfl, h⟩ := h
  exact ⟨before, op', after ++ [op], g, by rw [List.append_assoc, List.cons_append], h⟩

theorem MayBeLinked.append (h : MayBeLinked ops v w) (op : Operation) :
    MayBeLinked (ops ++ [op]) v w :=
  h.imp (Or.imp (List.mem_append_left _) (List.mem_append_left _))
    (Or.imp (IsLate.append · op) (IsLate.append · op))

theorem isLate_of_new (hg : graphOf ops = some g) (hv : v ∈ op.mentions) (hnew : v ∉ mentioned ops)
    (hinvented : 0 < g.inventedCount) : IsLate (ops ++ [op]) v :=
  ⟨ops, op, [], g, rfl, hv, hnew, hg, hinvented⟩

/-! ## What operations preserve -/

/-- A split into cliques that succeeds leaves vertices and links as they are. -/
theorem Graph.IsTidy.eq_of_split? (h : g.IsTidy) (hsplit : g.split? = some g') :
    g' = g.splitCliques := by
  rw [Graph.split?_eq h.size_le] at hsplit
  split at hsplit
  · exact (Option.some.inj hsplit).symm
  · cases hsplit

theorem Operation.isTidy_apply (hg : g.IsTidy) (h : op.apply g = some g') : g'.IsTidy := by
  cases op with
  | addVertex v =>
    cases h
    exact hg.addVertex v
  | addAdjacent v w =>
    cases h
    exact hg.addAdjacent v w
  | splitCliques =>
    rw [hg.eq_of_split? h]
    exact hg.cuts_splitCliques.isTidy
  | splitComponents =>
    cases h
    exact hg.cuts_splitComponents.isTidy

theorem isTidy_graphOf (h : graphOf ops = some g) : g.IsTidy := by
  refine graphOf_induction (P := fun _ g => g.IsTidy) ?_ (fun _ _ _ _ _ hg hop =>
    Operation.isTidy_apply hg hop) h
  have hnone : ∀ a b, b ∉ Graph.empty.neighboursOf a := fun a b hb =>
    absurd (Graph.lt_size_of_mem_neighboursOf hb) (Nat.not_lt_zero a)
  exact ⟨fun a b hb => absurd hb (hnone a b), fun a => hnone a a, Nat.le_refl 0⟩

theorem hasVertex_of_vertices_eq (h : g'.vertices = g.vertices) :
    g'.HasVertex u ↔ g.HasVertex u := by
  rw [Graph.HasVertex, h, Graph.HasVertex]

theorem Operation.hasVertex_apply_iff (hg : g.IsTidy) (h : op.apply g = some g') :
    g'.HasVertex u ↔ g.HasVertex u ∨ u ∈ op.mentions := by
  cases op with
  | addVertex v =>
    cases h
    rw [Operation.mentions, List.mem_singleton]
    exact Graph.hasVertex_addVertex_iff
  | addAdjacent v w =>
    cases h
    rw [Operation.mentions]
    split
    next h => simp [h, Graph.addAdjacent_self]
    next h =>
      rw [hasVertex_of_vertices_eq (Graph.vertices_addAdjacent h), Graph.hasVertex_addVertex_iff,
        Graph.hasVertex_addVertex_iff, or_assoc]
      simp
  | splitCliques =>
    rw [hg.eq_of_split? h, hasVertex_of_vertices_eq hg.cuts_splitCliques.vertices_eq]
    simp [Operation.mentions]
  | splitComponents =>
    cases h
    rw [hasVertex_of_vertices_eq hg.cuts_splitComponents.vertices_eq]
    simp [Operation.mentions]

/-- The vertices of a graph are the propositions that have been mentioned. -/
theorem hasVertex_graphOf_iff (h : graphOf ops = some g) : g.HasVertex u ↔ u ∈ mentioned ops := by
  refine graphOf_induction (P := fun ops g => g.HasVertex u ↔ u ∈ mentioned ops) ?_
    (fun ops g op g' hops hvertex hop => ?_) h
  · refine iff_of_false (fun ⟨a, ha⟩ => ?_) List.not_mem_nil
    exact absurd (Array.getElem?_eq_some_iff.mp ha).1 (Nat.not_lt_zero a)
  · rw [mentioned_append_singleton, Operation.hasVertex_apply_iff (isTidy_graphOf hops) hop,
      hvertex, List.mem_append]

/-- Links join only propositions that may be linked. An operation adds at most the link that it
asks for, and what a new proposition takes over. -/
theorem linksOnly_graphOf (h : graphOf ops = some g) : g.LinksOnly (MayBeLinked ops) := by
  refine graphOf_induction (P := fun ops g => g.LinksOnly (MayBeLinked ops))
    (fun a b hb => absurd (Graph.lt_size_of_mem_neighboursOf hb) (Nat.not_lt_zero a))
    (fun ops g op g' hops hlinks hop => ?_) h
  have htidy := isTidy_graphOf hops
  replace hlinks : g.LinksOnly (MayBeLinked (ops ++ [op])) := hlinks.mono fun _ _ h => h.append op
  -- a vertex that is new has not been mentioned
  have hlate : ∀ u ∈ op.mentions, ¬g.HasVertex u → 0 < g.inventedCount →
      ∀ x, MayBeLinked (ops ++ [op]) u x := fun u hu hnew hinvented x =>
    Or.inr (Or.inl (isLate_of_new hops hu (mt (hasVertex_graphOf_iff hops).mpr hnew) hinvented))
  cases op with
  | addVertex v =>
    cases hop
    exact hlinks.addVertex htidy (hlate v (List.mem_singleton_self v))
  | addAdjacent v w =>
    cases hop
    refine hlinks.addAdjacent htidy (fun _ => Or.inl (Or.inl (by simp))) fun hne u hu => ?_
    exact hlate u (by rw [Operation.mentions, if_neg hne]; simpa using hu)
  | splitCliques =>
    rw [htidy.eq_of_split? hop]
    exact hlinks.cuts htidy.cuts_splitCliques
  | splitComponents =>
    cases hop
    exact hlinks.cuts htidy.cuts_splitComponents

/-- There are as many vertices as propositions have been mentioned. -/
theorem vertexCount_graphOf (h : graphOf ops = some g) :
    g.vertexCount = (mentioned ops).dedup.length := by
  have hnodup : g.vertices.entries.toList.Nodup := by
    refine List.nodup_iff_getElem?_ne_getElem?.mpr fun i j hij hj heq => ?_
    rw [Array.getElem?_toList, Array.getElem?_toList] at heq
    have hentry := Array.getElem?_eq_getElem (Array.length_toList ▸ hj)
    exact Nat.ne_of_lt hij (g.vertices.position_unique (heq.trans hentry) hentry rfl)
  have hperm : g.vertices.entries.toList.Perm (mentioned ops).dedup := by
    refine (List.perm_ext_iff_of_nodup hnodup (List.nodup_dedup _)).mpr fun v => ?_
    rw [List.mem_dedup, ← hasVertex_graphOf_iff h, List.mem_iff_getElem?]
    simp only [Array.getElem?_toList]
    rfl
  rw [← hperm.length_eq, Array.length_toList]
  rfl

/-! ## Histories that fail -/

/-- Only splitting into components makes vertices that stand for no proposition. -/
theorem Operation.inventedCount_apply (hg : g.IsTidy) (hop : op ≠ .splitComponents)
    (h : op.apply g = some g') : g'.inventedCount = g.inventedCount := by
  cases op with
  | addVertex v =>
    cases h
    exact Graph.inventedCount_addVertex v
  | addAdjacent v w =>
    cases h
    exact Graph.inventedCount_addAdjacent v w
  | splitCliques => rw [hg.eq_of_split? h, Graph.inventedCount, Graph.inventedCount]; rfl
  | splitComponents => exact absurd rfl hop

theorem inventedCount_graphOf (hops : .splitComponents ∉ ops) (h : graphOf ops = some g) :
    g.inventedCount = 0 := by
  refine graphOf_induction (P := fun ops g => .splitComponents ∉ ops → g.inventedCount = 0)
    (fun _ => rfl) (fun ops g op g' hops hinvented hop hnone => ?_) h hops
  rw [List.mem_append, List.mem_singleton, not_or] at hnone
  rw [Operation.inventedCount_apply (isTidy_graphOf hops) (Ne.symm hnone.2) hop]
  exact hinvented hnone.1

/-- In a graph without such vertices the cliques keep to the propositions. -/
theorem Graph.IsTidy.keepsToPropositions (h : g.IsTidy) (hinvented : g.inventedCount = 0) :
    g.KeepsToPropositions := by
  rw [Graph.inventedCount] at hinvented
  intro clique hclique b hb
  obtain ⟨a, -, ha, rfl, -⟩ := Graph.exists_of_mem_cover hclique
  rw [Graph.isFictitious_eq_false_iff] at ha ⊢
  have hlt := h.lt_size_of_mem_growClique_singleton (Nat.lt_of_lt_of_le ha h.size_le) hb
  omega

theorem Operation.apply_eq_none_iff (hg : g.IsTidy) :
    op.apply g = none ↔ op = .splitCliques ∧ ¬g.KeepsToPropositions := by
  cases op with
  | splitCliques =>
    rw [Operation.apply, Graph.split?_eq hg.size_le, ite_eq_right_iff]
    simp
  | _ => simp [Operation.apply]

/-- **A history fails** exactly if cliques are formed after components and one of them takes in a
vertex that stands for no proposition. -/
theorem graphOf_eq_none_iff : graphOf ops = none ↔ ∃ before after g,
    ops = before ++ .splitCliques :: after ∧ .splitComponents ∈ before ∧
      graphOf before = some g ∧ ¬g.KeepsToPropositions := by
  constructor
  · intro h
    induction ops using List.reverseRecOn with
    | nil => cases h
    | append_singleton ops op ih =>
      rw [graphOf_append_singleton] at h
      cases hg : graphOf ops with
      | none =>
        obtain ⟨before, after, g, rfl, hrest⟩ := ih hg
        exact ⟨before, after ++ [op], g, by rw [List.append_assoc, List.cons_append], hrest⟩
      | some g =>
        rw [hg, Option.bind_some, Operation.apply_eq_none_iff (isTidy_graphOf hg)] at h
        obtain ⟨rfl, hkeeps⟩ := h
        refine ⟨ops, [], g, rfl, ?_, hg, hkeeps⟩
        by_contra hnone
        exact hkeeps ((isTidy_graphOf hg).keepsToPropositions (inventedCount_graphOf hnone hg))
  · rintro ⟨before, after, g, rfl, -, hg, hkeeps⟩
    have hfailed : Operation.apply g .splitCliques = none :=
      (Operation.apply_eq_none_iff (isTidy_graphOf hg)).mpr ⟨rfl, hkeeps⟩
    rw [graphOf, List.foldlM_append, ← graphOf, hg]
    show (Operation.apply g .splitCliques).bind _ = none
    rw [hfailed]
    rfl

/-! ## Additions -/

/-- Whether an operation adds vertices or a link. -/
def Operation.isAddition : Operation → Bool
  | .addVertex _ | .addAdjacent _ _ => true
  | .splitCliques | .splitComponents => false

/-- Additions do not fail. A graph that has only been added to has no vertices but propositions, and
no groups. -/
theorem exists_graphOf_of_additions (hadditions : ∀ op ∈ ops, op.isAddition = true) :
    ∃ g, graphOf ops = some g ∧ g.IsBuilt fun _ _ => True := by
  have hsymm : Std.Symm (fun _ _ : VarId => True) := ⟨fun _ _ _ => trivial⟩
  induction ops using List.reverseRecOn with
  | nil => exact ⟨_, rfl, Graph.isBuilt_empty⟩
  | append_singleton ops op ih =>
    obtain ⟨hops, hop⟩ := List.forall_mem_append.mp hadditions
    obtain ⟨g, hg, hbuilt⟩ := ih hops
    rw [graphOf_append_singleton, hg]
    cases op with
    | addVertex v => exact ⟨_, rfl, hbuilt.addVertex v⟩
    | addAdjacent v w => exact ⟨_, rfl, hbuilt.addAdjacent trivial⟩
    | splitCliques => cases hop _ (List.mem_singleton_self _)
    | splitComponents => cases hop _ (List.mem_singleton_self _)

/-! ## Links of all histories -/

/-- **The links of a graph** are symmetric and join different propositions, and its vertices are the
propositions that have been mentioned. Two propositions are linked only if they have been, or if one
of them has been added while there were vertices that stand for no proposition; a proposition that
is added when there are none has no links. This holds of all histories but those that fail because a
clique takes in such a vertex. -/
theorem links_of_graphOf (ops : List Operation) :
    (graphOf ops = none ↔ ∃ before after g, ops = before ++ .splitCliques :: after ∧
      .splitComponents ∈ before ∧ graphOf before = some g ∧ ¬g.KeepsToPropositions) ∧
    ∀ g, graphOf ops = some g →
      (∀ v w, g.areAdjacent v w = g.areAdjacent w v) ∧
      (∀ v, g.areAdjacent v v = false) ∧
      g.vertexCount = (mentioned ops).dedup.length ∧
      (∀ v w, g.areAdjacent v w = true →
        HaveBeenLinked ops v w ∨ IsLate ops v ∨ IsLate ops w) ∧
      ∀ v, v ∉ mentioned ops → g.inventedCount = 0 →
        graphOf (ops ++ [.addVertex v]) = some (g.addVertex v) ∧
        ∀ w, (g.addVertex v).areAdjacent v w = false := by
  refine ⟨graphOf_eq_none_iff, fun g hg => ?_⟩
  have htidy := isTidy_graphOf hg
  refine ⟨htidy.areAdjacent_comm, htidy.areAdjacent_self, vertexCount_graphOf hg,
    fun v w h => ?_, fun v hnew hinvented => ⟨?_, fun w => ?_⟩⟩
  · obtain ⟨a, b, ha, hb, hab⟩ := Graph.areAdjacent_iff.mp h
    exact linksOnly_graphOf hg a b hab v w ha hb
  · rw [graphOf_append_singleton, hg]
    rfl
  · rw [← Bool.not_eq_true, Graph.areAdjacent_iff]
    rintro ⟨a, b, ha, -, hab⟩
    -- the new proposition is at the end of the table, where nothing is linked
    have hv := mt (hasVertex_graphOf_iff hg).mp hnew
    have hlast : g.vertices.size = a := ((g.addVertex v).vertices.position_unique ha
      ((Graph.get?_addVertex_of_new hv _).trans (if_pos rfl)) rfl).symm
    rw [Graph.neighboursOf_addVertex, ← hlast] at hab
    exact (htidy.not_mem_neighboursOf_new hinvented b).1 hab

/-- The propositions 0 and 2 are both linked with 1. -/
def threeInARow : List Operation := [.addAdjacent ⟨0⟩ ⟨1⟩, .addAdjacent ⟨1⟩ ⟨2⟩]

/-- Both links have been made, and another proposition has none after it has been added. -/
theorem links_of_threeInARow : ∃ g, graphOf threeInARow = some g ∧
    g.areAdjacent ⟨1⟩ ⟨0⟩ = true ∧
    (HaveBeenLinked threeInARow ⟨1⟩ ⟨0⟩ ∨ IsLate threeInARow ⟨1⟩ ∨ IsLate threeInARow ⟨0⟩) ∧
    g.inventedCount = 0 ∧ ∀ w, (g.addVertex ⟨3⟩).areAdjacent ⟨3⟩ w = false := by
  obtain ⟨-, hall⟩ := links_of_graphOf threeInARow
  have hlinked : ∃ g ∈ graphOf threeInARow, g.areAdjacent ⟨1⟩ ⟨0⟩ = true ∧ g.inventedCount = 0 := by
    decide +kernel
  obtain ⟨g, hg, hlinked, hinvented⟩ := hlinked
  obtain ⟨-, -, -, hlinks, hnew⟩ := hall g hg
  exact ⟨g, hg, hlinked, hlinks ⟨1⟩ ⟨0⟩ hlinked, hinvented, (hnew ⟨3⟩ (by decide) hinvented).2⟩

/-- After a split, a new proposition has a link, although it has never been linked. -/
theorem exists_inherited_link :
    (∃ g ∈ graphOf (threeInARow ++ [.splitComponents, .addVertex ⟨3⟩]),
      g.areAdjacent ⟨3⟩ ⟨0⟩ = true) ∧
      ¬HaveBeenLinked (threeInARow ++ [.splitComponents, .addVertex ⟨3⟩]) ⟨3⟩ ⟨0⟩ ∧
      ⟨3⟩ ∉ mentioned (threeInARow ++ [.splitComponents]) := by
  refine ⟨by decide +kernel, ?_, by decide⟩
  rw [HaveBeenLinked]
  decide

-- After a split by components, the clique that is grown from 0 takes in the vertex that stands for
-- none of 1 and 2, and splitting into cliques fails.
example :
    graphOf (threeInARow ++ [.splitComponents, .splitCliques]) = none := by decide +kernel

end Histories

end TemporalPlanning.Mutex
