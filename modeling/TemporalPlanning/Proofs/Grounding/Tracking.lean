import TemporalPlanning.Proofs.Grounding.Reaching
/-!
The state of grounding and the instances looked at so far.

`Tracks` says what the state knows at some point of a level: which instances have been looked at,
which of them have contributed an action and the values of their effects, and with which level each
value is recorded. Values of the current level and before are recorded with the level at which they
are first reached; the values that contributions have added lie one level further. Looking at an
instance keeps this, with one more instance, so the order in which instances are looked at does not
matter.
-/
set_option autoImplicit false

namespace TemporalPlanning.Grounding

open Grounded

variable (p : Lifted.Problem)

/-- An operator of a problem, prepared for matching. -/
abbrev schemaOf (i : Nat) (op : Lifted.Operator) : Schema :=
  Schema.ofOperator (Setting.ofTask p.task) i op

/-- An instance of an operator of the problem. -/
structure IsInstanceOf (i : Nat) (op : Lifted.Operator) (as : List ObjectId) : Prop where
  operator : p.operators[i]? = some op
  admissible : Instance.IsAdmissible (Setting.ofTask p.task) op as

/-- An action is what it says it is: the instance of its operator for its arguments. -/
def IsGenuine (s : State) (a : Action) : Prop :=
  ∃ op, p.operators[a.operator]? = some op ∧
    IsInstance a.arguments (schemaOf p a.operator op) (p.task.applied op.name a.arguments) s a

theorem IsGenuine.imp {p : Lifted.Problem} {s s' : State} {a : Action} (h : IsGenuine p s a)
    (himp : ∀ c v, s.Reads c v → s'.Reads c v) : IsGenuine p s' a := by
  obtain ⟨op, hop, ha⟩ := h
  exact ⟨op, hop, ha.imp himp⟩

/-- The goals or the ordinary actions found so far. -/
def State.found (s : State) (goals : Bool) : Array Action := if goals then s.goals else s.actions

/-- What is known at level `k` when the instances in `T` have been looked at and those in `U` have
contributed. -/
structure Tracks (k : Nat) (T U : Nat → List ObjectId → Prop) (s : State) : Prop where
  level : s.level = k
  facts : ∀ fact ∈ p.task.init, ∃ var, s.Names var fact.function fact.arguments
  mirrored : s.IsMirrored
  tried : ∀ {i op as}, IsInstanceOf p i op as →
    (s.HasTried (schemaOf p i op) (p.task.applied op.name as) as ↔ T i as)
  records : ∀ v l, s.Records v l ↔ (l ≤ k ∧ FirstReached p l v) ∨
    (l = k + 1 ∧ ¬closure p k v ∧
      ∃ i op as, p.operators[i]? = some op ∧ U i as ∧ v ∈ Instance.changes op as)
  found : ∀ b i as, (∃ a ∈ (s.found b).toList, a.operator = i ∧ a.arguments = as) ↔
    U i as ∧ ∃ op, p.operators[i]? = some op ∧ op.isGoal = b
  once : ∀ b, ((s.found b).toList.map fun a => (a.operator, a.arguments)).Nodup
  genuine : ∀ b, ∀ a ∈ (s.found b).toList, IsGenuine p s a

namespace Tracks

variable {p} {k : Nat} {T U T' U' : Nat → List ObjectId → Prop} {s s' : State}

theorem congr (h : Tracks p k T U s) (hT : ∀ i as, T i as ↔ T' i as)
    (hU : ∀ i as, U i as ↔ U' i as) : Tracks p k T' U' s where
  level := h.level
  facts := h.facts
  mirrored := h.mirrored
  tried hi := (h.tried hi).trans (hT _ _)
  records v l := by simp only [h.records, hU]
  found b i as := by rw [h.found, hU]
  once := h.once
  genuine := h.genuine

/-! ## Looking at an instance -/

section Marking

variable {i j : Nat} {op op' : Lifted.Operator} {as bs : List ObjectId}

/-- Marking an instance marks no other one. -/
theorem hasTried_markTried (hnames : HasDistinctNames p) (hi : IsInstanceOf p i op as)
    (hj : IsInstanceOf p j op' bs) :
    (s.markTried (schemaOf p i op) (p.task.applied op.name as) as).HasTried (schemaOf p j op')
        (p.task.applied op'.name bs) bs ↔
      s.HasTried (schemaOf p j op') (p.task.applied op'.name bs) bs ∨ (j = i ∧ bs = as) := by
  have hinj : Function.Injective ObjectId.index := fun ⟨_⟩ ⟨_⟩ h => by
    cases h
    rfl
  have hop : j = i → op' = op := fun h => by
    have hj' := hj.operator
    rw [h, hi.operator] at hj'
    exact (Option.some.inj hj').symm
  have hschema : (schemaOf p i op).operator.isGoal = op.isGoal := rfl
  have hschema' : (schemaOf p j op').operator.isGoal = op'.isGoal := rfl
  -- ordinary operators are marked by names, goal operators by positions and arguments
  cases hgoal : op.isGoal <;> cases hgoal' : op'.isGoal <;> rw [hgoal] at hschema <;>
    rw [hgoal'] at hschema'
  · -- two ordinary operators
    rw [State.markTried_of_ordinary hschema, State.hasTried_of_ordinary hschema',
      State.hasTried_of_ordinary hschema', Std.TreeSet.mem_insert,
      Std.LawfulEqCmp.compare_eq_iff_eq, or_comm]
    refine or_congr_right ⟨fun h => ?_, ?_⟩
    · obtain ⟨hij, hab⟩ := hnames i j op op' as bs hi.operator hj.operator hgoal hgoal'
        hi.admissible hj.admissible h
      exact ⟨hij.symm, hab.symm⟩
    · rintro ⟨rfl, rfl⟩
      rw [hop rfl]
  · rw [State.markTried_of_ordinary hschema, State.hasTried_of_goal hschema',
      State.hasTried_of_goal hschema']
    refine (or_iff_left ?_).symm
    rintro ⟨h, -⟩
    rw [hop h, hgoal] at hgoal'
    cases hgoal'
  · rw [State.markTried_of_goal hschema, State.hasTried_of_ordinary hschema',
      State.hasTried_of_ordinary hschema']
    refine (or_iff_left ?_).symm
    rintro ⟨h, -⟩
    rw [hop h, hgoal] at hgoal'
    cases hgoal'
  · -- two goal operators
    rw [State.markTried_of_goal hschema, State.hasTried_of_goal hschema',
      State.hasTried_of_goal hschema', Std.TreeSet.mem_insert, Std.LawfulEqCmp.compare_eq_iff_eq,
      List.cons.injEq, List.map_inj_right fun _ _ h => hinj h, or_comm]
    refine or_congr_right ⟨fun ⟨h, h'⟩ => ⟨h.symm, h'.symm⟩, fun ⟨h, h'⟩ => ⟨h.symm, h'.symm⟩⟩

theorem mark (h : Tracks p k T U s) (hnames : HasDistinctNames p) (hi : IsInstanceOf p i op as) :
    Tracks p k (fun j bs => T j bs ∨ (j = i ∧ bs = as)) U
      (s.markTried (schemaOf p i op) (p.task.applied op.name as) as) := by
  have htried : ∀ {j op' bs}, IsInstanceOf p j op' bs → _ := fun hj =>
    (hasTried_markTried (s := s) hnames hi hj).trans (or_congr_left (h.tried hj))
  rw [State.markTried_frame] at htried ⊢
  exact ⟨h.level, h.facts, ⟨h.mirrored.mem_iff, h.mirrored.nodup⟩, htried, h.records, h.found,
    h.once, fun b a ha => (h.genuine b a ha).imp fun _ _ hreads => hreads⟩

theorem creates (h : Tracks p k T U s) (hs : s.Creates s') : Tracks p k T U s' := by
  have hreaches := hs.reaches 0
  have hframe := hs.frame
  refine ⟨?_, fun fact hfact => ?_, hreaches.mirrored h.mirrored, fun hi => ?_, fun v l => ?_,
    fun b i as => ?_, fun b => ?_, fun b a ha => ?_⟩
  · rw [hframe]
    exact h.level
  · obtain ⟨var, hvar⟩ := h.facts fact hfact
    exact ⟨var, hvar.mono hs⟩
  · rw [← h.tried hi, hframe]
    rfl
  · rw [hs.records_iff, h.records]
  · rw [← h.found b i as, hframe]
    rfl
  · rw [hframe]
    exact h.once b
  · rw [hframe] at ha
    exact (h.genuine b a ha).imp fun _ _ hreads => hreads.mono hs

end Marking

section Adding

variable {i : Nat} {op : Lifted.Operator} {as : List ObjectId} {a : Action} {s₁ : State}

theorem found_add (s : State) (a : Action) (b : Bool) :
    (s.add a).found b = if a.isGoal = b then
      (s.found b).push { a with index := (s.found b).size } else s.found b := by
  unfold State.add State.found
  cases a.isGoal <;> cases b <;> rfl

section Contribution

variable (h : Tracks p k T U s) (hi : p.operators[i]? = some op)
  (ha : IsInstance as (schemaOf p i op) (p.task.applied op.name as) s a)

include h hi

/-- The values of the effects of an instance are recorded as far as they are new. -/
theorem records_of_reaches (hreaches : s.Reaches (k + 1) (Instance.changes op as) s₁)
    (v : ReachedValue) (l : Nat) :
    s₁.Records v l ↔ (l ≤ k ∧ FirstReached p l v) ∨ (l = k + 1 ∧ ¬closure p k v ∧
      ∃ j op' bs, p.operators[j]? = some op' ∧ (U j bs ∨ (j = i ∧ bs = as)) ∧
        v ∈ Instance.changes op' bs) := by
  rw [hreaches.records]
  constructor
  · rintro (hv | ⟨rfl, hv, hnone⟩)
    · rcases (h.records v l).mp hv with hv | ⟨hl, hv, j, op', bs, hj, hU, hmem⟩
      · exact Or.inl hv
      · exact Or.inr ⟨hl, hv, j, op', bs, hj, Or.inl hU, hmem⟩
    · refine Or.inr ⟨rfl, fun hclosure => ?_, i, op, as, hi, Or.inr ⟨rfl, rfl⟩, hv⟩
      obtain ⟨l, hl, hfirst⟩ := exists_firstReached p hclosure
      exact hnone l ((h.records v l).mpr (Or.inl ⟨hl, hfirst⟩))
  · rintro (hv | ⟨hl, hv, j, op', bs, hj, hU | ⟨rfl, rfl⟩, hmem⟩)
    · exact Or.inl ((h.records v l).mpr (Or.inl hv))
    · exact Or.inl ((h.records v l).mpr (Or.inr ⟨hl, hv, j, op', bs, hj, hU, hmem⟩))
    · -- the value may have been recorded already, but then with the next level as well
      rw [hi] at hj
      cases hj
      by_cases hrecorded : ∃ l', s.Records v l'
      · obtain ⟨l', hl'⟩ := hrecorded
        rcases (h.records v l').mp hl' with ⟨hle, hfirst⟩ | ⟨hl'', -⟩
        · exact absurd (closure_mono p hle hfirst.1) hv
        · rw [hl, ← hl'']
          exact Or.inl hl'
      · exact Or.inr ⟨hl, hmem, fun l' hl' => hrecorded ⟨l', hl'⟩⟩

include ha

/-- Actions are found for one more instance. -/
theorem mem_found_add (b : Bool) (j : Nat) (bs : List ObjectId) :
    (∃ a' ∈ ((s.add a).found b).toList, a'.operator = j ∧ a'.arguments = bs) ↔
      (U j bs ∨ (j = i ∧ bs = as)) ∧ ∃ op', p.operators[j]? = some op' ∧ op'.isGoal = b := by
  rw [found_add]
  by_cases hb : a.isGoal = b
  · rw [if_pos hb, Array.toList_push]
    simp only [List.mem_append, List.mem_singleton, or_and_right, exists_or, exists_eq_left,
      h.found]
    refine or_congr_right ?_
    rw [ha.operator_eq, ha.arguments_eq]
    constructor
    · rintro ⟨rfl, rfl⟩
      exact ⟨⟨rfl, rfl⟩, op, hi, ha.isGoal_eq.symm.trans hb⟩
    · rintro ⟨⟨rfl, rfl⟩, -⟩
      exact ⟨rfl, rfl⟩
  · -- the action belongs to the other list
    rw [if_neg hb, h.found, or_and_right]
    refine (or_iff_left ?_).symm
    rintro ⟨⟨rfl, rfl⟩, op', hop', hgoal⟩
    rw [hi] at hop'
    cases hop'
    exact hb (ha.isGoal_eq.trans hgoal)

omit hi in
/-- If the instance is new, there is still one action for each instance. -/
theorem nodup_found_add (hnew : ¬U i as) (b : Bool) :
    (((s.add a).found b).toList.map fun a => (a.operator, a.arguments)).Nodup := by
  rw [found_add]
  by_cases hb : a.isGoal = b
  · rw [if_pos hb, Array.toList_push, List.map_append, List.nodup_append]
    refine ⟨h.once b, List.pairwise_singleton _ _, fun key hkey key' hkey' heq => ?_⟩
    obtain ⟨a', ha', rfl⟩ := List.mem_map.mp hkey
    rw [List.map_singleton, List.mem_singleton] at hkey'
    rw [hkey', ha.operator_eq, ha.arguments_eq, Prod.mk.injEq] at heq
    exact hnew ((h.found b i as).mp ⟨a', ha', heq⟩).1
  · rw [if_neg hb]
    exact h.once b

/-- The action that is added is what it says it is. -/
theorem isGenuine_of_mem_add (b : Bool) {a' : Action} (ha' : a' ∈ ((s.add a).found b).toList) :
    IsGenuine p s a' := by
  rw [found_add] at ha'
  split at ha'
  · rcases List.mem_append.mp (Array.toList_push ▸ ha') with ha' | ha'
    · exact h.genuine b a' ha'
    · rw [List.mem_singleton.mp ha']
      have hindex : a.operator = i := ha.operator_eq
      subst hindex
      obtain rfl := ha.arguments_eq
      exact ⟨op, hi, { ha with }⟩
  · exact h.genuine b a' ha'

end Contribution

/-- The contributions of an instance: an action, and the values of its effects as far as they are
new. -/
theorem add (h : Tracks p k T U s) (hi : p.operators[i]? = some op) (hnew : ¬U i as)
    (ha : IsInstance as (schemaOf p i op) (p.task.applied op.name as) s a)
    (hreaches : s.Reaches (k + 1) (Instance.changes op as) s₁) :
    Tracks p k T (fun j bs => U j bs ∨ (j = i ∧ bs = as)) (s₁.add a) := by
  -- reaching values leaves the actions alone, and adding an action leaves all else alone
  have hfound : ∀ b, (s₁.add a).found b = (s.add a).found b := fun b => by
    have hframe : s₁.found b = s.found b := by
      rw [hreaches.frame]
      rfl
    rw [found_add, found_add, hframe]
  have hreads : ∀ c v, s.Reads c v → (s₁.add a).Reads c v := fun c v hv => by
    rw [State.add_frame]
    exact hreaches.reads hv
  refine ⟨?_, fun fact hfact => ?_, ?_, fun hj => ?_, fun v l => ?_, fun b j bs => ?_, fun b => ?_,
    fun b a' ha' => ?_⟩
  · rw [State.add_frame, hreaches.frame]
    exact h.level
  · obtain ⟨var, hvar⟩ := h.facts fact hfact
    rw [State.add_frame]
    exact ⟨var, hreaches.names hvar⟩
  · have hmirrored := hreaches.mirrored h.mirrored
    rw [State.add_frame]
    exact ⟨hmirrored.mem_iff, hmirrored.nodup⟩
  · rw [← h.tried hj, State.add_frame, hreaches.frame]
    rfl
  · rw [State.add_frame]
    exact h.records_of_reaches hi hreaches v l
  · rw [hfound]
    exact h.mem_found_add hi ha b j bs
  · rw [hfound]
    exact h.nodup_found_add ha hnew b
  · rw [hfound] at ha'
    exact (h.isGenuine_of_mem_add hi ha b ha').imp hreads

end Adding

end Tracks

/-! ## Looking at many instances -/

/-- A set of instances, by the positions of their operators. -/
abbrev Instances := Nat → List ObjectId → Prop

variable {p} in
/-- The operators of a problem, prepared for matching. -/
theorem mem_schemasOf {schema : Schema} :
    schema ∈ schemasOf (Setting.ofTask p.task) p.operators ↔
      ∃ i op, p.operators[i]? = some op ∧ schema = schemaOf p i op := by
  simp only [schemasOf, List.mem_map, Prod.exists, List.mem_zipIdx_iff_getElem?]
  constructor
  · rintro ⟨op, i, hi, rfl⟩
    exact ⟨i, op, hi, rfl⟩
  · rintro ⟨i, op, hi, rfl⟩
    exact ⟨op, i, hi, rfl⟩

/-- A step looks at some instances: it adds them to those that what is known depends on. -/
def Step.LooksAt (x : Step PUnit) (P : Instances → State → Prop) (E : Instances) : Prop :=
  ∀ T s, P T s → x.Ensures s fun _ s' => P (fun i as => T i as ∨ E i as) s'

/-- Looking at an instance of an operator adds this instance. -/
def LooksAtEach (P : Instances → State → Prop) : Prop :=
  ∀ i op as, IsInstanceOf p i op as →
    (groundInstance p.task as (schemaOf p i op)).LooksAt P fun j bs => j = i ∧ bs = as

section Looking

variable {p} {P : Instances → State → Prop}

theorem Step.LooksAt.congr {x : Step PUnit} {E E' : Instances} (h : x.LooksAt P E)
    (hE : ∀ i as, E i as ↔ E' i as) : x.LooksAt P E' := by
  obtain rfl : E = E' := funext fun i => funext fun as => propext (hE i as)
  exact h

/-- Steps that look at instances, one after the other. -/
theorem looksAt_forM {α : Type} {f : α → Step PUnit} {E : α → Instances} {l : List α}
    (h : ∀ a ∈ l, (f a).LooksAt P (E a)) :
    Step.LooksAt (l.forM f) P fun i as => ∃ a ∈ l, E a i as := by
  intro T s hs
  induction l generalizing T s with
  | nil => exact Step.ensures_pure.mpr (by simpa using hs)
  | cons a l ih =>
    refine Step.ensures_bind.mpr ((h a List.mem_cons_self T s hs).mono fun _ s' hs' => ?_)
    refine (ih (fun b hb => h b (List.mem_cons_of_mem _ hb)) _ s' hs').mono fun _ s'' hs'' => ?_
    simpa only [List.mem_cons, exists_eq_or_imp, or_assoc] using hs''

/-- Looking at instances of several operators, for each of them those that a list has. -/
theorem looksAt_groundSchemas (heach : LooksAtEach p P) {schemas : List Schema}
    (hschemas : ∀ schema ∈ schemas, schema ∈ schemasOf (Setting.ofTask p.task) p.operators)
    {l : Schema → List (List ObjectId)}
    (hl : ∀ i op, p.operators[i]? = some op → ∀ as ∈ l (schemaOf p i op),
      Instance.IsAdmissible (Setting.ofTask p.task) op as) :
    Step.LooksAt
      (schemas.forM fun schema => (l schema).forM fun as => groundInstance p.task as schema) P
      fun i as => ∃ op, p.operators[i]? = some op ∧ schemaOf p i op ∈ schemas ∧
        as ∈ l (schemaOf p i op) := by
  have hschema : ∀ schema ∈ schemas,
      Step.LooksAt ((l schema).forM fun as => groundInstance p.task as schema) P
        fun i as => ∃ op, p.operators[i]? = some op ∧ schema = schemaOf p i op ∧
          as ∈ l schema := by
    intro schema hschema
    obtain ⟨i, op, hi, rfl⟩ := mem_schemasOf.mp (hschemas schema hschema)
    refine (looksAt_forM fun as has => heach i op as ⟨hi, hl i op hi as has⟩).congr
      fun j bs => ⟨?_, ?_⟩
    · rintro ⟨as, has, rfl, rfl⟩
      exact ⟨op, hi, rfl, has⟩
    · -- a schema knows its position
      rintro ⟨op', hj, heq, hbs⟩
      exact ⟨bs, hbs, (congrArg Schema.index heq).symm, rfl⟩
  refine (looksAt_forM hschema).congr fun i as => ⟨?_, ?_⟩
  · rintro ⟨schema, hmem, op, hi, rfl, has⟩
    exact ⟨op, hi, hmem, has⟩
  · rintro ⟨op, hi, hmem, has⟩
    exact ⟨_, hmem, op, hi, rfl, has⟩

end Looking

/-! ## Instances that contribute -/

/-- The instances among some that contribute when they are looked at. -/
def contributing (T : Instances) : Instances := fun i as =>
  T i as ∧ ∃ op, p.operators[i]? = some op ∧ Instance.IsUseful op as

namespace State

/-- The current level is the same, and values have only been added at the end. -/
structure IsLater (s s' : State) : Prop where
  level : s'.level = s.level
  levelStart : s'.levelStart = s.levelStart
  levelEnd : s'.levelEnd = s.levelEnd
  values : s.values.toList <+: s'.values.toList

theorem IsLater.refl (s : State) : s.IsLater s := ⟨rfl, rfl, rfl, List.prefix_rfl⟩

theorem IsLater.trans {s s' s'' : State} (h : s.IsLater s') (h' : s'.IsLater s'') :
    s.IsLater s'' :=
  ⟨h'.level.trans h.level, h'.levelStart.trans h.levelStart, h'.levelEnd.trans h.levelEnd,
    h.values.trans h'.values⟩

theorem IsLater.size_le {s s' : State} (h : s.IsLater s') : s.values.size ≤ s'.values.size := by
  rw [← Array.length_toList, ← Array.length_toList]
  exact h.values.length_le

/-- The first values stay as they are. -/
theorem IsLater.take_values {s s' : State} (h : s.IsLater s') {n : Nat} (hn : n ≤ s.values.size) :
    s'.values.toList.take n = s.values.toList.take n := by
  obtain ⟨rest, hrest⟩ := h.values
  rw [← hrest]
  exact List.take_append_of_le_length (by rwa [Array.length_toList])

theorem Reaches.isLater {s s' : State} {level : Nat} {vs : List ReachedValue}
    (h : s.Reaches level vs s') : s.IsLater s' := by
  refine ⟨?_, ?_, ?_, h.values⟩ <;> rw [h.frame]

theorem isLater_add (s : State) (a : Action) : s.IsLater (s.add a) := by
  rw [add_frame]
  exact ⟨rfl, rfl, rfl, List.prefix_rfl⟩

theorem isLater_markTried (s : State) (schema : Schema) (name : String) (as : List ObjectId) :
    s.IsLater (s.markTried schema name as) := by
  rw [markTried_frame]
  exact ⟨rfl, rfl, rfl, List.prefix_rfl⟩

end State

variable {p} {k : Nat} {s : State}

/-- Some instances have been looked at since an earlier state of the level. -/
structure TracksFrom (p : Lifted.Problem) (s₀ : State) (k : Nat) (T : Instances) (s : State) :
    Prop where
  tracks : Tracks p k T (contributing p T) s
  later : s₀.IsLater s

section Looking

variable {s₀ : State} {T T' : Instances} (hnames : HasDistinctNames p)
  (hfacts : HasNumericFacts p)

theorem TracksFrom.congr (h : TracksFrom p s₀ k T s) (hT : ∀ i as, T i as ↔ T' i as) :
    TracksFrom p s₀ k T' s :=
  ⟨h.tracks.congr hT fun i as => by rw [contributing, contributing, hT], h.later⟩

include hnames hfacts

/-- **Looking at an instance** adds it to the instances that have been looked at. -/
theorem TracksFrom.groundInstance (h : TracksFrom p s₀ k T s) {i : Nat} {op : Lifted.Operator}
    {as : List ObjectId} (hi : IsInstanceOf p i op as) :
    (Grounding.groundInstance p.task as (schemaOf p i op)).Ensures s fun _ s' =>
      TracksFrom p s₀ k (fun j bs => T j bs ∨ (j = i ∧ bs = as)) s' := by
  have hop : ∀ {op'}, p.operators[i]? = some op' → op' = op := fun h => by
    rw [hi.operator] at h
    exact (Option.some.inj h).symm
  have hnumeric : ∀ l ∈ numericLiterals op, s.HasVariable as l := fun l hl => by
    obtain ⟨fact, hfact, hf, has⟩ :=
      hfacts op (List.mem_of_getElem? hi.operator) as hi.admissible l hl
    obtain ⟨var, hvar⟩ := h.tracks.facts fact hfact
    exact ⟨var, hf ▸ has ▸ hvar⟩
  refine (groundInstance_ensures p.task as (schemaOf p i op) hnumeric).mono ?_
  rintro _ s' (⟨htried, rfl⟩ | ⟨hnew, s₁, hcreates, hcontribution⟩)
  · -- the instance has been looked at before
    have hT : T i as := (h.tracks.tried hi).mp htried
    refine h.congr fun j bs => (or_iff_left_of_imp ?_).symm
    rintro ⟨rfl, rfl⟩
    exact hT
  · have hmarked := (h.tracks.mark hnames hi).creates hcreates
    have hlater := (h.later.trans (s.isLater_markTried _ _ _)).trans (hcreates.reaches 0).isLater
    -- it is new: marked in any case, and then useless or contributing
    rcases hcontribution with ⟨huseless, rfl⟩ | ⟨huseful, a, s₂, ha, hreaches, rfl⟩
    · refine ⟨hmarked.congr (fun _ _ => Iff.rfl) fun j bs => ?_, hlater⟩
      rw [contributing, contributing, or_and_right]
      refine (or_iff_left ?_).symm
      rintro ⟨⟨rfl, rfl⟩, op', hop', huseful⟩
      rw [hop hop'] at huseful
      exact huseless huseful
    · have hlevel : s₁.level = k := hmarked.level
      rw [hlevel] at hreaches
      have hnotT : ¬T i as := fun hT => hnew ((h.tracks.tried hi).mpr hT)
      refine ⟨(hmarked.add hi.operator (fun hU => hnotT hU.1) ha hreaches).congr
        (fun _ _ => Iff.rfl) fun j bs => ?_, (hlater.trans hreaches.isLater).trans
          (State.isLater_add _ _)⟩
      rw [contributing, contributing, or_and_right]
      refine or_congr_right ⟨?_, And.left⟩
      rintro ⟨rfl, rfl⟩
      exact ⟨⟨rfl, rfl⟩, op, hi.operator, huseful⟩

/-- What is known of a level can be kept up to date. -/
theorem tracksFrom_looksAtEach (s₀ : State) (k : Nat) : LooksAtEach p (TracksFrom p s₀ k) :=
  fun _ _ _ hi _ _ h => h.groundInstance hnames hfacts hi

end Looking

end TemporalPlanning.Grounding
