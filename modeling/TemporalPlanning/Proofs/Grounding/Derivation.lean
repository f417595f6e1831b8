import TemporalPlanning.Proofs.Grounding.SemiNaive
/-!
What exploration finds when variables may be missing.

An instance whose numeric parts mention a variable that does not exist is given up for good, but the
variable may be created later on. So what is found depends on the order in which instances are
looked at, and only bounds can be given. A value is derivable, given the functions applied to objects
that have variables, if it belongs to every set that contains the values of the initial state and is
closed under the instances that do not lack a variable. Exploration reaches all values that are
derivable from the variables of the facts, and no value that is not derivable from the variables that
exist in the end; and likewise for the actions it finds.
-/
set_option autoImplicit false

namespace TemporalPlanning.Grounding

open Grounded

/-! ## Derivable values -/

/-- Functions applied to objects. -/
abbrev Atoms := FunctionId → List ObjectId → Prop

/-- An instance becomes an action if it is useful and what its numeric parts mention exists. -/
structure IsEffective (E : Atoms) (op : Lifted.Operator) (as : List ObjectId) : Prop where
  useful : Instance.IsUseful op as
  defined : ∀ l ∈ numericLiterals op, E l.function (l.arguments.map (denote as))

theorem IsEffective.mono {E E' : Atoms} {op : Lifted.Operator} {as : List ObjectId}
    (h : IsEffective E op as) (hE : ∀ f as, E f as → E' f as) : IsEffective E' op as :=
  ⟨h.useful, fun l hl => hE _ _ (h.defined l hl)⟩

variable (p : Lifted.Problem)

/-- A set of values contains those of the initial state and the effects of the instances that it
enables and that do not lack a variable. -/
structure IsInstanceClosed (E : Atoms) (C : ReachedValue → Prop) : Prop where
  initial : ∀ v, IsInitialValue p v → C v
  step : ∀ op ∈ p.operators, ∀ as, Instance.IsAdmissible (Setting.ofTask p.task) op as →
    Instance.IsMatched op as C → IsEffective E op as → ∀ v ∈ Instance.changes op as, C v

/-- A value belongs to every closed set. -/
def Derivable (E : Atoms) (v : ReachedValue) : Prop := ∀ C, IsInstanceClosed p E C → C v

variable {p} {E E' : Atoms}

/-- The derivable values are closed. -/
theorem isInstanceClosed_derivable : IsInstanceClosed p E (Derivable p E) where
  initial v hv _ hC := hC.initial v hv
  step op hop as has hmatched heffective v hv C hC :=
    hC.step op hop as has (hmatched.mono fun _ hw => hw C hC) heffective v hv

/-- More variables let more values be derived. -/
theorem Derivable.mono {v : ReachedValue} (h : Derivable p E v) (hE : ∀ f as, E f as → E' f as) :
    Derivable p E' v := fun C hC =>
  h C ⟨hC.initial, fun op hop as has hmatched heffective =>
    hC.step op hop as has hmatched (heffective.mono hE)⟩

theorem isSorted_of_derivable (hvalid : p.validate = .ok ()) {v : ReachedValue}
    (h : Derivable p E v) : IsSorted p.task v :=
  h _ ⟨fun _ hv => isSorted_of_isInitialValue hvalid hv, fun _ hop _ has _ _ _ hv =>
    isSorted_of_mem_changes (isSoundOperator_of_mem hvalid hop) has hv⟩

variable (p) in
/-- The functions applied to objects that facts are about. -/
def HasFact : Atoms := fun f as => ∃ fact ∈ p.task.init, fact.function = f ∧ fact.arguments = as

/-- The functions applied to objects that have variables. -/
def State.HasAtom (s : State) : Atoms := fun f as => ∃ var, s.Names var f as

/-! ## What is known while instances are looked at -/

variable (p) in
/-- An action has been found for an instance that has been looked at: the instance is useful, and
the action reads what its operator says, so whatever it mentions exists. -/
structure IsFoundFor (T : Instances) (s : State) (goals : Bool) (a : Action)
    (op : Lifted.Operator) : Prop where
  instanceOf : IsInstanceOf p a.operator op a.arguments
  isGoal_eq : op.isGoal = goals
  looked : T a.operator a.arguments
  useful : Instance.IsUseful op a.arguments
  name_eq : a.name = p.task.applied op.name a.arguments
  reads : Naming.ReadsAction s.Names a.arguments op a

theorem IsFoundFor.mono {T T' : Instances} {s s' : State} {goals : Bool} {a : Action}
    {op : Lifted.Operator} (h : IsFoundFor p T s goals a op) (hT : ∀ i as, T i as → T' i as)
    (hle : Naming.Le s.Names s'.Names) : IsFoundFor p T' s' goals a op :=
  { h with looked := hT _ _ h.looked, reads := h.reads.mono hle }

/-- What an action mentions exists. -/
theorem IsFoundFor.isEffective {T : Instances} {s : State} {goals : Bool} {a : Action}
    {op : Lifted.Operator} (h : IsFoundFor p T s goals a op) :
    IsEffective s.HasAtom op a.arguments :=
  ⟨h.useful, h.reads.has⟩

variable (p) in
/-- What is known when the instances in `T` have been looked at and those in `U` are done with. The
values are those of the initial state and the effects of the actions found. Every instance that is
done with has been found if it lacks no fact, and what has been found lacks no variable. -/
structure Explored (T U : Instances) (s : State) : Prop where
  facts : ∀ fact ∈ p.task.init, ∃ var, s.Names var fact.function fact.arguments
  mirrored : s.IsMirrored
  tried : ∀ {i op as}, IsInstanceOf p i op as →
    (s.HasTried (schemaOf p i op) (p.task.applied op.name as) as ↔ T i as)
  values : ∀ v, v ∈ s.values.toList ↔ IsInitialValue p v ∨
    ∃ b, ∃ a ∈ (s.found b).toList, ∃ op, p.operators[a.operator]? = some op ∧
      v ∈ Instance.changes op a.arguments
  found : ∀ b, ∀ a ∈ (s.found b).toList, ∃ op, IsFoundFor p T s b a op
  complete : ∀ {i op as}, IsInstanceOf p i op as → U i as → IsEffective (HasFact p) op as →
    ∃ a ∈ (s.found op.isGoal).toList, a.operator = i ∧ a.arguments = as
  once : ∀ b, ((s.found b).toList.map fun a => (a.operator, a.arguments)).Nodup

namespace Explored

variable {T U : Instances} {s s' s₁ : State} {i : Nat} {op : Lifted.Operator} {as : List ObjectId}
  {a : Action}

theorem mark (h : Explored p T U s) (hnames : HasDistinctNames p) (hi : IsInstanceOf p i op as) :
    Explored p (fun j bs => T j bs ∨ (j = i ∧ bs = as)) U
      (s.markTried (schemaOf p i op) (p.task.applied op.name as) as) := by
  have htried : ∀ {j op' bs}, IsInstanceOf p j op' bs → _ := fun hj =>
    (Tracks.hasTried_markTried (s := s) hnames hi hj).trans (or_congr_left (h.tried hj))
  rw [State.markTried_frame] at htried ⊢
  exact ⟨h.facts, ⟨h.mirrored.mem_iff, h.mirrored.nodup⟩, htried, h.values,
    fun b a ha => (h.found b a ha).imp fun _ hop => hop.mono (fun _ _ => Or.inl) fun _ _ _ => id,
    h.complete, h.once⟩

theorem creates (h : Explored p T U s) (hs : s.Creates s') : Explored p T U s' := by
  have hframe := hs.frame
  have hfound : ∀ b, s'.found b = s.found b := fun b => by
    rw [hframe]
    rfl
  refine ⟨fun fact hfact => (h.facts fact hfact).imp fun _ hv => hv.mono hs,
    (hs.reaches 0).mirrored h.mirrored, fun hi => ?_, fun v => ?_, fun b a ha => ?_,
    fun hi hU heffective => ?_, fun b => ?_⟩
  · rw [← h.tried hi, hframe]
    rfl
  · have hvalues : s'.values = s.values := by rw [hframe]
    simp only [hvalues, hfound, h.values]
  · rw [hfound] at ha
    exact (h.found b a ha).imp fun _ hop => hop.mono (fun _ _ => id) (Naming.le_of_creates hs)
  · rw [hfound]
    exact h.complete hi hU heffective
  · rw [hfound]
    exact h.once b

/-- Nothing but the bounds of the level changes. -/
theorem of_frame (h : Explored p T U s)
    (hs' : s' = { s with level := s'.level, levelStart := s'.levelStart, levelEnd := s'.levelEnd,
                         counted := s'.counted, levels := s'.levels }) : Explored p T U s' := by
  rw [hs']
  exact ⟨h.facts, ⟨h.mirrored.mem_iff, h.mirrored.nodup⟩, h.tried, h.values,
    fun b a ha => (h.found b a ha).imp fun _ hop => hop.mono (fun _ _ => id) fun _ _ _ => id,
    h.complete, h.once⟩

/-- An instance that is not found lacks a fact, if it is not useless. -/
theorem skip (h : Explored p T U s) (hi : IsInstanceOf p i op as)
    (hlacks : ¬IsEffective (HasFact p) op as) :
    Explored p T (fun j bs => U j bs ∨ (j = i ∧ bs = as)) s := by
  refine { h with complete := fun {j op' bs} hj hU heffective => ?_ }
  rcases hU with hU | ⟨rfl, rfl⟩
  · exact h.complete hj hU heffective
  · obtain rfl : op' = op := Option.some.inj (hj.operator.symm.trans hi.operator)
    exact absurd heffective hlacks

/-- An action is found for an instance, and the values of its effects are reached. -/
theorem add (h : Explored p T U s) (hi : IsInstanceOf p i op as) (hT : T i as)
    (huseful : Instance.IsUseful op as)
    (hlabel : a.name = p.task.applied op.name as ∧ a.operator = i)
    (ha : Naming.ReadsAction s.Names as op a) {level : Nat}
    (hreaches : s.Reaches level (Instance.changes op as) s₁)
    (hnew : ∀ b, ∀ a' ∈ (s.found b).toList, ¬(a'.operator = i ∧ a'.arguments = as)) :
    Explored p T (fun j bs => U j bs ∨ (j = i ∧ bs = as)) (s₁.add a) := by
  obtain ⟨hname, rfl⟩ := hlabel
  obtain rfl := ha.arguments_eq
  have hgoal : a.isGoal = op.isGoal := ha.isGoal_eq
  -- what is found is what was found before, and the action
  have hfound : ∀ b a', a' ∈ ((s₁.add a).found b).toList ↔ a' ∈ (s.found b).toList ∨
      (op.isGoal = b ∧ a' = { a with index := (s.found b).size }) := by
    intro b a'
    have hframe : s₁.found b = s.found b := by
      rw [hreaches.frame]
      rfl
    rw [Tracks.found_add, hframe, hgoal]
    split
    next hb => rw [Array.toList_push, List.mem_append, List.mem_singleton, and_iff_right hb]
    next hb => rw [or_iff_left fun h => hb h.1]
  have hle : Naming.Le s.Names (s₁.add a).Names := by
    rw [State.add_frame]
    exact fun _ _ _ hv => hreaches.names hv
  refine ⟨fun fact hfact => (h.facts fact hfact).imp fun _ hv => hle hv, ?_, fun hj => ?_,
    fun v => ?_, fun b a' ha' => ?_, fun {j op' bs} hj hU heffective => ?_, fun b => ?_⟩
  · have hmirrored := hreaches.mirrored h.mirrored
    rw [State.add_frame]
    exact ⟨hmirrored.mem_iff, hmirrored.nodup⟩
  · rw [← h.tried hj, State.add_frame, hreaches.frame]
    rfl
  · have hvalues : (s₁.add a).values = s₁.values := by rw [State.add_frame]
    rw [hvalues, hreaches.mem_values_iff h.mirrored, h.values, or_assoc]
    refine or_congr_right ⟨?_, ?_⟩
    · rintro (⟨b, a', ha', hchange⟩ | hchange)
      · exact ⟨b, a', (hfound b a').mpr (Or.inl ha'), hchange⟩
      · exact ⟨op.isGoal, _, (hfound _ _).mpr (Or.inr ⟨rfl, rfl⟩), op, hi.operator, hchange⟩
    · rintro ⟨b, a', ha', op', hop', hchange⟩
      rcases (hfound b a').mp ha' with ha' | ⟨-, rfl⟩
      · exact Or.inl ⟨b, a', ha', op', hop', hchange⟩
      · obtain rfl : op' = op := Option.some.inj (hop'.symm.trans hi.operator)
        exact Or.inr hchange
  · rcases (hfound b a').mp ha' with ha' | ⟨hb, rfl⟩
    · exact (h.found b a' ha').imp fun _ hop => hop.mono (fun _ _ => id) hle
    · exact ⟨op, hi, hb, hT, huseful, hname, { ha.mono hle with }⟩
  · rcases hU with hU | ⟨rfl, rfl⟩
    · obtain ⟨a', ha', hkey⟩ := h.complete hj hU heffective
      exact ⟨a', (hfound _ _).mpr (Or.inl ha'), hkey⟩
    · obtain rfl : op' = op := Option.some.inj (hj.operator.symm.trans hi.operator)
      exact ⟨_, (hfound _ _).mpr (Or.inr ⟨rfl, rfl⟩), rfl, rfl⟩
  · have hframe : s₁.found b = s.found b := by
      rw [hreaches.frame]
      rfl
    rw [Tracks.found_add, hframe]
    split
    · rw [Array.toList_push, List.map_append, List.nodup_append]
      refine ⟨h.once b, List.pairwise_singleton _ _, fun key hkey key' hkey' heq => ?_⟩
      obtain ⟨a', ha', rfl⟩ := List.mem_map.mp hkey
      rw [List.map_singleton, List.mem_singleton] at hkey'
      rw [hkey', Prod.mk.injEq] at heq
      exact hnew b a' ha' heq
    · exact h.once b

end Explored

variable (p) in
/-- Some instances have been looked at since an earlier state of the level. -/
structure ExploredFrom (s₀ : State) (T : Instances) (s : State) : Prop where
  explored : Explored p T T s
  names : Naming.Le s₀.Names s.Names
  later : s₀.IsLater s

theorem ExploredFrom.refl {T : Instances} {s : State} (h : Explored p T T s) :
    ExploredFrom p s T s :=
  ⟨h, fun _ _ _ => id, State.IsLater.refl s⟩

/-- **Looking at an instance** adds it to the instances that are done with. -/
theorem exploredFrom_looksAtEach (hnames : HasDistinctNames p) (s₀ : State) :
    LooksAtEach p (ExploredFrom p s₀) := by
  intro i op as hi T s h
  refine (groundInstance_cases p.task as (schemaOf p i op) s).mono ?_
  rintro _ s' (⟨htried, rfl⟩ | ⟨hnew, s₁, hcreates, hcontribution⟩)
  · -- the instance has been looked at before
    have hT : T i as := (h.explored.tried hi).mp htried
    have hsame : (fun j bs => T j bs ∨ (j = i ∧ bs = as)) = T := funext fun j => funext fun bs =>
      propext (or_iff_left_of_imp (by rintro ⟨rfl, rfl⟩; exact hT))
    rw [hsame]
    exact h
  have hexplored := (h.explored.mark hnames hi).creates hcreates
  have hmark : Naming.Le s.Names
      (s.markTried (schemaOf p i op) (p.task.applied op.name as) as).Names := by
    rw [State.markTried_frame]
    exact fun _ _ _ => id
  have hle : Naming.Le s₀.Names s₁.Names := fun _ _ _ hv => (hmark (h.names hv)).mono hcreates
  have hlater := (h.later.trans (s.isLater_markTried _ _ _)).trans (hcreates.reaches 0).isLater
  -- it is new: given up, or found
  rcases hcontribution with ⟨hlacks, rfl⟩ | ⟨huseful, a, s₂, hlabel, ha, hreaches, rfl⟩
  · refine ⟨hexplored.skip hi fun heffective => hlacks ⟨heffective.useful, fun l hl => ?_⟩, hle,
      hlater⟩
    obtain ⟨fact, hfact, hf, has⟩ := heffective.defined l hl
    obtain ⟨var, hvar⟩ := h.explored.facts fact hfact
    exact ⟨var, hf ▸ has ▸ hvar⟩
  · refine ⟨hexplored.add hi (Or.inr ⟨rfl, rfl⟩) huseful hlabel ha hreaches fun b a' ha' hkey => ?_,
      ?_, (hlater.trans hreaches.isLater).trans (State.isLater_add _ _)⟩
    · -- an action for it would have been found before
      have hfound : s₁.found b = s.found b := by
        rw [hcreates.frame, State.markTried_frame]
        rfl
      rw [hfound] at ha'
      obtain ⟨op', hop'⟩ := h.explored.found b a' ha'
      obtain ⟨rfl, rfl⟩ := hkey
      exact hnew ((h.explored.tried hi).mpr hop'.looked)
    · rw [State.add_frame]
      exact fun _ _ _ hv => hreaches.names (hle hv)

/-! ## Levels -/

/-- What is found for instances that derivable values match has derivable effects. -/
theorem Explored.derivable {R : ReachedValue → Prop} {U : Instances} {s : State}
    (h : Explored p (matched p R) U s) (hR : ∀ v, R v → Derivable p s.HasAtom v) :
    ∀ v ∈ s.values.toList, Derivable p s.HasAtom v := by
  intro v hv
  rcases (h.values v).mp hv with hv | ⟨b, a, ha, op, hop, hv⟩
  · exact isInstanceClosed_derivable.initial v hv
  obtain ⟨op', hop'⟩ := h.found b a ha
  obtain rfl : op = op' := Option.some.inj (hop.symm.trans hop'.instanceOf.operator)
  obtain ⟨op', hi, hmatched⟩ := hop'.looked
  obtain rfl : op = op' := Option.some.inj (hop.symm.trans hi.operator)
  exact isInstanceClosed_derivable.step op (List.mem_of_getElem? hop) a.arguments hi.admissible
    (hmatched.mono hR) hop'.isEffective v hv

variable (p) in
/-- The state at the beginning of a level. -/
structure AtStage (k : Nat) (s : State) : Prop where
  explored : Explored p (matched p (· ∈ s.values.toList.take s.levelStart))
    (matched p (· ∈ s.values.toList.take s.levelStart)) s
  sound : ∀ v ∈ s.values.toList, Derivable p s.HasAtom v
  start_le : s.levelStart ≤ s.levelEnd
  end_le : s.levelEnd ≤ s.values.size
  /-- All levels but the first consist of all values that are left. -/
  complete : 0 < k → s.levelEnd = s.values.size
  /-- All levels but the first have begun with a new value. -/
  progress : k ≤ s.levelStart + 1

section Level

variable (hvalid : p.validate = .ok ()) (hnames : HasDistinctNames p)
include hvalid hnames

omit hvalid hnames in
theorem AtStage.isPaced {k : Nat} {s : State} (h : AtStage p k s) : IsPaced k s :=
  ⟨h.start_le, h.end_le, h.complete, h.progress⟩

/-- **Running a level** leads to the beginning of the next one. -/
theorem AtStage.runLevel {k : Nat} {s : State} (h : AtStage p k s)
    (hnew : s.levelStart < s.values.size) :
    (Grounding.runLevel (Setting.ofTask p.task)
      (schemasOf (Setting.ofTask p.task) p.operators)).Ensures s fun _ s' =>
        AtStage p (k + 1) s' := by
  set vs := s.values.toList.take s.levelEnd with hvs
  have hold : vs.take s.levelStart = s.values.toList.take s.levelStart := by
    rw [hvs, List.take_take, Nat.min_eq_left h.start_le]
  refine Step.ensures_bind.mpr (Step.ensures_get.mpr (Step.ensures_bind.mpr ?_))
  have hs : ExploredFrom p s (matched p (· ∈ vs.take s.levelStart)) s := by
    rw [hold]
    exact .refl h.explored
  refine (groundTriggered_ensures hvalid (exploredFrom_looksAtEach hnames s) hs).mono
    fun _ s₁ h₁ => Step.ensures_modify.mpr ?_
  have hlater := h₁.later
  have hsound := h₁.explored.derivable fun v hv =>
    (h.sound v (List.mem_of_mem_take hv)).mono fun _ _ hatom => hatom.imp fun _ hvar =>
      h₁.names hvar
  -- the level consists of the values that were there when it began
  have htake : s₁.values.toList.take s₁.levelEnd = vs := by
    rw [hlater.levelEnd, hlater.take_values h.end_le]
  rw [← htake] at h₁
  have hpaced := h.isPaced.next hnew hlater
  exact ⟨h₁.explored.of_frame rfl, hsound, hpaced.start_le, hpaced.end_le, hpaced.complete,
    hpaced.progress⟩

omit hnames in
/-- At most `valueBound` values are ever reached. -/
theorem AtStage.size_values_le {k : Nat} {s : State} (h : AtStage p k s) :
    s.values.size ≤ valueBound p.task := by
  rw [← Array.length_toList]
  exact length_le_valueBound h.explored.mirrored.nodup fun v hv =>
    isSorted_of_derivable hvalid (h.sound v hv)

end Level

/-! ## The first level -/

/-- Before any instance has been looked at, the values of the initial state are known. -/
theorem start_explored : (start p.task).Ensures {} fun _ s =>
    Explored p (fun _ _ => False) (fun _ _ => False) s ∧ s.levelStart = 0 ∧
      s.levelEnd = s.values.size := by
  refine start_ensures.mono ?_
  rintro _ s ⟨htracks, hstart, hend⟩
  have hnone : ∀ b, ∀ a ∈ (s.found b).toList, False := fun b a ha =>
    ((htracks.tracks.found b a.operator a.arguments).mp ⟨a, ha, rfl, rfl⟩).1.1
  refine ⟨⟨htracks.tracks.facts, htracks.tracks.mirrored, htracks.tracks.tried, fun v => ?_,
    fun b a ha => (hnone b a ha).elim, fun _ hU => hU.elim, htracks.tracks.once⟩, hstart, hend⟩
  rw [htracks.tracks.mirrored.mem_iff]
  simp only [htracks.tracks.records]
  constructor
  · rintro ⟨l, ⟨hl, hfirst⟩ | ⟨-, -, i, op, as, -, hcontributing, -⟩⟩
    · obtain rfl : l = 0 := Nat.le_zero.mp hl
      exact Or.inl hfirst.1
    · exact hcontributing.1.elim
  · rintro (hv | ⟨b, a, ha, -⟩)
    · exact ⟨0, Or.inl ⟨Nat.le_refl 0, hv, fun j hj => absurd hj (Nat.not_lt_zero j)⟩⟩
    · exact (hnone b a ha).elim

variable (p) in
/-- At the end, the instances that the values match have been looked at. -/
structure IsExplored (s : State) : Prop where
  explored : Explored p (matched p (· ∈ s.values.toList)) (matched p (· ∈ s.values.toList)) s
  sound : ∀ v ∈ s.values.toList, Derivable p s.HasAtom v

/-- **Exploration** looks at all instances that the values match, and nothing but derivable values
is reached. -/
theorem explore_isExplored (hvalid : p.validate = .ok ()) (hnames : HasDistinctNames p) :
    (explore p).Ensures {} fun _ s => IsExplored p s := by
  refine Step.ensures_bind.mpr (start_explored.mono ?_)
  rintro _ s₀ ⟨hexplored, hstart, hend⟩
  refine Step.ensures_bind.mpr ((groundUnconditional_ensures
    (exploredFrom_looksAtEach hnames s₀) (.refl hexplored)).mono fun _ s hs => ?_)
  have hlater := hs.later
  have hstart' : s.levelStart = 0 := hlater.levelStart.trans hstart
  have hpaced : IsPaced 0 s := by
    refine isPaced_zero hstart' ?_
    rw [hlater.levelEnd, hend]
    exact hlater.size_le
  have hstage : AtStage p 0 s := by
    refine ⟨?_, hs.explored.derivable fun v hv => hv.elim, hpaced.start_le, hpaced.end_le,
      hpaced.complete, hpaced.progress⟩
    have hnone : (· ∈ s.values.toList.take s.levelStart) = fun _ : ReachedValue => False := by
      rw [hstart', List.take_zero]
      exact funext fun v => eq_false List.not_mem_nil
    rw [hnone]
    exact hs.explored
  refine (runLevels_ensures AtStage.isPaced (AtStage.size_values_le hvalid)
    (AtStage.runLevel hvalid hnames) hstage (Nat.zero_add _)).mono ?_
  rintro _ s' ⟨k, h, hdone⟩
  have hall : s'.values.toList.take s'.levelStart = s'.values.toList :=
    List.take_of_length_le (by rwa [Array.length_toList])
  have hexplored' := h.explored
  rw [hall] at hexplored'
  exact ⟨hexplored', h.sound⟩

/-! ## What has been found in the end -/

namespace IsExplored

variable {s : State} (h : IsExplored p s)
include h

/-- What is derivable from the variables of the facts has been reached. -/
theorem mem_values {v : ReachedValue} (hv : Derivable p (HasFact p) v) : v ∈ s.values.toList := by
  refine hv (· ∈ s.values.toList) ⟨fun v hv => (h.explored.values v).mpr (Or.inl hv), ?_⟩
  intro op hop as has hmatched heffective v hv
  obtain ⟨i, hi⟩ := List.mem_iff_getElem?.mp hop
  obtain ⟨a, ha, rfl, rfl⟩ :=
    h.explored.complete ⟨hi, has⟩ ⟨op, ⟨hi, has⟩, hmatched⟩ heffective
  exact (h.explored.values v).mpr (Or.inr ⟨_, a, ha, op, hi, hv⟩)

/-- **An instance that the derivable values enable has been found** if there are facts about
whatever its numeric parts mention. -/
theorem exists_found {i : Nat} {op : Lifted.Operator} {as : List ObjectId}
    (hi : IsInstanceOf p i op as) (hmatched : Instance.IsMatched op as (Derivable p (HasFact p)))
    (heffective : IsEffective (HasFact p) op as) :
    ∃ a ∈ (s.found op.isGoal).toList, a.operator = i ∧ a.arguments = as :=
  h.explored.complete hi ⟨op, hi, hmatched.mono fun _ hv => h.mem_values hv⟩ heffective

/-- What has been found is an instance that the values match. -/
theorem exists_matched {b : Bool} {a : Action} (ha : a ∈ (s.found b).toList) :
    ∃ op, IsFoundFor p (matched p (· ∈ s.values.toList)) s b a op ∧
      Instance.IsMatched op a.arguments (· ∈ s.values.toList) := by
  obtain ⟨op, hop⟩ := h.explored.found b a ha
  obtain ⟨op', hi, hmatched⟩ := hop.looked
  obtain rfl : op' = op := Option.some.inj (hi.operator.symm.trans hop.instanceOf.operator)
  exact ⟨op', hop, hmatched⟩

end IsExplored

end TemporalPlanning.Grounding
