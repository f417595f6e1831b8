import TemporalPlanning.Proofs.Grounding.Contents
/-!
What looking at an instance does to the state.

An instance that has been looked at before changes nothing. Otherwise it is marked, and if its
identities hold and its effects do not contradict each other, the values of its effects are reached
at the next level, as far as they are new, and it is added to the actions.
-/
set_option autoImplicit false

namespace TemporalPlanning.Grounding

open Grounded

/-! ## Recorded levels -/

theorem mem_setLevel {o : ObjectId} {level : Nat} {entries : List (ObjectId × Nat)}
    (h : ∀ e ∈ entries, e.1 ≠ o) (x : ObjectId × Nat) :
    x ∈ setLevel o level entries ↔ x = (o, level) ∨ x ∈ entries := by
  induction entries with
  | nil => simp [setLevel]
  | cons e entries ih =>
    obtain ⟨he, hentries⟩ := List.forall_mem_cons.mp h
    rw [setLevel]
    split
    · exact List.mem_cons
    · rw [if_neg he.symm, List.mem_cons, ih hentries, List.mem_cons, or_left_comm]

theorem isReached_eq_false {v : Variable} {o : ObjectId} :
    v.isReached o = false ↔ ∀ e ∈ v.reached, e.1 ≠ o := by
  rw [Variable.isReached, List.any_eq_false]
  exact forall₂_congr fun e _ => by rw [beq_iff_eq]

namespace State

/-- The list of values agrees with what is recorded at the variables. -/
structure IsMirrored (s : State) : Prop where
  mem_iff : ∀ v, v ∈ s.values.toList ↔ ∃ l, s.Records v l
  nodup : s.values.toList.Nodup

/-- Values have been reached at a level, as far as they were new, and nothing else has happened but
that variables and preference names may have been created. -/
structure Reaches (s : State) (level : Nat) (vs : List ReachedValue) (s' : State) : Prop where
  names : ∀ {var f as}, s.Names var f as → s'.Names var f as
  records : ∀ v l, s'.Records v l ↔
    s.Records v l ∨ (l = level ∧ v ∈ vs ∧ ∀ l', ¬s.Records v l')
  mirrored : s.IsMirrored → s'.IsMirrored
  values : s.values.toList <+: s'.values.toList
  frame : s' =
    { s with vars := s'.vars, preferenceNames := s'.preferenceNames, values := s'.values }

variable {s s' s'' : State} {level : Nat} {vs ws : List ReachedValue}

theorem Creates.reaches (h : s.Creates s') (level : Nat) : s.Reaches level [] s' := by
  have hvalues : s'.values = s.values := by rw [h.frame]
  refine ⟨fun hv => hv.mono h, fun v l => ?_, fun hs => ⟨fun v => ?_, ?_⟩, ?_, ?_⟩
  · rw [h.records_iff]
    simp
  · rw [hvalues, hs.mem_iff]
    exact exists_congr fun l => (h.records_iff v l).symm
  · rw [hvalues]
    exact hs.nodup
  · exact hvalues ▸ List.prefix_rfl
  · rw [hvalues]
    exact h.frame

theorem Reaches.refl (s : State) (level : Nat) : s.Reaches level [] s :=
  (Creates.refl s).reaches level

theorem Reaches.trans (h : s.Reaches level vs s') (h' : s'.Reaches level ws s'') :
    s.Reaches level (vs ++ ws) s'' := by
  refine ⟨fun hv => h'.names (h.names hv), fun v l => ?_, fun hs => h'.mirrored (h.mirrored hs),
    h.values.trans h'.values, ?_⟩
  · rw [h'.records, h.records]
    constructor
    · rintro ((hv | ⟨rfl, hv, hnew⟩) | ⟨rfl, hv, hnew⟩)
      · exact Or.inl hv
      · exact Or.inr ⟨rfl, List.mem_append_left _ hv, hnew⟩
      · exact Or.inr ⟨rfl, List.mem_append_right _ hv, fun l' hl' =>
          hnew l' ((h.records v l').mpr (Or.inl hl'))⟩
    · rintro (hv | ⟨rfl, hv, hnew⟩)
      · exact Or.inl (Or.inl hv)
      · -- a value of both lists is new to the first one only
        by_cases hvs : v ∈ vs
        · exact Or.inl (Or.inr ⟨rfl, hvs, hnew⟩)
        · have hws := (List.mem_append.mp hv).resolve_left hvs
          refine Or.inr ⟨rfl, hws, fun l' hl' => ?_⟩
          rcases (h.records v l').mp hl' with hl' | ⟨-, hmem, -⟩
          · exact hnew l' hl'
          · exact hvs hmem
  · rw [h'.frame, h.frame]

theorem Reaches.congr (h : s.Reaches level vs s') (hmem : ∀ v, v ∈ vs ↔ v ∈ ws) :
    s.Reaches level ws s' :=
  ⟨h.names, fun v l => by rw [h.records, hmem], h.mirrored, h.values, h.frame⟩

theorem Reaches.reads (h : s.Reaches level vs s') {c : Condition} {v : ReachedValue}
    (hreads : s.Reads c v) : s'.Reads c v :=
  ⟨h.names hreads.1, hreads.2⟩

/-- The values are those that were there and those that have been reached. -/
theorem Reaches.mem_values_iff (h : s.Reaches level vs s') (hs : s.IsMirrored) (v : ReachedValue) :
    v ∈ s'.values.toList ↔ v ∈ s.values.toList ∨ v ∈ vs := by
  rw [(h.mirrored hs).mem_iff, hs.mem_iff]
  simp only [h.records]
  constructor
  · rintro ⟨l, hl | ⟨-, hv, -⟩⟩
    · exact Or.inl ⟨l, hl⟩
    · exact Or.inr hv
  · intro hv
    by_cases hold : ∃ l, s.Records v l
    · exact hold.imp fun _ => Or.inl
    · exact ⟨level, Or.inr ⟨rfl, hv.resolve_left hold, fun l hl => hold ⟨l, hl⟩⟩⟩

/-- A value that a condition asks for is recorded if and only if it is reached at its variable. -/
theorem Reads.exists_records_iff {c : Condition} {v : ReachedValue} (hreads : s.Reads c v)
    {entry : Variable} (hentry : s.vars.get? c.var.index = some entry) :
    (∃ l, s.Records v l) ↔ entry.isReached c.value = true := by
  obtain ⟨⟨entry', hentry', hf, has⟩, hvalue⟩ := hreads
  rw [hentry] at hentry'
  cases hentry'
  rw [Variable.isReached, List.any_eq_true]
  constructor
  · rintro ⟨l, i, w, hw, hwf, hwas, hmem⟩
    have hi := s.vars.position_unique hw hentry (by
      rw [variableKey, variableKey, hwf, hwas, hf, has])
    subst hi
    rw [hentry] at hw
    cases hw
    exact ⟨_, hmem, beq_iff_eq.mpr hvalue.symm⟩
  · rintro ⟨⟨o, l⟩, hmem, ho⟩
    refine ⟨l, c.var.index, entry, hentry, hf, has, ?_⟩
    rw [← hvalue, ← beq_iff_eq.mp ho]
    exact hmem

end State

section Recording

/-! An entry of the table records a further value. -/

variable {s s' : State} {c : Condition} {entry : Variable} {level : Nat}
  (hentry : s.vars.get? c.var.index = some entry)
  (htable : ∀ i, s'.vars.get? i = if c.var.index = i then
    some { entry with reached := setLevel c.value level entry.reached } else s.vars.get? i)
include hentry htable

theorem names_of_recording {var : VarId} {f : FunctionId} {as : List ObjectId}
    (h : s.Names var f as) : s'.Names var f as := by
  obtain ⟨x, hx, hf, has⟩ := h
  by_cases hi : c.var.index = var.index
  · rw [← hi, hentry] at hx
    cases hx
    exact ⟨_, (htable _).trans (if_pos hi), hf, has⟩
  · exact ⟨x, (htable _).trans ((if_neg hi).trans hx), hf, has⟩

theorem records_of_recording (hnew : entry.isReached c.value = false) {v : ReachedValue}
    (hreads : s.Reads c v) (w : ReachedValue) (l : Nat) :
    s'.Records w l ↔ s.Records w l ∨ (l = level ∧ w = v) := by
  obtain ⟨⟨entry', hentry', hf, has⟩, hvalue⟩ := hreads
  rw [hentry] at hentry'
  cases hentry'
  have hset : ∀ x, x ∈ setLevel c.value level entry.reached ↔
      x = (c.value, level) ∨ x ∈ entry.reached :=
    mem_setLevel (isReached_eq_false.mp hnew)
  constructor
  · -- at the variable of `v`, what is recorded is new or old; elsewhere it is old
    rintro ⟨i, x, hx, hxf, hxas, hmem⟩
    rw [htable] at hx
    split at hx
    · cases hx
      rcases (hset _).mp hmem with hmem | hmem
      · obtain ⟨hwvalue, rfl⟩ := Prod.mk.injEq .. ▸ hmem
        exact Or.inr ⟨rfl, ReachedValue.ext (hxf.symm.trans hf) (hxas.symm.trans has)
          (hwvalue.trans hvalue)⟩
      · exact Or.inl ⟨_, entry, hentry, hxf, hxas, hmem⟩
    · exact Or.inl ⟨i, x, hx, hxf, hxas, hmem⟩
  · rintro (⟨i, x, hx, hxf, hxas, hmem⟩ | ⟨rfl, rfl⟩)
    · by_cases hi : c.var.index = i
      · subst hi
        rw [hentry] at hx
        cases hx
        exact ⟨_, _, (htable _).trans (if_pos rfl), hxf, hxas, (hset _).mpr (Or.inr hmem)⟩
      · exact ⟨i, x, (htable i).trans ((if_neg hi).trans hx), hxf, hxas, hmem⟩
    · refine ⟨_, _, (htable _).trans (if_pos rfl), hf, has, ?_⟩
      rw [← hvalue]
      exact (hset _).mpr (Or.inl rfl)

end Recording

/-- **Reaching** the value that a condition asks for. -/
theorem reach_reaches {s : State} {c : Condition} {v : ReachedValue} (level : Nat)
    (hreads : s.Reads c v) : (reach level c).Ensures s fun _ s' => s.Reaches level [v] s' := by
  obtain ⟨entry, hentry, hf, has⟩ := hreads.1
  have hrecorded := hreads.exists_records_iff hentry
  refine (reach_ensures level c s).mono ?_
  rintro _ s' (⟨rfl, hreached⟩ | ⟨entry', hentry', hnew, htable, hframe⟩)
  · -- nothing is new
    refine ⟨id, fun w l => ⟨Or.inl, ?_⟩, id, List.prefix_rfl, rfl⟩
    rintro (hw | ⟨-, hw, hnone⟩)
    · exact hw
    · rw [List.mem_singleton.mp hw] at hnone
      obtain ⟨l', hl'⟩ := hrecorded.mpr (hreached entry hentry)
      exact absurd hl' (hnone l')
  · -- the value is recorded at its variable and appended to the list
    rw [hentry] at hentry'
    cases hentry'
    have hnone : ∀ l, ¬s.Records v l := fun l hl => by
      rw [hrecorded.mp ⟨l, hl⟩] at hnew
      cases hnew
    have hvalues : s'.values.toList = s.values.toList ++ [v] := by
      rw [hframe, hf, has, hreads.2, Array.toList_push]
    have hrecords := records_of_recording hentry htable hnew hreads
    refine ⟨names_of_recording hentry htable, fun w l => ?_, fun hs => ⟨fun w => ?_, ?_⟩, ?_, ?_⟩
    · rw [hrecords, List.mem_singleton]
      constructor
      · rintro (h | ⟨hl, rfl⟩)
        · exact Or.inl h
        · exact Or.inr ⟨hl, rfl, hnone⟩
      · rintro (h | ⟨hl, hw, -⟩)
        · exact Or.inl h
        · exact Or.inr ⟨hl, hw⟩
    · rw [hvalues, List.mem_append, hs.mem_iff, List.mem_singleton]
      simp only [hrecords, exists_or, exists_eq_left]
    · rw [hvalues, List.nodup_append]
      refine ⟨hs.nodup, List.pairwise_singleton _ v, fun w hw w' hw' hww' => ?_⟩
      rw [hww', List.mem_singleton.mp hw'] at hw
      obtain ⟨l, hl⟩ := (hs.mem_iff v).mp hw
      exact hnone l hl
    · rw [hvalues]
      exact List.prefix_append _ _
    · rw [hframe]

/-- Each effect of a list asks for some value. -/
theorem State.Represents.exists_forall₂ {s : State} {es : List Condition} {vs : List ReachedValue}
    (h : s.Represents es vs) : ∃ ws, List.Forall₂ s.Reads es ws ∧ ∀ v, v ∈ ws ↔ v ∈ vs := by
  have hsome : ∀ {es : List Condition}, (∀ e ∈ es, ∃ v, s.Reads e v) →
      ∃ ws, List.Forall₂ s.Reads es ws := by
    intro es hes
    induction es with
    | nil => exact ⟨[], List.Forall₂.nil⟩
    | cons e es ih =>
      obtain ⟨⟨v, hv⟩, hes⟩ := List.forall_mem_cons.mp hes
      obtain ⟨ws, hws⟩ := ih hes
      exact ⟨v :: ws, List.Forall₂.cons hv hws⟩
  obtain ⟨ws, hws⟩ := hsome fun e he => (h.sound e he).imp fun _ hv => hv.2
  have hwsRep := represents_of_forall₂ hws
  refine ⟨ws, hws, fun v => ⟨fun hv => ?_, fun hv => ?_⟩⟩
  · obtain ⟨e, he, hreads⟩ := hwsRep.complete v hv
    exact (h.mem_iff hreads).mp he
  · obtain ⟨e, he, hreads⟩ := h.complete v hv
    exact (hwsRep.mem_iff hreads).mp he

/-- Reaching the values that a list of effects asks for. -/
theorem forM_reach_reaches {s : State} {es : List Condition} {vs : List ReachedValue} (level : Nat)
    (h : s.Represents es vs) :
    Step.Ensures (es.forM (reach level)) s fun _ s' => s.Reaches level vs s' := by
  obtain ⟨ws, hws, hmem⟩ := h.exists_forall₂
  -- effect by effect, with a value for each
  suffices hlist : Step.Ensures (es.forM (reach level)) s fun _ s' => s.Reaches level ws s' from
    hlist.mono fun _ _ hs' => hs'.congr hmem
  clear h hmem
  induction es generalizing s ws with
  | nil =>
    cases hws
    exact Step.ensures_pure.mpr (State.Reaches.refl s level)
  | cons e es ih =>
    cases hws with
    | cons hreads hws =>
      refine Step.ensures_bind.mpr ((reach_reaches level hreads).mono fun _ s' hs' => ?_)
      exact (ih _ (hws.imp fun _ _ => hs'.reads)).mono fun _ s'' hs'' => hs'.trans hs''

/-! ## Instances -/

/-- The state in which an action has been added. -/
def State.add (s : State) (a : Action) : State :=
  if a.isGoal then { s with goals := s.goals.push { a with index := s.goals.size } }
  else { s with actions := s.actions.push { a with index := s.actions.size } }

/-- Nothing but the actions and goals changes. -/
theorem State.add_frame (s : State) (a : Action) :
    s.add a = { s with actions := (s.add a).actions, goals := (s.add a).goals } := by
  unfold State.add
  split <;> rfl

/-- Nothing but the instances looked at changes. -/
theorem State.markTried_frame (s : State) (schema : Schema) (name : String) (as : List ObjectId) :
    s.markTried schema name as = { s with
      triedActions := (s.markTried schema name as).triedActions
      triedGoals := (s.markTried schema name as).triedGoals } := by
  unfold State.markTried
  split <;> rfl

/-- **Everything that looking at an instance can do.** An instance that has been looked at before
changes nothing. Otherwise it is marked, and it becomes an action if it is useful and its numeric
parts mention only variables that exist; it may become one as well if what they mention is created
on the way. -/
theorem groundInstance_cases (task : Lifted.Task) (arguments : List ObjectId) (schema : Schema)
    (s : State) : (groundInstance task arguments schema).Ensures s fun _ s' =>
      let name := task.applied schema.operator.name arguments
      (s.HasTried schema name arguments ∧ s' = s) ∨
        (¬s.HasTried schema name arguments ∧ ∃ s₁, (s.markTried schema name arguments).Creates s₁ ∧
          ((¬(Instance.IsUseful schema.operator arguments ∧
              ∀ l ∈ numericLiterals schema.operator, s.HasVariable arguments l) ∧ s' = s₁) ∨
            (Instance.IsUseful schema.operator arguments ∧ ∃ a s₂,
              (a.name = name ∧ a.operator = schema.index) ∧
              Naming.ReadsAction s₁.Names arguments schema.operator a ∧
              s₁.Reaches (s₁.level + 1) (Instance.changes schema.operator arguments) s₂ ∧
              s' = s₂.add a))) := by
  set name := task.applied schema.operator.name arguments with hname
  -- marking the instance keeps the variables
  have hmarked : ∀ l, s.HasVariable arguments l →
      (s.markTried schema name arguments).HasVariable arguments l := by
    rintro l ⟨var, x, hx, hvar⟩
    refine ⟨var, x, ?_, hvar⟩
    rw [State.markTried_frame]
    exact hx
  refine Step.ensures_bind.mpr ((claim_ensures schema _ arguments s).mono ?_)
  rintro fresh s₀ (⟨rfl, htried, rfl⟩ | ⟨rfl, hnew, rfl⟩)
  · exact Step.ensures_pure.mpr (Or.inl ⟨htried, rfl⟩)
  rw [if_pos rfl]
  refine Step.ensures_bind.mpr (Step.ensures_lift.mpr fun holds hholds => ?_)
  have hidentities := identitiesHold_eq_ok hholds
  cases holds with
  | false =>
    refine Step.ensures_pure.mpr (Or.inr ⟨hnew, _, State.Creates.refl _, Or.inl ⟨?_, rfl⟩⟩)
    exact fun h => absurd (hidentities.mpr h.1.1) (by decide)
  | true =>
    rw [if_pos rfl]
    refine Step.ensures_bind.mpr fun a? s₁ hrun => ?_
    obtain ⟨hcreates, hreads⟩ := groundOperator_reads task arguments schema name _ a? s₁ hrun
    cases a? with
    | none =>
      -- had all variables been there, only a contradiction could have led to this
      refine Step.ensures_pure.mpr (Or.inr ⟨hnew, s₁, hcreates, Or.inl ⟨fun h => ?_, rfl⟩⟩)
      have hnone := groundOperator_ensures task (fun l hl => hmarked l (h.2 l hl)) none s₁ hrun
      exact h.1.2 hnone.2
    | some a =>
      obtain ⟨hlabel, hkept, ha⟩ := hreads a rfl
      refine Step.ensures_bind.mpr (Step.ensures_get.mpr ?_)
      refine Step.ensures_bind.mpr ((forM_reach_reaches _ ha.represents).mono fun _ s₂ h₂ => ?_)
      exact Step.ensures_modify.mpr (Or.inr ⟨hnew, s₁, hcreates,
        Or.inr ⟨⟨hidentities.mp rfl, hkept⟩, a, s₂, hlabel, ha, h₂, rfl⟩⟩)

/-- An action that reads what an operator says is an instance of it. -/
theorem Naming.ReadsAction.isInstance {arguments : List ObjectId} {schema : Schema} {name : String}
    {s : State} {a : Action} (h : ReadsAction s.Names arguments schema.operator a)
    (hlabel : a.name = name ∧ a.operator = schema.index) :
    IsInstance arguments schema name s a where
  name_eq := hlabel.1
  operator_eq := hlabel.2
  arguments_eq := h.arguments_eq
  isGoal_eq := h.isGoal_eq
  startConditions := h.atStart.conditions
  invariants := h.invariants
  endConditions := h.atEnd.conditions
  startEffects := h.atStart.represents
  endEffects := h.atEnd.represents
  startNumericConditions := h.atStart.numericConditions.length_eq.symm
  numericInvariants := h.numericInvariants.length_eq.symm
  endNumericConditions := h.atEnd.numericConditions.length_eq.symm

/-- If the variables that the numeric parts of the operator mention exist, an instance that is
looked at for the first time becomes an action unless it is useless. -/
theorem groundInstance_ensures (task : Lifted.Task) (arguments : List ObjectId) (schema : Schema)
    {s : State} (hnumeric : ∀ l ∈ numericLiterals schema.operator, s.HasVariable arguments l) :
    (groundInstance task arguments schema).Ensures s fun _ s' =>
      let name := task.applied schema.operator.name arguments
      (s.HasTried schema name arguments ∧ s' = s) ∨
        (¬s.HasTried schema name arguments ∧ ∃ s₁, (s.markTried schema name arguments).Creates s₁ ∧
          ((¬Instance.IsUseful schema.operator arguments ∧ s' = s₁) ∨
            (Instance.IsUseful schema.operator arguments ∧ ∃ a s₂,
              IsInstance arguments schema name s₁ a ∧
              s₁.Reaches (s₁.level + 1) (Instance.changes schema.operator arguments) s₂ ∧
              s' = s₂.add a))) := by
  refine (groundInstance_cases task arguments schema s).mono fun _ s' => Or.imp_right ?_
  rintro ⟨hnew, s₁, hcreates, ⟨huseless, hs'⟩ | ⟨huseful, a, s₂, hlabel, ha, hreaches, hs'⟩⟩
  · exact ⟨hnew, s₁, hcreates, Or.inl ⟨fun huseful => huseless ⟨huseful, hnumeric⟩, hs'⟩⟩
  · exact ⟨hnew, s₁, hcreates, Or.inr ⟨huseful, a, s₂, ha.isInstance hlabel, hreaches, hs'⟩⟩

end TemporalPlanning.Grounding
