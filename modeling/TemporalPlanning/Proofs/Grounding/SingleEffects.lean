import Mathlib.Data.List.Induction
import TemporalPlanning.Proofs.Grounding.Reordering
/-!
Which variables an action writes twice.

The literal effects of a time point are compared with each other: an effect that is repeated counts
once, and an instance whose effects contradict each other is given up. Numeric effects that assign a
term become literal effects, too, but they are appended without being compared with anything. So the
literal effects of an action write a variable twice if two such assignments collide, or if one of
them collides with a literal effect, whether the values differ or not.
-/
set_option autoImplicit false

namespace TemporalPlanning.Grounding

open Grounded

/-! ## Effects that are left -/

/-- A value is one of a function applied to objects that has a variable. -/
def HasAtom (t : Task) (v : ReachedValue) : Prop := atomsOf t v.function v.arguments

instance (t : Task) (v : ReachedValue) : Decidable (HasAtom t v) :=
  inferInstanceAs (Decidable (∃ entry ∈ t.vars.toList, _))

/-- The effects of one time point write what an operator says, as far as it has a variable. -/
def Writes (t : Task) (arguments : List ObjectId) (h : Lifted.Happening)
    (effects : List Condition) : Prop :=
  List.Forall₂ (namingOf t).Reads effects ((effectsOf arguments h).filter fun v => HasAtom t v)

/-- An action writes what its operator says, and its operator has not been given up. -/
structure WritesFor (p : Lifted.Problem) (t : Task) (a : Action) (op : Lifted.Operator) : Prop where
  operator : p.operators[a.operator]? = some op
  useful : Instance.IsUseful op a.arguments
  atStart : Writes t a.arguments op.atStart a.startEffects
  atEnd : Writes t a.arguments op.atEnd a.endEffects

/-- All actions and goals of a task write what their operators say. -/
structure IsFaithful (p : Lifted.Problem) (t : Task) : Prop where
  unique : ∀ ⦃v w f as⦄, namingOf t v f as → namingOf t w f as → v = w
  writes : ∀ a ∈ t.actions ++ t.goals, ∃ op, WritesFor p t a op

section Writes

variable {p : Lifted.Problem} {t t' : Task} {arguments : List ObjectId} {h : Lifted.Happening}
  {es es' : List Condition}

theorem hasAtom_iff {v : ReachedValue} :
    HasAtom t v ↔ ∃ var, namingOf t var v.function v.arguments :=
  atomsOf_iff

theorem WritesFor.of_eq {a b : Action} {op : Lifted.Operator} (ha : WritesFor p t a op)
    (hnaming : namingOf t' = namingOf t) (hoperator : b.operator = a.operator)
    (harguments : b.arguments = a.arguments) (hstart : b.startEffects = a.startEffects)
    (hend : b.endEffects = a.endEffects) : WritesFor p t' b op := by
  have hatom : ∀ v, HasAtom t' v ↔ HasAtom t v := fun v => by
    rw [hasAtom_iff, hasAtom_iff, hnaming]
  have hwrites : ∀ {h es}, Writes t a.arguments h es → Writes t' b.arguments h es := by
    intro h es hes
    rw [Writes, hnaming, harguments]
    simpa only [Writes, hatom] using hes
  refine ⟨hoperator ▸ ha.operator, harguments ▸ ha.useful, ?_, ?_⟩
  · rw [hstart]
    exact hwrites ha.atStart
  · rw [hend]
    exact hwrites ha.atEnd

end Writes

/-! ## Exploration -/

section Exploration

variable {p : Lifted.Problem}

variable (p) in
/-- What has been found reads what its operator says. -/
def State.IsRead (s : State) : Prop :=
  ∀ b, ∀ a ∈ (s.found b).toList, ∃ op, p.operators[a.operator]? = some op ∧
    Instance.IsUseful op a.arguments ∧ Naming.ReadsAction s.Names a.arguments op a

theorem State.IsRead.of_le {s s' : State} (hs : s.IsRead p) (hnames : Naming.Le s.Names s'.Names)
    (hactions : s'.actions = s.actions) (hgoals : s'.goals = s.goals) : s'.IsRead p := by
  intro b a ha
  have hfound : s'.found b = s.found b := by rw [State.found, State.found, hactions, hgoals]
  rw [hfound] at ha
  obtain ⟨op, hop, huseful, hreads⟩ := hs b a ha
  exact ⟨op, hop, huseful, hreads.mono hnames⟩

theorem isRead_of_creates {s s' : State} (h : s.Creates s') (hs : s.IsRead p) : s'.IsRead p := by
  have hframe := h.frame
  exact hs.of_le (Naming.le_of_creates h) (by rw [hframe]) (by rw [hframe])

theorem reach_keepsRead (level : Nat) (c : Condition) :
    (reach level c).Keeps (State.IsRead p) := by
  intro s hs
  refine (reach_ensures level c s).mono ?_
  rintro _ s' (⟨rfl, -⟩ | ⟨v, hv, -, htable, hframe⟩)
  · exact hs
  · exact hs.of_le (fun _ _ _ h => names_of_recording hv htable h) (by rw [hframe]) (by rw [hframe])

theorem groundInstance_keepsRead {schema : Schema}
    (hschema : schema ∈ schemasOf (Setting.ofTask p.task) p.operators)
    (arguments : List ObjectId) :
    (groundInstance p.task arguments schema).Keeps (State.IsRead p) := by
  obtain ⟨i, op, hop, rfl⟩ := mem_schemasOf.mp hschema
  intro s hs
  refine (groundInstance_cases p.task arguments _ s).mono ?_
  rintro _ s' (⟨-, rfl⟩ | ⟨-, s₁, hcreates, hrest⟩)
  · exact hs
  have hmarked : (s.markTried (schemaOf p i op) (p.task.applied op.name arguments)
      arguments).IsRead p := by
    rw [State.markTried_frame]
    exact hs.of_le (fun _ _ _ h => h) rfl rfl
  have hs₁ := isRead_of_creates hcreates hmarked
  rcases hrest with ⟨-, rfl⟩ | ⟨huseful, a, s₂, ⟨-, hoperator⟩, ha, hreaches, rfl⟩
  · exact hs₁
  have hs₂ : s₂.IsRead p := by
    have hframe := hreaches.frame
    exact hs₁.of_le (fun _ _ _ h => hreaches.names h) (by rw [hframe]) (by rw [hframe])
  have hnames : (s₂.add a).Names = s₂.Names := by
    rw [State.add_frame]
    rfl
  obtain rfl := ha.arguments_eq
  -- what is found is the action, or has been found before
  intro b a' ha'
  rw [Tracks.found_add] at ha'
  have hold : a' ∈ (s₂.found b).toList → ∃ op, p.operators[a'.operator]? = some op ∧
      Instance.IsUseful op a'.arguments ∧
        Naming.ReadsAction (s₂.add a).Names a'.arguments op a' := by
    rw [hnames]
    exact hs₂ b a'
  split at ha'
  · rw [Array.toList_push, List.mem_append, List.mem_singleton] at ha'
    rcases ha' with ha' | rfl
    · exact hold ha'
    · refine ⟨op, hoperator ▸ hop, huseful, ?_⟩
      rw [hnames]
      exact { ha.mono (fun _ _ _ h => hreaches.names h) with }
  · exact hold ha'

theorem explore_keepsRead (p : Lifted.Problem) : (explore p).Keeps (State.IsRead p) :=
  IsInvariant.explore
    { creates := fun hcreates hs => isRead_of_creates hcreates.toCreates hs
      reaches := reach_keepsRead
      moves := fun _ _ _ _ _ hs => hs.of_le (fun _ _ _ h => h) rfl rfl
      looks := fun _ hschema arguments => groundInstance_keepsRead hschema arguments }

end Exploration

/-! ## Grounded tasks -/

section Tasks

variable {p : Lifted.Problem}

/-- An effect that is on a variable says so. -/
theorem filter_hasAtom_of_reads {t : Task} {es : List Condition} {vs : List ReachedValue}
    (h : List.Forall₂ (namingOf t).Reads es vs) : (vs.filter fun v => HasAtom t v) = vs := by
  refine List.filter_eq_self.mpr fun v hv => decide_eq_true ?_
  obtain ⟨e, -, he⟩ := exists_of_forall₂ h hv
  exact hasAtom_iff.mpr ⟨e.var, he.1⟩

theorem saturate_isFaithful (p : Lifted.Problem) :
    (saturate p).Ensures {} fun t _ => IsFaithful p t := by
  have hempty : State.IsRead p {} := fun b a ha => by cases b <;> cases ha
  refine saturate_ensures ((explore_keepsRead p {} hempty).mono ?_)
  intro _ s hs s' t ht
  have hnaming : namingOf t = s'.Names := namingOf_eq_names ht.vars_eq
  have hle : Naming.Le s.Names (namingOf t) :=
    hnaming ▸ Naming.le_of_creates ht.creates.toCreates
  have hwrites : ∀ b, ∀ as, List.Forall₂ SameButPreferences (s.found b).toList as →
      ∀ a ∈ as, ∃ op, WritesFor p t a op := by
    intro b as has a ha
    obtain ⟨a₀, ha₀, hsame⟩ := exists_of_forall₂ has ha
    obtain ⟨op, hop, huseful, hreads⟩ := hs b a₀ ha₀
    have hreads' := hreads.mono hle
    rw [hsame]
    refine ⟨op, hop, huseful, ?_, ?_⟩
    · rw [Writes, filter_hasAtom_of_reads hreads'.atStart.effects]
      exact hreads'.atStart.effects
    · rw [Writes, filter_hasAtom_of_reads hreads'.atEnd.effects]
      exact hreads'.atEnd.effects
  refine ⟨fun v w f as hv hw => ?_, fun a ha => ?_⟩
  · rw [hnaming] at hv hw
    exact hv.unique hw
  · rcases List.mem_append.mp ha with ha | ha
    · exact hwrites false _ ht.actions a ha
    · exact hwrites true _ ht.goals a ha

section Pass

variable {t t' : Task}

/-- Whatever has a variable after a renumbering has had one before, which has been renumbered. -/
theorem IsRenumbering.namingOf_iff {rename : VarId → Option VarId} (h : IsRenumbering t t' rename)
    {v' : VarId} {f : FunctionId} {as : List ObjectId} :
    namingOf t' v' f as ↔ ∃ v, rename v = some v' ∧ namingOf t v f as := by
  constructor
  · rintro ⟨entry', hentry', hkey⟩
    obtain ⟨v, entry, hv, hentry, rfl⟩ := h.exists_entry hentry'
    exact ⟨v, hv, entry, hentry, hkey⟩
  · rintro ⟨v, hv, entry, hentry, hkey⟩
    obtain ⟨entry', hentry', hnew⟩ := h.entry v v' hv
    obtain rfl : entry = entry' := Option.some.inj (hentry.symm.trans hentry')
    exact ⟨_, hnew, hkey⟩

variable (ht : IsFaithful p t)
  (hvars : t'.vars = remainingVariables t.vars (remaining t.vars (constancies t)))
include ht hvars

/-- An effect that is left has a variable, and one that is erased has none any more. -/
theorem reads_of_substituteConditions {es es' : List Condition} {vs : List ReachedValue}
    (hreads : List.Forall₂ (namingOf t).Reads es vs)
    (h : (substituteConditions (substitution t) es).run = .ok (some es')) :
    List.Forall₂ (namingOf t').Reads es' (vs.filter fun v => HasAtom t' v) := by
  have hrenumbering := isRenumbering_newPosition hvars
  rw [(substituteConditions_eq_some h).1]
  clear h
  induction hreads with
  | nil => exact .nil
  | @cons e v es vs he _ ih =>
    rw [List.filterMap_cons]
    cases hposition : newPosition (substitution t) e.var with
    | some var =>
      have hnames := hrenumbering.namingOf_iff.mpr ⟨e.var, hposition, he.1⟩
      rw [List.filter_cons, if_pos (decide_eq_true (hasAtom_iff.mpr ⟨var, hnames⟩))]
      exact .cons ⟨hnames, he.2⟩ ih
    | none =>
      have hnone : ¬HasAtom t' v := by
        rw [hasAtom_iff]
        rintro ⟨var, hvar⟩
        obtain ⟨w, hw, hnames⟩ := hrenumbering.namingOf_iff.mp hvar
        rw [ht.unique hnames he.1, hposition] at hw
        cases hw
      rw [List.filter_cons, if_neg (mt of_decide_eq_true hnone)]
      exact ih

theorem writes_of_substituteConditions {arguments : List ObjectId} {h : Lifted.Happening}
    {es es' : List Condition} (hwrites : Writes t arguments h es)
    (hes : (substituteConditions (substitution t) es).run = .ok (some es')) :
    Writes t' arguments h es' := by
  have hreads := reads_of_substituteConditions ht hvars hwrites hes
  have hfilter : ((effectsOf arguments h).filter fun v => HasAtom t v).filter
      (fun v => HasAtom t' v) = (effectsOf arguments h).filter fun v => HasAtom t' v := by
    rw [List.filter_filter]
    refine List.filter_congr fun v _ => ?_
    -- what has a variable after the pass has had one before
    have hle : HasAtom t' v → HasAtom t v := fun h => by
      obtain ⟨var, hvar⟩ := hasAtom_iff.mp h
      obtain ⟨w, -, hw⟩ := (isRenumbering_newPosition hvars).namingOf_iff.mp hvar
      exact hasAtom_iff.mpr ⟨w, hw⟩
    by_cases h : HasAtom t' v
    · simp [h, hle h]
    · simp [h]
  rw [hfilter] at hreads
  exact hreads

end Pass

theorem Pass.isFaithful {t t' : Task} (h : Pass t t') (ht : IsFaithful p t) : IsFaithful p t' := by
  obtain ⟨count, h⟩ := h
  rcases removeStaticPass_eq_ok h with ⟨rfl, -⟩ | ⟨actions, goals, _, hactions, hgoals, -, -,
    hvars, hactions', hgoals', -⟩
  · exact ht
  have hrenumbering := isRenumbering_newPosition hvars
  have hkept : ∀ {as bs : List Action}, as ⊆ t.actions ++ t.goals →
      keepResidues (substituteAction (substitution t)) as = .ok bs →
        ∀ b ∈ renumber bs, ∃ op, WritesFor p t' b op := by
    intro as bs has h b hb
    obtain ⟨b₀, hb₀, hindex⟩ := exists_of_forall₂ (forall₂_renumber bs) hb
    obtain ⟨a, ha, hresidue⟩ := (selects_of_keepResidues h).exists_kept hb₀
    have hremainder := isRemainder_of_substituteAction hresidue
    obtain ⟨op, hop⟩ := ht.writes a (has ha)
    rw [hindex]
    refine ⟨op, ?_, ?_, ?_, ?_⟩
    · exact hremainder.operator ▸ hop.operator
    · exact hremainder.arguments ▸ hop.useful
    · show Writes t' b₀.arguments op.atStart b₀.startEffects
      rw [hremainder.arguments]
      exact writes_of_substituteConditions ht hvars hop.atStart hremainder.startEffects
    · show Writes t' b₀.arguments op.atEnd b₀.endEffects
      rw [hremainder.arguments]
      exact writes_of_substituteConditions ht hvars hop.atEnd hremainder.endEffects
  refine ⟨fun v w f as hv hw => ?_, fun a ha => ?_⟩
  · obtain ⟨v₀, hv₀, hv⟩ := hrenumbering.namingOf_iff.mp hv
    obtain ⟨w₀, hw₀, hw⟩ := hrenumbering.namingOf_iff.mp hw
    rw [ht.unique hv hw, hw₀, Option.some.injEq] at hv₀
    exact hv₀.symm
  · rw [hactions', hgoals'] at ha
    rcases List.mem_append.mp ha with ha | ha
    · exact hkept (List.subset_append_left _ _) hactions a ha
    · exact hkept (List.subset_append_right _ _) hgoals a ha

theorem IsFaithful.setInitialValues_decideNumericConditions {t : Task} (ht : IsFaithful p t) :
    IsFaithful p (setInitialValues (decideNumericConditions t)) := by
  have hnaming := namingOf_setInitialValues_decideNumericConditions t
  refine ⟨by rw [hnaming]; exact ht.unique, fun a ha => ?_⟩
  rcases List.mem_append.mp ha with ha | ha
  · obtain ⟨b, hb, hindex⟩ := exists_of_forall₂ (forall₂_renumber _) ha
    obtain ⟨a₀, ha₀, hdecided⟩ := List.mem_filterMap.mp hb
    obtain ⟨op, hop⟩ := ht.writes a₀ (List.mem_append_left _ ha₀)
    rw [hindex, (isDecided_of_decideConditions hdecided).eq]
    exact ⟨op, hop.of_eq hnaming rfl rfl rfl rfl⟩
  · obtain ⟨op, hop⟩ := ht.writes a (List.mem_append_right _ ha)
    exact ⟨op, hop.of_eq hnaming rfl rfl rfl rfl⟩

/-- The actions and goals of grounded tasks write what their operators say. -/
theorem ground_isFaithful {keepStatic : Bool} {t : Task} (h : ground p keepStatic = .ok t) :
    IsFaithful p t :=
  ground_induction h (fun _ => saturate_isFaithful p) (fun _ _ hpass => hpass.isFaithful)
    (fun _ _ ht => ⟨ht.unique, fun a ha => (ht.writes a ha).imp fun _ hop =>
      hop.of_eq rfl rfl rfl rfl rfl⟩)
    fun _ ht => ht.setInitialValues_decideNumericConditions

end Tasks

/-! ## Variables that are written twice -/

/-- The function applied to objects that a value is of. -/
def ReachedValue.atom (v : ReachedValue) : FunctionId × List ObjectId := (v.function, v.arguments)

/-- The values that numeric effects assign as terms, as far as these are values of variables. -/
def assignedValues (t : Task) (arguments : List ObjectId) (h : Lifted.Happening) :
    List ReachedValue :=
  (h.numericEffects.filterMap (assignedValue arguments)).filter fun v => HasAtom t v

/-- Numeric effects that assign terms write different variables, and none that a literal effect
writes as well. -/
structure AssignsApart (t : Task) (arguments : List ObjectId) (h : Lifted.Happening) : Prop where
  distinct : ((assignedValues t arguments h).map ReachedValue.atom).Nodup
  apart : ∀ v ∈ assignedValues t arguments h, ∀ c ∈ h.effects,
    (instanceOf arguments c).atom ≠ v.atom

theorem assignsApart_iff {t : Task} {arguments : List ObjectId} {h : Lifted.Happening} :
    AssignsApart t arguments h ↔ ((assignedValues t arguments h).map ReachedValue.atom).Nodup ∧
      ∀ v ∈ assignedValues t arguments h, ∀ c ∈ h.effects, (instanceOf arguments c).atom ≠ v.atom :=
  ⟨fun h => ⟨h.distinct, h.apart⟩, fun h => ⟨h.1, h.2⟩⟩

instance (t : Task) (arguments : List ObjectId) (h : Lifted.Happening) :
    Decidable (AssignsApart t arguments h) :=
  decidable_of_iff _ assignsApart_iff.symm

section Twice

variable {t : Task} {arguments : List ObjectId} {h : Lifted.Happening} {es : List Condition}

theorem nodup_eraseDups (vs : List ReachedValue) : vs.eraseDups.Nodup := by
  induction vs using List.reverseRecOn with
  | nil => exact List.nodup_nil
  | append_singleton vs v ih =>
    by_cases hv : v ∈ vs
    · rwa [eraseDups_append_cons_of_mem hv, List.append_nil]
    · rw [eraseDups_append_singleton_of_notMem hv]
      exact List.nodup_append.mpr ⟨ih, List.nodup_singleton v, fun w hw w' hw' heq =>
        hv (List.mem_singleton.mp hw' ▸ heq ▸ List.mem_eraseDups.mp hw)⟩

/-- Values that do not contradict each other are of different functions applied to objects, if
each of them counts once. -/
theorem nodup_atoms_of_not_contradictory {vs : List ReachedValue} (hvs : ¬Contradictory vs)
    (q : ReachedValue → Bool) : ((vs.eraseDups.filter q).map ReachedValue.atom).Nodup := by
  refine List.Nodup.map_on (fun v hv w hw hatom => ?_) ((nodup_eraseDups vs).filter q)
  obtain ⟨hf, has⟩ := Prod.mk.inj hatom
  by_contra hne
  have hmem : ∀ v ∈ vs.eraseDups.filter q, v ∈ vs := fun v hv =>
    List.mem_eraseDups.mp (List.mem_filter.mp hv).1
  exact hvs ⟨v, hmem v hv, w, hmem w hw, hf, has, fun hvalue =>
    hne (ReachedValue.ext hf has hvalue)⟩

/-- Effects write each variable once if they write each function applied to objects once. -/
theorem nodup_vars_iff (hunique : ∀ ⦃v w f as⦄, namingOf t v f as → namingOf t w f as → v = w)
    {vs : List ReachedValue} (hreads : List.Forall₂ (namingOf t).Reads es vs) :
    (es.map (·.var)).Nodup ↔ (vs.map ReachedValue.atom).Nodup := by
  have hbi : Relator.BiUnique fun (v : VarId) (atom : FunctionId × List ObjectId) =>
      namingOf t v atom.1 atom.2 :=
    ⟨fun _ _ _ hv hw => hunique hv hw, fun _ _ _ h h' =>
      Prod.ext (namingOf_inj h h').1 (namingOf_inj h h').2⟩
  refine List.rel_nodup hbi ?_
  rw [List.forall₂_map_left_iff, List.forall₂_map_right_iff]
  exact hreads.imp fun _ _ he => he.1

/-- A time point at which literal effects do not contradict each other writes variables once if
the assignments of terms keep away from each other and from the literal effects. -/
theorem Writes.nodup_iff (hwrites : Writes t arguments h es)
    (hunique : ∀ ⦃v w f as⦄, namingOf t v f as → namingOf t w f as → v = w)
    (hliteral : ¬Contradictory (h.effects.map (instanceOf arguments))) :
    (es.map (·.var)).Nodup ↔ AssignsApart t arguments h := by
  rw [nodup_vars_iff hunique hwrites, effectsOf, List.filter_append, List.map_append,
    List.nodup_append, and_iff_right (nodup_atoms_of_not_contradictory hliteral _),
    assignsApart_iff]
  refine and_congr_right fun _ => ⟨fun hapart v hv c hc heq => ?_, ?_⟩
  · -- a literal effect on the same function has a variable as well
    have hatom : HasAtom t (instanceOf arguments c) := by
      obtain ⟨hf, has⟩ := Prod.mk.inj heq
      obtain ⟨entry, hentry, hkey⟩ := of_decide_eq_true (List.mem_filter.mp hv).2
      exact ⟨entry, hentry, hf ▸ has ▸ hkey⟩
    refine hapart _ (List.mem_map_of_mem (List.mem_filter.mpr
      ⟨List.mem_eraseDups.mpr (List.mem_map_of_mem hc), decide_eq_true hatom⟩)) _
      (List.mem_map_of_mem hv) heq
  · intro hapart _ hl _ hr
    obtain ⟨w, hw, rfl⟩ := List.mem_map.mp hl
    obtain ⟨v, hv, rfl⟩ := List.mem_map.mp hr
    obtain ⟨c, hc, rfl⟩ := List.mem_map.mp (List.mem_eraseDups.mp (List.mem_filter.mp hw).1)
    exact hapart v hv c hc

end Twice

/-- **The literal effects of an action write a variable twice** only if assignments of terms do, of
which one collides with another one or with a literal effect; and then they do. -/
theorem ground_writes_once {p : Lifted.Problem} {keepStatic : Bool} {t : Task}
    (h : ground p keepStatic = .ok t) {a : Action} (ha : a ∈ t.actions ++ t.goals) :
    ∃ op, p.operators[a.operator]? = some op ∧
      ((a.startEffects.map (·.var)).Nodup ↔ AssignsApart t a.arguments op.atStart) ∧
      ((a.endEffects.map (·.var)).Nodup ↔ AssignsApart t a.arguments op.atEnd) := by
  have hfaithful := ground_isFaithful h
  obtain ⟨op, hop⟩ := hfaithful.writes a ha
  have hdiscarded := hop.useful.2
  exact ⟨op, hop.operator,
    hop.atStart.nodup_iff hfaithful.unique fun hstart => hdiscarded (Or.inl hstart),
    hop.atEnd.nodup_iff hfaithful.unique fun hend => hdiscarded (Or.inr hend)⟩

open Lifted in
/-- Something that is at home is moved away by an assignment, next to literal effects. -/
def moving (effects : List Fluent) : Problem where
  task := { Task.ofPropositions [] [] with
    types := #[⟨"#boolean", []⟩, ⟨"number", []⟩, ⟨"place", []⟩]
    objects := #[⟨"#false", [TypeId.boolean]⟩, ⟨"#true", [TypeId.boolean]⟩, ⟨"home", [⟨2⟩]⟩,
      ⟨"away", [⟨2⟩]⟩]
    functions := #[⟨"position", [], [⟨2⟩]⟩]
    init := [⟨⟨0⟩, [], .object ⟨2⟩, 0.0⟩] }
  operators := [.ofHappenings "move"
    ⟨[], [], effects, [⟨.assign, ⟨⟨0⟩, []⟩, .atom (.term (.object ⟨3⟩))⟩]⟩ .empty]

/-- The assignment alone writes the position once. -/
theorem moving_writes_once : ∃ t, ground (moving []) false = .ok t ∧
    ∃ a ∈ t.actions ++ t.goals, a.startEffects.length = 1 ∧
      (a.startEffects.map (·.var)).Nodup := by
  have hrun : ∃ t ∈ (ground (moving []) false).toOption, ∃ a ∈ t.actions ++ t.goals,
      a.startEffects.length = 1 ∧ ∀ op ∈ (moving []).operators[a.operator]?,
        AssignsApart t a.arguments op.atStart := by decide +kernel
  obtain ⟨t, ht, a, ha, hlength, hapart⟩ := hrun
  have hground := eq_ok_of_mem_toOption ht
  obtain ⟨op, hop, hstart, -⟩ := ground_writes_once hground ha
  exact ⟨t, hground, a, ha, hlength, hstart.mpr (hapart op hop)⟩

/-- A literal effect says that it stays at home, and the action writes both. -/
theorem exists_written_twice : ∃ t, ground (moving [⟨⟨⟨0⟩, []⟩, .object ⟨2⟩⟩]) false = .ok t ∧
    ∃ a ∈ t.actions, a.startEffects = [⟨⟨0⟩, ⟨2⟩⟩, ⟨⟨0⟩, ⟨3⟩⟩] := by
  have hrun : ∃ t ∈ (ground (moving [⟨⟨⟨0⟩, []⟩, .object ⟨2⟩⟩]) false).toOption,
      ∃ a ∈ t.actions, a.startEffects = [⟨⟨0⟩, ⟨2⟩⟩, ⟨⟨0⟩, ⟨3⟩⟩] := by decide +kernel
  obtain ⟨t, ht, hwritten⟩ := hrun
  exact ⟨t, eq_ok_of_mem_toOption ht, hwritten⟩

end TemporalPlanning.Grounding
