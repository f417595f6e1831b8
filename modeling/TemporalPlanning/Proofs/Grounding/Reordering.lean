import Mathlib.Logic.Equiv.Basic
import TemporalPlanning.Proofs.Grounding.Derivation
import TemporalPlanning.Proofs.Grounding.Removal
import TemporalPlanning.Proofs.Grounding.Renaming
/-!
Grounding the same operators in another order.

Which instances exploration finds is decided by the values that are derivable, and these do not
depend on the order of the operators as long as it makes no difference when a variable is created:
every instance that lacks no variable in the end has not lacked one at the start. Two orders then
give the same actions and goals, up to the order in which they are found and the numbering of
variables, and an instance is given up for a missing variable only if that variable is never
created. Otherwise the order matters: a variable may be created on the way, and an instance that
looks for it before that is given up for good.
-/
set_option autoImplicit false

namespace TemporalPlanning

/-- A rearrangement of a list takes every position to another one. -/
theorem exists_equiv_of_perm {α : Type} {as bs : List α} (h : as.Perm bs) :
    ∃ σ : Equiv.Perm Nat, ∀ i, bs[σ i]? = as[i]? := by
  induction h with
  | nil => exact ⟨Equiv.refl Nat, fun _ => rfl⟩
  | cons a _ ih =>
    obtain ⟨σ, hσ⟩ := ih
    -- the first position stays, and the others move as they do in the tail
    refine ⟨⟨fun i => i.casesOn 0 fun j => σ j + 1, fun i => i.casesOn 0 fun j => σ.symm j + 1,
      fun i => ?_, fun i => ?_⟩, fun i => ?_⟩
    · cases i <;> simp
    · cases i <;> simp
    · cases i with
      | zero => rfl
      | succ j => simpa using hσ j
  | swap a b _ =>
    refine ⟨Equiv.swap 0 1, fun i => ?_⟩
    match i with
    | 0 => rfl
    | 1 => rfl
    | i + 2 =>
      rw [Equiv.swap_apply_of_ne_of_ne (by omega) (by omega)]
      rfl
  | trans _ _ ih ih' =>
    obtain ⟨σ, hσ⟩ := ih
    obtain ⟨τ, hτ⟩ := ih'
    exact ⟨σ.trans τ, fun i => (hτ (σ i)).trans (hσ i)⟩

namespace Grounding

open Grounded

variable {p q : Lifted.Problem} {σ : Equiv.Perm Nat}

/-! ## Variables that are there from the start -/

/-- The functions applied to objects that have variables in a task. -/
def atomsOf (t : Task) : Atoms := fun f as =>
  ∃ entry ∈ t.vars.toList, entry.function = f ∧ entry.arguments = as

/-- A task records that a value is reached. -/
def IsRecorded (t : Task) (v : ReachedValue) : Prop := ∃ level, Recorded t v level

variable (p) in
/-- An instance that some values enable and that lacks no variable in the end lacks no fact either:
the variables that its numeric parts mention have been there from the start. -/
def HasNoLateVariables (C : ReachedValue → Prop) (E : Atoms) : Prop :=
  ∀ op ∈ p.operators, ∀ as, Instance.IsAdmissible (Setting.ofTask p.task) op as →
    Instance.IsMatched op as C → IsEffective E op as → IsEffective (HasFact p) op as

theorem HasNoLateVariables.mono {C C' : ReachedValue → Prop} {E E' : Atoms}
    (h : HasNoLateVariables p C E) (hC : ∀ v, C' v → C v) (hE : ∀ f as, E' f as → E f as) :
    HasNoLateVariables p C' E' := fun op hop as has hmatched heffective =>
  h op hop as has (hmatched.mono hC) (heffective.mono hE)

/-- It is enough that there is a fact about every variable that some numeric part mentions. -/
theorem hasNoLateVariables_of_forall {C : ReachedValue → Prop} {E : Atoms}
    (h : ∀ x ∈ allInstances p, ∀ l ∈ numericLiterals x.2.1,
      E l.function (l.arguments.map (denote x.2.2)) →
        HasFact p l.function (l.arguments.map (denote x.2.2))) : HasNoLateVariables p C E := by
  intro op hop as has _ heffective
  obtain ⟨i, hi⟩ := List.mem_iff_getElem?.mp hop
  have hx := mem_allInstances.mpr ⟨hi, has⟩
  exact ⟨heffective.useful, fun l hl => h (i, op, as) hx l hl (heffective.defined l hl)⟩

instance (f : FunctionId) (as : List ObjectId) : Decidable (HasFact p f as) :=
  inferInstanceAs (Decidable (∃ fact ∈ p.task.init, _ ∧ _))

instance (t : Task) (f : FunctionId) (as : List ObjectId) : Decidable (atomsOf t f as) :=
  inferInstanceAs (Decidable (∃ entry ∈ t.vars.toList, _ ∧ _))

section Found

variable {s : State} (h : IsExplored p s)
  (hlate : HasNoLateVariables p (· ∈ s.values.toList) s.HasAtom)
include h hlate

/-- All values are derivable from the variables of the facts. -/
theorem IsExplored.derivable_of_mem {v : ReachedValue} (hv : v ∈ s.values.toList) :
    Derivable p (HasFact p) v := by
  -- the values that are, and have been reached, are closed
  refine (h.sound v hv (fun v => v ∈ s.values.toList ∧ Derivable p (HasFact p) v) ⟨?_, ?_⟩).2
  · intro v hv
    exact ⟨(h.explored.values v).mpr (Or.inl hv), isInstanceClosed_derivable.initial v hv⟩
  · intro op hop as has hmatched heffective v hv
    have hfacts := hlate op hop as has (hmatched.mono fun _ hw => hw.1) heffective
    have hderivable := isInstanceClosed_derivable.step op hop as has
      (hmatched.mono fun _ hw => hw.2) hfacts v hv
    exact ⟨h.mem_values hderivable, hderivable⟩

/-- **The instances found are the ones that derivable values enable** and whose numeric parts
mention nothing but what there are facts about. -/
theorem IsExplored.found_iff {b : Bool} {i : Nat} {as : List ObjectId} :
    (∃ a ∈ (s.found b).toList, a.operator = i ∧ a.arguments = as) ↔
      ∃ op, IsInstanceOf p i op as ∧ op.isGoal = b ∧ IsEffective (HasFact p) op as ∧
        Instance.IsMatched op as (Derivable p (HasFact p)) := by
  constructor
  · rintro ⟨a, ha, rfl, rfl⟩
    obtain ⟨op, hop, hmatched⟩ := h.exists_matched ha
    have hmem := List.mem_of_getElem? hop.instanceOf.operator
    exact ⟨op, hop.instanceOf, hop.isGoal_eq,
      hlate op hmem _ hop.instanceOf.admissible hmatched hop.isEffective,
      hmatched.mono fun _ hv => h.derivable_of_mem hlate hv⟩
  · rintro ⟨op, hi, rfl, hop, hmatched⟩
    exact h.exists_found hi hmatched hop

end Found

/-! ## Rearranged operators -/

/-- Two problems differ in nothing but that the operators of the one have been moved. -/
structure IsRearranged (σ : Equiv.Perm Nat) (p q : Lifted.Problem) : Prop where
  task_eq : q.task = p.task
  operators : ∀ i, q.operators[σ i]? = p.operators[i]?

namespace IsRearranged

variable (h : IsRearranged σ p q)
include h

theorem symm : IsRearranged σ.symm q p :=
  ⟨h.task_eq.symm, fun i => by rw [← h.operators, Equiv.apply_symm_apply]⟩

theorem mem_operators {op : Lifted.Operator} (hop : op ∈ q.operators) : op ∈ p.operators := by
  obtain ⟨i, hi⟩ := List.mem_iff_getElem?.mp hop
  exact List.mem_of_getElem? ((h.symm.operators i).trans hi)

theorem isInstanceOf {i : Nat} {op : Lifted.Operator} {as : List ObjectId}
    (hi : IsInstanceOf p i op as) : IsInstanceOf q (σ i) op as :=
  ⟨(h.operators i).trans hi.operator, by
    rw [h.task_eq]
    exact hi.admissible⟩

theorem hasDistinctNames (hnames : HasDistinctNames p) : HasDistinctNames q := by
  intro i j op op' as bs hi hj hgoal hgoal' has hbs hname
  rw [h.task_eq] at has hbs hname
  obtain ⟨hij, heq⟩ := hnames _ _ op op' as bs ((h.symm.operators i).trans hi)
    ((h.symm.operators j).trans hj) hgoal hgoal' has hbs hname
  exact ⟨σ.symm.injective hij, heq⟩

theorem hasFact {f : FunctionId} {as : List ObjectId} (hfact : HasFact p f as) :
    HasFact q f as := by
  rw [HasFact, h.task_eq]
  exact hfact

/-- Moving the operators makes no difference to what is derivable. -/
theorem derivable {v : ReachedValue} (hv : Derivable p (HasFact p) v) :
    Derivable q (HasFact q) v := by
  refine hv _ ⟨fun w hw => isInstanceClosed_derivable.initial w ?_,
    fun op hop as has hmatched heffective w hw => ?_⟩
  · rw [IsInitialValue, h.task_eq]
    exact hw
  · refine isInstanceClosed_derivable.step op (h.symm.mem_operators hop) as ?_ hmatched
      (heffective.mono fun _ _ => h.hasFact) w hw
    rw [h.task_eq]
    exact has

end IsRearranged

/-! ## Counterparts -/

/-- An action of one problem is the same as one of the other problem: it is an instance of the same
operator, which may be elsewhere, and differs from it in its variables at most. -/
structure IsCounterpart (p q : Lifted.Problem) (N N' : Naming) (a b : Action) : Prop where
  isRenaming : a.IsRenaming (N.Common N') b
  operator : q.operators[b.operator]? = p.operators[a.operator]?

/-- Neither preferences nor positions matter. -/
theorem IsCounterpart.congr {N N' : Naming} {a b a' b' : Action} (h : IsCounterpart p q N N' a b)
    (ha : a' = { a with index := a'.index, preferences := a'.preferences })
    (hb : b' = { b with index := b'.index, preferences := b'.preferences }) :
    IsCounterpart p q N N' a' b' := by
  rw [ha, hb]
  exact ⟨{ h.isRenaming with }, h.operator⟩

theorem IsCounterpart.decideConditions {N N' : Naming} {a b : Action}
    (h : IsCounterpart p q N N' a b) :
    Option.Rel (IsCounterpart p q N N') (Grounding.decideConditions a)
      (Grounding.decideConditions b) :=
  rel_imp (decideConditions_isRenaming h.isRenaming) fun _ _ ⟨hab, ha, hb⟩ =>
    ⟨hab, by rw [ha, hb, h.operator]⟩

section Explored

variable {s s' : State} {N N' : Naming} (h : IsRearranged σ p q)
include h

/-- What is found in one order is found in the other. -/
theorem IsRearranged.exists_found (hs : IsExplored p s)
    (hlate : HasNoLateVariables p (· ∈ s.values.toList) s.HasAtom) (hs' : IsExplored q s')
    (hlate' : HasNoLateVariables q (· ∈ s'.values.toList) s'.HasAtom) {b : Bool} {i : Nat}
    {as : List ObjectId} (hfound : ∃ a ∈ (s.found b).toList, a.operator = i ∧ a.arguments = as) :
    ∃ a ∈ (s'.found b).toList, a.operator = σ i ∧ a.arguments = as := by
  obtain ⟨op, hi, hgoal, heffective, hmatched⟩ := (hs.found_iff hlate).mp hfound
  exact (hs'.found_iff hlate').mpr ⟨op, h.isInstanceOf hi, hgoal,
    heffective.mono fun _ _ => h.hasFact, hmatched.mono fun _ hv => h.derivable hv⟩

/-- **Two orders of the operators lead to the same actions.** -/
theorem IsRearranged.relatedUpToOrder_found (hs : IsExplored p s)
    (hlate : HasNoLateVariables p (· ∈ s.values.toList) s.HasAtom) (hs' : IsExplored q s')
    (hlate' : HasNoLateVariables q (· ∈ s'.values.toList) s'.HasAtom)
    (hN : Naming.Le s.Names N) (hN' : Naming.Le s'.Names N') (b : Bool) :
    RelatedUpToOrder (IsCounterpart p q N N') (s.found b).toList (s'.found b).toList := by
  -- actions are told apart by operators and arguments, which are the same in both orders
  have honce : ((s.found b).toList.map fun a => (σ a.operator, a.arguments)).Nodup := by
    have hinj : Function.Injective fun k : Nat × List ObjectId => (σ k.1, k.2) := fun k k' hk =>
      Prod.ext (σ.injective (Prod.mk.inj hk).1) (Prod.mk.inj hk).2
    have honce := (hs.explored.once b).map hinj
    rwa [List.map_map] at honce
  have hkeys : ∀ key, key ∈ (s.found b).toList.map (fun a => (σ a.operator, a.arguments)) ↔
      key ∈ (s'.found b).toList.map fun a => (a.operator, a.arguments) := by
    rintro ⟨i, as⟩
    simp only [List.mem_map, Prod.mk.injEq]
    constructor
    · rintro ⟨a, ha, rfl, rfl⟩
      exact h.exists_found hs hlate hs' hlate' ⟨a, ha, rfl, rfl⟩
    · intro hfound
      obtain ⟨a, ha, hoperator, harguments⟩ := h.symm.exists_found hs' hlate' hs hlate hfound
      exact ⟨a, ha, by rw [hoperator, Equiv.apply_symm_apply], harguments⟩
  refine (RelatedUpToOrder.of_keys honce (hs'.explored.once b) hkeys).imp
    fun a a' ⟨ha, ha', hkey⟩ => ?_
  -- and both actions read what their operator says
  obtain ⟨hoperator, harguments⟩ := Prod.mk.inj hkey
  obtain ⟨op, hop⟩ := hs.explored.found b a ha
  obtain ⟨op', hop'⟩ := hs'.explored.found b a' ha'
  have hposition : q.operators[a'.operator]? = p.operators[a.operator]? := by
    rw [← hoperator, h.operators]
  obtain rfl : op' = op := Option.some.inj
    ((hop'.instanceOf.operator.symm.trans hposition).trans hop.instanceOf.operator)
  refine ⟨Naming.ReadsAction.isRenaming ?_ (hop.reads.mono hN) ?_, hposition⟩
  · rw [hop'.name_eq, hop.name_eq, h.task_eq, harguments]
  · rw [harguments]
    exact hop'.reads.mono hN'

end Explored

/-! ## Grounded tasks -/

/-- Which variables of a task stand for which functions applied to objects. -/
def namingOf (t : Task) : Naming := fun v f as =>
  ∃ entry, t.vars[v.index]? = some entry ∧ entry.function = f ∧ entry.arguments = as

theorem atomsOf_iff {t : Task} {f : FunctionId} {as : List ObjectId} :
    atomsOf t f as ↔ ∃ v, namingOf t v f as := by
  constructor
  · rintro ⟨entry, hentry, hkey⟩
    obtain ⟨i, hi⟩ := List.mem_iff_getElem?.mp hentry
    rw [Array.getElem?_toList] at hi
    exact ⟨⟨i⟩, entry, hi, hkey⟩
  · rintro ⟨v, entry, hentry, hkey⟩
    exact ⟨entry, List.mem_of_getElem? (Array.getElem?_toList ▸ hentry), hkey⟩

theorem namingOf_inj {t : Task} {v : VarId} {f g : FunctionId} {as bs : List ObjectId}
    (h : namingOf t v f as) (h' : namingOf t v g bs) : f = g ∧ as = bs := by
  obtain ⟨entry, hentry, rfl, rfl⟩ := h
  obtain ⟨entry', hentry', rfl, rfl⟩ := h'
  obtain rfl : entry = entry' := Option.some.inj (hentry.symm.trans hentry')
  exact ⟨rfl, rfl⟩

/-- A grounded task that keeps static variables is what has been found at the end of exploration,
but for preferences and for constant conditions. -/
structure IsGroundedFrom (p : Lifted.Problem) (s : State) (t : Task) : Prop where
  explored : IsExplored p s
  names : Naming.Le s.Names (namingOf t)
  unique : ∀ ⦃v w f as⦄, namingOf t v f as → namingOf t w f as → v = w
  recorded : ∀ v, IsRecorded t v ↔ v ∈ s.values.toList
  actions : ∃ as, List.Forall₂ SameButPreferences s.actions.toList as ∧
    t.actions = renumber (as.filterMap decideConditions)
  goals : List.Forall₂ SameButPreferences s.goals.toList t.goals

theorem namingOf_eq_names {s : State} {t : Task} (h : t.vars = s.vars.entries) :
    namingOf t = s.Names := by
  funext v f as
  rw [namingOf, State.Names, Registry.get?, ← h]

/-- What follows the passes does not rename anything. -/
theorem namingOf_setInitialValues_decideNumericConditions (t : Task) :
    namingOf (setInitialValues (decideNumericConditions t)) = namingOf t := by
  funext v f as
  refine propext ?_
  rw [namingOf, namingOf, getElem?_setInitialValues]
  simp only [Option.map_eq_some_iff]
  constructor
  · rintro ⟨_, ⟨entry, hentry, rfl⟩, hkey⟩
    exact ⟨entry, hentry, hkey⟩
  · rintro ⟨entry, hentry, hkey⟩
    exact ⟨_, ⟨entry, hentry, rfl⟩, hkey⟩

theorem namingOf_grounded {s : State} {t : Task} (h : t.vars = s.vars.entries) :
    namingOf (setInitialValues (decideNumericConditions t)) = s.Names :=
  (namingOf_setInitialValues_decideNumericConditions t).trans (namingOf_eq_names h)

theorem recorded_grounded_iff {t : Task} {v : ReachedValue} {l : Nat} :
    Recorded (setInitialValues (decideNumericConditions t)) v l ↔ Recorded t v l := by
  have hvars : (setInitialValues (decideNumericConditions t)).vars.toList = t.vars.toList.map
      fun v => { v with initialValues := (factsOf t.task v).map fun fact => (fact.time, fact.value) } :=
    Array.toList_map
  rw [Recorded, Recorded, hvars]
  simp only [List.mem_map, exists_exists_and_eq_and]

theorem exists_isGroundedFrom {t : Task} (hnames : HasDistinctNames p)
    (hground : ground p true = .ok t) : ∃ s, IsGroundedFrom p s t := by
  obtain ⟨hvalid, saturated, s', reduced, hrun, rfl, rfl⟩ := ground_eq_ok hground
  have hsaturate : (saturate p).Ensures {} fun t _ =>
      ∃ s, IsGroundedFrom p s (setInitialValues (decideNumericConditions t)) := by
    refine saturate_ensures ((explore_isExplored hvalid hnames).mono ?_)
    intro _ s hs s₁ t ht
    have hnaming := namingOf_grounded ht.vars_eq
    refine ⟨s, hs, ?_, fun v w f as hv hw => ?_, fun v => ?_, ⟨t.actions, ht.actions, rfl⟩,
      ht.goals⟩
    · rw [hnaming]
      exact Naming.le_of_creates ht.creates.toCreates
    · rw [hnaming] at hv hw
      exact hv.unique hw
    · simp only [IsRecorded, recorded_grounded_iff, ht.recorded_iff, hs.explored.mirrored.mem_iff]
  exact hsaturate _ _ hrun

/-- A numeric condition of an operator compares two numbers and fails. -/
def HasFailingCondition (op : Lifted.Operator) : Prop :=
  ∃ c ∈ op.atStart.numericConditions ++ op.numericInvariants ++ op.atEnd.numericConditions,
    ∃ x y, c.operands = [.atom (.number x), .atom (.number y)] ∧ c.comparator.holds x y = false

section Failing

variable {N : Naming} {as : List ObjectId}

theorem Naming.ReadsExpression.eq_number_iff {e : Expression Lifted.Quantity}
    {e' : Expression Quantity} (h : N.ReadsExpression as e e') {x : Float} :
    e' = .atom (.number x) ↔ e = .atom (.number x) := by
  cases h with
  | atom h => cases h <;> simp
  | node => simp

theorem Naming.ReadsNumericCondition.isViolated_iff {c : Lifted.NumericCondition}
    {d : NumericCondition} (h : N.ReadsNumericCondition as c d) : d.isViolated = true ↔
      ∃ x y, c.operands = [.atom (.number x), .atom (.number y)] ∧
        c.comparator.holds x y = false := by
  have hpair : ∀ x y, d.terms = [.atom (.number x), .atom (.number y)] ↔
      c.operands = [.atom (.number x), .atom (.number y)] := fun x y =>
    eq_pair_iff_of_forall₂ h.terms (fun _ _ h => ReadsExpression.eq_number_iff h)
      fun _ _ h => ReadsExpression.eq_number_iff h
  rw [NumericCondition.isViolated_iff, h.comparator]
  simp only [hpair]

/-- An action is dropped in the end for a condition of its operator that fails. -/
theorem Naming.ReadsAction.decideConditions_eq_none_iff {op : Lifted.Operator} {a : Action}
    (h : N.ReadsAction as op a) : decideConditions a = none ↔ HasFailingCondition op := by
  have hall := List.rel_append (List.rel_append h.atStart.numericConditions h.numericInvariants)
    h.atEnd.numericConditions
  rw [Grounding.decideConditions_eq_none_iff]
  constructor
  · rintro ⟨d, hd, hviolated⟩
    obtain ⟨c, hc, hread⟩ := exists_of_forall₂ hall hd
    exact ⟨c, hc, hread.isViolated_iff.mp hviolated⟩
  · rintro ⟨c, hc, hfails⟩
    obtain ⟨d, hd, hread⟩ := exists_of_forall₂_left hall hc
    exact ⟨d, hd, hread.isViolated_iff.mpr hfails⟩

end Failing

namespace IsGroundedFrom

variable {s : State} {t : Task} (h : IsGroundedFrom p s t)
include h

/-- Variables of two tasks that stand for the same are related one to one. -/
theorem biUnique_common {s' : State} {t' : Task} (h' : IsGroundedFrom q s' t') :
    Relator.BiUnique ((namingOf t).Common (namingOf t')) := by
  refine ⟨fun v w v' ⟨f, as, hv, hv'⟩ ⟨g, bs, hw, hw'⟩ => ?_,
    fun v v' w' ⟨f, as, hv, hv'⟩ ⟨g, bs, hw, hw'⟩ => ?_⟩
  · obtain ⟨rfl, rfl⟩ := namingOf_inj hv' hw'
    exact h.unique hv hw
  · obtain ⟨rfl, rfl⟩ := namingOf_inj hv hw
    exact h'.unique hv' hw'

theorem hasNoLateVariables (hlate : HasNoLateVariables p (IsRecorded t) (atomsOf t)) :
    HasNoLateVariables p (· ∈ s.values.toList) s.HasAtom :=
  hlate.mono (fun v hv => (h.recorded v).mpr hv) fun _ _ ⟨v, hv⟩ =>
    atomsOf_iff.mpr ⟨v, h.names hv⟩

/-- **The actions and goals of two orders are the same** up to the order in which they are found,
operators' positions and the numbering of variables. -/
theorem relatedUpToOrder {s' : State} {t' : Task} (h' : IsGroundedFrom q s' t')
    (hpq : IsRearranged σ p q) (hlate : HasNoLateVariables p (IsRecorded t) (atomsOf t))
    (hlate' : HasNoLateVariables q (IsRecorded t') (atomsOf t')) (b : Bool) :
    RelatedUpToOrder (IsCounterpart p q (namingOf t) (namingOf t')) (actionsOf t b)
      (actionsOf t' b) := by
  have hfound := hpq.relatedUpToOrder_found h.explored (h.hasNoLateVariables hlate) h'.explored
    (h'.hasNoLateVariables hlate') h.names h'.names
  have hsame : ∀ {a a' : Action}, SameButPreferences a a' →
      a' = { a with index := a'.index, preferences := a'.preferences } := fun {a a'} h => by
    rw [h]
  cases b with
  | true =>
    exact (hfound true).replace h.goals h'.goals fun _ _ _ _ hab ha hb =>
      hab.congr (hsame ha) (hsame hb)
  | false =>
    obtain ⟨as, has, hactions⟩ := h.actions
    obtain ⟨as', has', hactions'⟩ := h'.actions
    have hresolved := (hfound false).replace has has' fun _ _ _ _ hab ha hb =>
      hab.congr (hsame ha) (hsame hb)
    have hdecided := hresolved.filterMap fun a b hab => hab.decideConditions
    show RelatedUpToOrder _ t.actions t'.actions
    rw [hactions, hactions']
    exact hdecided.replace (forall₂_renumber _) (forall₂_renumber _) fun _ _ _ _ hab ha hb =>
      hab.congr (by rw [ha]) (by rw [hb])

/-- What becomes of the actions and goals found: some actions are dropped, nothing else. -/
theorem exists_mem_iff {goals : Bool} {i : Nat} {as : List ObjectId} :
    (∃ b ∈ actionsOf t goals, b.operator = i ∧ b.arguments = as) ↔
      ∃ a ∈ (s.found goals).toList, (goals = false → decideConditions a ≠ none) ∧
        a.operator = i ∧ a.arguments = as := by
  cases goals with
  | true =>
    constructor
    · rintro ⟨b, hb, hkey⟩
      obtain ⟨a, ha, hsame⟩ := exists_of_forall₂ h.goals hb
      rw [hsame] at hkey
      exact ⟨a, ha, fun h => (by cases h), hkey⟩
    · rintro ⟨a, ha, -, hkey⟩
      obtain ⟨b, hb, hsame⟩ := exists_of_forall₂_left h.goals ha
      refine ⟨b, hb, ?_⟩
      rw [hsame]
      exact hkey
  | false =>
    obtain ⟨resolved, hresolved, hactions⟩ := h.actions
    have hnone : ∀ {a a' : Action}, SameButPreferences a a' →
        (decideConditions a' = none ↔ decideConditions a = none) := fun {a a'} h => by
      rw [decideConditions_eq_none_iff, decideConditions_eq_none_iff, h]
      rfl
    -- actions are resolved, decided and numbered, which leaves their operators and arguments alone
    show (∃ b ∈ t.actions, _) ↔ _
    rw [hactions]
    constructor
    · rintro ⟨b, hb, hkey⟩
      obtain ⟨c, hc, hindex⟩ := exists_of_forall₂ (forall₂_renumber _) hb
      obtain ⟨a', ha', hdecided⟩ := List.mem_filterMap.mp hc
      obtain ⟨a, ha, hsame⟩ := exists_of_forall₂ hresolved ha'
      rw [hindex, (isDecided_of_decideConditions hdecided).eq, hsame] at hkey
      refine ⟨a, ha, fun _ hdropped => ?_, hkey⟩
      rw [(hnone hsame).mpr hdropped] at hdecided
      cases hdecided
    · rintro ⟨a, ha, hkept, hkey⟩
      obtain ⟨a', ha', hsame⟩ := exists_of_forall₂_left hresolved ha
      obtain ⟨c, hc⟩ := Option.ne_none_iff_exists'.mp (mt (hnone hsame).mp (hkept rfl))
      obtain ⟨b, hb, hindex⟩ :=
        exists_of_forall₂_left (forall₂_renumber _) (List.mem_filterMap.mpr ⟨a', ha', hc⟩)
      refine ⟨b, hb, ?_⟩
      rw [hindex, (isDecided_of_decideConditions hc).eq, hsame]
      exact hkey

/-- **An instance is given up for a missing variable only if that variable is never created**: the
actions and goals are the useful instances that the values reached enable and whose numeric parts
mention nothing but variables of the task, except for actions with a condition that fails. -/
theorem mem_actions_iff (hlate : HasNoLateVariables p (IsRecorded t) (atomsOf t)) {goals : Bool}
    {i : Nat} {as : List ObjectId} :
    (∃ a ∈ actionsOf t goals, a.operator = i ∧ a.arguments = as) ↔
      ∃ op, IsInstanceOf p i op as ∧ op.isGoal = goals ∧
        Instance.IsMatched op as (IsRecorded t) ∧ IsEffective (atomsOf t) op as ∧
        (goals = false → ¬HasFailingCondition op) := by
  rw [h.exists_mem_iff]
  constructor
  · rintro ⟨a, ha, hkept, rfl, rfl⟩
    obtain ⟨op, hop, hmatched⟩ := h.explored.exists_matched ha
    refine ⟨op, hop.instanceOf, hop.isGoal_eq, hmatched.mono fun v hv => (h.recorded v).mpr hv,
      hop.isEffective.mono fun f as ⟨v, hv⟩ => ?_, ?_⟩
    · exact atomsOf_iff.mpr ⟨v, h.names hv⟩
    · exact fun hordinary hfails =>
        hkept hordinary (hop.reads.decideConditions_eq_none_iff.mpr hfails)
  · rintro ⟨op, hi, rfl, hmatched, heffective, hopen⟩
    -- what exists in the end has been there from the start, so the instance has been found
    have hfacts := hlate op (List.mem_of_getElem? hi.operator) as hi.admissible hmatched heffective
    obtain ⟨a, ha, rfl, rfl⟩ := h.explored.explored.complete hi
      ⟨op, hi, hmatched.mono fun v hv => (h.recorded v).mp hv⟩ hfacts
    obtain ⟨op', hop⟩ := h.explored.explored.found _ a ha
    obtain rfl : op' = op := Option.some.inj (hop.instanceOf.operator.symm.trans hi.operator)
    exact ⟨a, ha, fun hordinary hdropped =>
      hopen hordinary (hop.reads.decideConditions_eq_none_iff.mp hdropped), rfl, rfl⟩

end IsGroundedFrom

/-- **The order of the operators does not matter** if no variable is created late: the actions and
goals of two orders are the same, up to the order in which they are found, the positions of operators
and the numbering of variables. They are the useful instances that the values reached enable, so
that an instance is given up for a missing variable only if that variable is never created. -/
theorem ground_of_perm {ops : List Lifted.Operator} {t t' : Task} (hnames : HasDistinctNames p)
    (hperm : p.operators.Perm ops) (hground : ground p true = .ok t)
    (hground' : ground { p with operators := ops } true = .ok t')
    (hlate : HasNoLateVariables p (IsRecorded t) (atomsOf t))
    (hlate' : HasNoLateVariables { p with operators := ops } (IsRecorded t') (atomsOf t')) :
    Relator.BiUnique ((namingOf t).Common (namingOf t')) ∧
      (∀ goals, RelatedUpToOrder
        (IsCounterpart p { p with operators := ops } (namingOf t) (namingOf t'))
        (actionsOf t goals) (actionsOf t' goals)) ∧
      ∀ goals i as, (∃ a ∈ actionsOf t goals, a.operator = i ∧ a.arguments = as) ↔
        ∃ op, IsInstanceOf p i op as ∧ op.isGoal = goals ∧
          Instance.IsMatched op as (IsRecorded t) ∧ IsEffective (atomsOf t) op as ∧
          (goals = false → ¬HasFailingCondition op) := by
  obtain ⟨σ, hσ⟩ := exists_equiv_of_perm hperm
  have hpq : IsRearranged σ p { p with operators := ops } := ⟨rfl, hσ⟩
  obtain ⟨s, hs⟩ := exists_isGroundedFrom hnames hground
  obtain ⟨s', hs'⟩ := exists_isGroundedFrom (hpq.hasDistinctNames hnames) hground'
  exact ⟨hs.biUnique_common hs', hs.relatedUpToOrder hs' hpq hlate hlate',
    fun _ _ _ => hs.mem_actions_iff hlate⟩

/-! ## A clock -/

open Lifted in
/-- A clock that may be seen to run, with the numbers `tension` and `charge`. -/
def clock (facts : List Fact) (operators : List Operator) : Problem where
  task := { Task.ofPropositions [] [] with
    functions := #[⟨"seen", [], [TypeId.boolean]⟩, ⟨"tension", [], [TypeId.number]⟩,
      ⟨"charge", [], [TypeId.number]⟩]
    init := facts }
  operators := operators

/-- Seeing the clock run needs a number to be positive. -/
def watch (name : String) (number : Nat) : Lifted.Operator :=
  .ofHappenings name ⟨[], [⟨.greater, [.atom (.fluent ⟨⟨number⟩, []⟩), .atom (.number 0.0)]⟩],
    [.ofProposition 0 .truth], []⟩ .empty

/-- Winding the clock up should leave some tension. -/
def wind : Lifted.Operator :=
  { Lifted.Operator.ofHappenings "wind" .empty .empty with
    preferences :=
      [⟨"wound", .compare .greater (.atom (.fluent ⟨⟨1⟩, []⟩)) (.atom (.number 0.0))⟩] }

/-- Nothing creates the tension of a clock that is charged. It can be seen to run by its charge
only, whichever operator comes first. -/
theorem charged_clock_in_both_orders :
    let fact : Lifted.Fact := ⟨⟨2⟩, [], .number 1.0, 0.0⟩
    let p := clock [fact] [watch "watch" 1, watch "look" 2]
    let q := clock [fact] [watch "look" 2, watch "watch" 1]
    ∃ t t', ground p true = .ok t ∧ ground q true = .ok t' ∧
      RelatedUpToOrder (IsCounterpart p q (namingOf t) (namingOf t')) t.actions t'.actions ∧
      t.actions.length = 1 ∧ ∃ a ∈ t.actions, a.operator = 1 ∧ a.arguments = [] := by
  intro fact p q
  have hrun : ∃ t ∈ (ground p true).toOption, (∀ x ∈ allInstances p, ∀ l ∈ numericLiterals x.2.1,
        atomsOf t l.function (l.arguments.map (denote x.2.2)) →
          HasFact p l.function (l.arguments.map (denote x.2.2))) ∧
      t.actions.length = 1 ∧ ∃ a ∈ t.actions, a.operator = 1 ∧ a.arguments = [] := by
    decide +kernel
  have hrun' : ∃ t ∈ (ground q true).toOption, ∀ x ∈ allInstances q, ∀ l ∈ numericLiterals x.2.1,
        atomsOf t l.function (l.arguments.map (denote x.2.2)) →
          HasFact q l.function (l.arguments.map (denote x.2.2)) := by
    decide +kernel
  obtain ⟨t, ht, hlate, hlength, hmem⟩ := hrun
  obtain ⟨t', ht', hlate'⟩ := hrun'
  have hground := eq_ok_of_mem_toOption ht
  have hground' := eq_ok_of_mem_toOption ht'
  have hrelated := (ground_of_perm (p := p) (by decide +kernel) (.swap _ _ []) hground hground'
    (hasNoLateVariables_of_forall hlate) (hasNoLateVariables_of_forall hlate')).2.1 false
  exact ⟨t, t', hground, hground', hrelated, hlength, hmem⟩

/-- The tension is created when the clock is wound up. If that is looked at after watching the
clock, watching is given up although the tension exists in the end; in the other order it is not. -/
theorem exists_order_that_matters :
    let p := clock [] [watch "watch" 1, wind]
    let q := clock [] [wind, watch "watch" 1]
    HasDistinctNames p ∧ p.operators.Perm q.operators ∧
      ∃ t t', ground p true = .ok t ∧ ground q true = .ok t' ∧ atomsOf t ⟨1⟩ [] ∧
        (∀ a ∈ t.actions, a.operator ≠ 0) ∧
        ¬RelatedUpToOrder (IsCounterpart p q (namingOf t) (namingOf t')) t.actions t'.actions := by
  intro p q
  have hrun : ∃ t ∈ (ground p true).toOption, atomsOf t ⟨1⟩ [] ∧
      (∀ a ∈ t.actions, a.operator ≠ 0) ∧ t.actions.length = 1 := by
    decide +kernel
  have hrun' : ∃ t ∈ (ground q true).toOption, t.actions.length = 2 := by
    decide +kernel
  obtain ⟨t, ht, hcreated, hnone, hlength⟩ := hrun
  obtain ⟨t', ht', hlength'⟩ := hrun'
  refine ⟨by decide +kernel, .swap _ _ [], t, t', eq_ok_of_mem_toOption ht,
    eq_ok_of_mem_toOption ht', hcreated, hnone, fun hrelated => ?_⟩
  have hsame := hrelated.length_eq
  omega

end Grounding

end TemporalPlanning
