import Mathlib.Data.List.Perm.Basic
import TemporalPlanning.Proofs.Grounding.Contents
/-!
Actions that differ only in how variables are numbered, and lists that differ only in their order.

Two runs of grounding may create the same variables in different orders. Then actions of the one
correspond to actions of the other, and the positions of variables are related by standing for the
same function applied to the same objects. What is decided about an action after it has been found
does not depend on these positions, so it is decided alike for actions that correspond.
-/
set_option autoImplicit false

namespace TemporalPlanning

/-! ## Lists with related elements -/

section Lists

variable {α β γ δ : Type} {R : α → β → Prop} {S : α → γ → Prop}

/-- What is related to the same elements is related. -/
theorem forall₂_of_common {as : List α} {bs : List β} {cs : List γ} (h : List.Forall₂ R as bs)
    (h' : List.Forall₂ S as cs) : List.Forall₂ (fun b c => ∃ a ∈ as, R a b ∧ S a c) bs cs := by
  induction h generalizing cs with
  | nil =>
    cases h'
    exact .nil
  | cons hab _ ih =>
    cases h' with
    | cons hac h' =>
      refine .cons ⟨_, List.mem_cons_self, hab, hac⟩ ((ih h').imp ?_)
      exact fun b c ⟨a, ha, hb, hc⟩ => ⟨a, List.mem_cons_of_mem _ ha, hb, hc⟩

theorem any_eq_of_forall₂ {f : α → Bool} {g : β → Bool} {as : List α} {bs : List β}
    (h : List.Forall₂ (fun a b => g b = f a) as bs) : bs.any g = as.any f := by
  induction h with
  | nil => rfl
  | cons hhead _ ih => rw [List.any_cons, List.any_cons, hhead, ih]

/-- Whether a list is a certain pair can be told from a related list, if that is so for elements. -/
theorem eq_pair_iff_of_forall₂ {as : List α} {bs : List β} {a₁ a₂ : α} {b₁ b₂ : β}
    (h : List.Forall₂ R as bs) (h₁ : ∀ a b, R a b → (b = b₁ ↔ a = a₁))
    (h₂ : ∀ a b, R a b → (b = b₂ ↔ a = a₂)) : bs = [b₁, b₂] ↔ as = [a₁, a₂] := by
  cases h with
  | nil => simp
  | cons hab h =>
    cases h with
    | nil => simp
    | cons hab' h =>
      cases h with
      | nil => simp [h₁ _ _ hab, h₂ _ _ hab']
      | cons => simp

variable (R) in
/-- The elements of two lists are related one by one, once the second list has been rearranged. -/
def RelatedUpToOrder (as : List α) (bs : List β) : Prop :=
  ∃ cs, List.Forall₂ R as cs ∧ cs.Perm bs

namespace RelatedUpToOrder

variable {as : List α} {bs : List β}

theorem length_eq (h : RelatedUpToOrder R as bs) : as.length = bs.length :=
  let ⟨_, hrelated, hperm⟩ := h
  hrelated.length_eq.trans hperm.length_eq

/-- Elements that are told apart by keys are related by their keys, if the keys are the same. -/
theorem of_keys {κ : Type} {f : α → κ} {g : β → κ} (has : (as.map f).Nodup) (hbs : (bs.map g).Nodup)
    (h : ∀ k, k ∈ as.map f ↔ k ∈ bs.map g) :
    RelatedUpToOrder (fun a b => a ∈ as ∧ b ∈ bs ∧ f a = g b) as bs := by
  have hself : List.Forall₂ (fun k b => k = g b) (bs.map g) bs := by
    rw [List.forall₂_map_left_iff, List.forall₂_same]
    exact fun _ _ => rfl
  -- the keys are a rearrangement, which the elements follow
  obtain ⟨cs, hrelated, hperm⟩ :=
    List.perm_comp_forall₂ ((List.perm_ext_iff_of_nodup has hbs).mpr h) hself
  refine ⟨cs, ?_, hperm⟩
  -- which elements they come from is known on both sides
  rw [List.forall₂_map_left_iff] at hrelated
  have hright := (List.forall₂_and_left (p := (· ∈ bs)) cs as).mpr
    ⟨fun c hc => hperm.mem_iff.mp hc, List.Forall₂.flip hrelated⟩
  refine (List.forall₂_and_left as cs).mpr ⟨fun _ ha => ha, ?_⟩
  exact List.Forall₂.flip hright

/-- Both lists are replaced element by element. -/
theorem replace {as' : List γ} {bs' : List δ} {T : β → δ → Prop} {U : γ → δ → Prop}
    (h : RelatedUpToOrder R as bs) (has : List.Forall₂ S as as') (hbs : List.Forall₂ T bs bs')
    (hU : ∀ a b a' b', R a b → S a a' → T b b' → U a' b') : RelatedUpToOrder U as' bs' := by
  obtain ⟨cs, hrelated, hperm⟩ := h
  -- what replaces the elements of `bs` is rearranged as they are
  obtain ⟨ds, hcs, hperm'⟩ := List.perm_comp_forall₂ hperm hbs
  refine ⟨ds, ?_, hperm'⟩
  have hcommon := forall₂_of_common (forall₂_of_common hrelated has) hcs
  exact hcommon.imp fun a' b' ⟨c, _, ⟨a, _, hac, haa'⟩, hcb'⟩ => hU a c a' b' hac haa' hcb'

theorem filterMap {T : γ → δ → Prop} {f : α → Option γ} {g : β → Option δ}
    (h : RelatedUpToOrder R as bs) (hfg : ∀ a b, R a b → Option.Rel T (f a) (g b)) :
    RelatedUpToOrder T (as.filterMap f) (bs.filterMap g) := by
  obtain ⟨cs, hrelated, hperm⟩ := h
  exact ⟨cs.filterMap g, List.rel_filterMap (fun a b hab => hfg a b hab) hrelated,
    hperm.filterMap g⟩

theorem imp {T : α → β → Prop} (h : RelatedUpToOrder R as bs) (hT : ∀ a b, R a b → T a b) :
    RelatedUpToOrder T as bs :=
  let ⟨cs, hrelated, hperm⟩ := h
  ⟨cs, hrelated.imp hT, hperm⟩

end RelatedUpToOrder

end Lists

section Options

variable {α β γ δ : Type} {R : α → β → Prop} {x : Option α} {y : Option β}

theorem rel_imp {S : α → β → Prop} (h : Option.Rel R x y) (hS : ∀ a b, R a b → S a b) :
    Option.Rel S x y := by
  cases h with
  | none => exact .none
  | some h => exact .some (hS _ _ h)

theorem rel_bind {S : γ → δ → Prop} {f : α → Option γ} {g : β → Option δ} (h : Option.Rel R x y)
    (hfg : ∀ a b, R a b → Option.Rel S (f a) (g b)) : Option.Rel S (x >>= f) (y >>= g) := by
  cases h with
  | none => exact .none
  | some h => exact hfg _ _ h

end Options

/-- Two expressions that are related to a third are related, leaf by leaf. -/
theorem Expression.Related.of_common {α β γ : Type} {R : α → β → Prop} {S : α → γ → Prop}
    {T : β → γ → Prop} (hT : ∀ a b c, R a b → S a c → T b c) {e : Expression α}
    {e₁ : Expression β} {e₂ : Expression γ} (h₁ : e.Related R e₁) (h₂ : e.Related S e₂) :
    e₁.Related T e₂ := by
  induction e using operandsInduction generalizing e₁ e₂ with
  | atom a =>
    cases h₁ with
    | atom h₁ =>
      cases h₂ with
      | atom h₂ => exact .atom (hT _ _ _ h₁ h₂)
  | node op es ih =>
    cases h₁ with
    | node _ h₁ =>
      cases h₂ with
      | node _ h₂ =>
        exact .node op ((forall₂_of_common h₁ h₂).imp fun _ _ ⟨e, he, h, h'⟩ => ih e he h h')

/-! ## Renaming -/

namespace Grounded

variable (R : VarId → VarId → Prop)

/-- A condition or effect asks for the same value of a related variable. -/
structure Condition.IsRenaming (c d : Condition) : Prop where
  var : R c.var d.var
  value_eq : d.value = c.value

/-- A leaf is the same but for variables, which are related. -/
inductive Quantity.IsRenaming : Quantity → Quantity → Prop
  | number (x : Float) : IsRenaming (.number x) (.number x)
  | var {v w : VarId} (h : R v w) : IsRenaming (.var v) (.var w)
  | object (o : ObjectId) : IsRenaming (.object o) (.object o)
  | duration : IsRenaming .duration .duration
  | elapsed : IsRenaming .elapsed .elapsed

structure NumericCondition.IsRenaming (c d : NumericCondition) : Prop where
  comparator_eq : d.comparator = c.comparator
  terms : List.Forall₂ (Expression.Related (Quantity.IsRenaming R)) c.terms d.terms

structure NumericEffect.IsRenaming (e f : NumericEffect) : Prop where
  assignment_eq : f.assignment = e.assignment
  var : R e.var f.var
  expression : e.expression.Related (Quantity.IsRenaming R) f.expression

structure DurationBound.IsRenaming (b c : DurationBound) : Prop where
  time_eq : c.time = b.time
  comparator_eq : c.comparator = b.comparator
  expression : b.expression.Related (Quantity.IsRenaming R) c.expression

/-- Two actions have the same name and arguments and, but for their variables, which are related,
the same bounds, conditions and effects, in the same order. -/
structure Action.IsRenaming (a b : Action) : Prop where
  name_eq : b.name = a.name
  arguments_eq : b.arguments = a.arguments
  isGoal_eq : b.isGoal = a.isGoal
  durations : List.Forall₂ (DurationBound.IsRenaming R) a.durations b.durations
  startConditions : List.Forall₂ (Condition.IsRenaming R) a.startConditions b.startConditions
  invariants : List.Forall₂ (Condition.IsRenaming R) a.invariants b.invariants
  endConditions : List.Forall₂ (Condition.IsRenaming R) a.endConditions b.endConditions
  startNumericConditions : List.Forall₂ (NumericCondition.IsRenaming R) a.startNumericConditions
    b.startNumericConditions
  numericInvariants : List.Forall₂ (NumericCondition.IsRenaming R) a.numericInvariants
    b.numericInvariants
  endNumericConditions : List.Forall₂ (NumericCondition.IsRenaming R) a.endNumericConditions
    b.endNumericConditions
  startEffects : List.Forall₂ (Condition.IsRenaming R) a.startEffects b.startEffects
  endEffects : List.Forall₂ (Condition.IsRenaming R) a.endEffects b.endEffects
  startNumericEffects : List.Forall₂ (NumericEffect.IsRenaming R) a.startNumericEffects
    b.startNumericEffects
  endNumericEffects : List.Forall₂ (NumericEffect.IsRenaming R) a.endNumericEffects
    b.endNumericEffects

end Grounded

namespace Grounding

open Grounded

/-! ## Actions that read the same -/

namespace Naming

variable (N N' : Naming)

/-- Two variables stand for the same function applied to the same objects. -/
def Common (v w : VarId) : Prop := ∃ f as, N v f as ∧ N' w f as

variable {N N'} {as : List ObjectId}

theorem Reads.isRenaming {c d : Condition} {v : ReachedValue} (h : N.Reads c v)
    (h' : N'.Reads d v) : c.IsRenaming (N.Common N') d :=
  ⟨⟨_, _, h.1, h'.1⟩, h'.2.trans h.2.symm⟩

/-- Two readings of a quantity differ in the variable at most. -/
theorem ReadsQuantity.isRenaming {q : Lifted.Quantity} {q₁ q₂ : Quantity}
    (h : N.ReadsQuantity as q q₁) (h' : N'.ReadsQuantity as q q₂) :
    q₁.IsRenaming (N.Common N') q₂ := by
  cases h with
  | number x =>
    cases h'
    exact .number x
  | term t =>
    cases h'
    exact .object _
  | fluent l v h =>
    cases h' with
    | fluent _ w h' => exact .var ⟨_, _, h, h'⟩
  | duration =>
    cases h'
    exact .duration
  | elapsed =>
    cases h'
    exact .elapsed

theorem ReadsExpression.isRenaming {e : Expression Lifted.Quantity} {e₁ e₂ : Expression Quantity}
    (h : N.ReadsExpression as e e₁) (h' : N'.ReadsExpression as e e₂) :
    e₁.Related (Quantity.IsRenaming (N.Common N')) e₂ :=
  h.of_common (fun _ _ _ hq hq' => hq.isRenaming hq') h'

theorem ReadsNumericCondition.isRenaming {c : Lifted.NumericCondition} {d₁ d₂ : NumericCondition}
    (h : N.ReadsNumericCondition as c d₁) (h' : N'.ReadsNumericCondition as c d₂) :
    d₁.IsRenaming (N.Common N') d₂ :=
  ⟨h'.comparator.trans h.comparator.symm, (forall₂_of_common h.terms h'.terms).imp
    fun _ _ ⟨_, _, he, he'⟩ => ReadsExpression.isRenaming he he'⟩

theorem ReadsNumericEffect.isRenaming {e : Lifted.NumericEffect} {d₁ d₂ : NumericEffect}
    (h : N.ReadsNumericEffect as e d₁) (h' : N'.ReadsNumericEffect as e d₂) :
    d₁.IsRenaming (N.Common N') d₂ :=
  ⟨h'.assignment.trans h.assignment.symm, ⟨_, _, h.var, h'.var⟩,
    ReadsExpression.isRenaming h.expression h'.expression⟩

theorem ReadsDurationBound.isRenaming {b : Lifted.DurationBound} {d₁ d₂ : DurationBound}
    (h : N.ReadsDurationBound as b d₁) (h' : N'.ReadsDurationBound as b d₂) :
    d₁.IsRenaming (N.Common N') d₂ :=
  ⟨h'.time.trans h.time.symm, h'.comparator.trans h.comparator.symm,
    ReadsExpression.isRenaming h.expression h'.expression⟩

/-- **Actions that read the same operator for the same objects** differ in their variables only. -/
theorem ReadsAction.isRenaming {op : Lifted.Operator} {a b : Action} (hname : b.name = a.name)
    (h : N.ReadsAction as op a) (h' : N'.ReadsAction as op b) : a.IsRenaming (N.Common N') b := by
  -- each of the four kinds of parts is read from the same lifted part twice
  have hconditions : ∀ {fluents cs ds},
      List.Forall₂ (fun c d => N.Reads d (instanceOf as c)) fluents cs →
      List.Forall₂ (fun c d => N'.Reads d (instanceOf as c)) fluents ds →
      List.Forall₂ (Condition.IsRenaming (N.Common N')) cs ds := fun h h' =>
    (forall₂_of_common h h').imp fun _ _ ⟨_, _, hc, hd⟩ => hc.isRenaming hd
  have heffects : ∀ {vs es fs}, List.Forall₂ N.Reads es vs → List.Forall₂ N'.Reads fs vs →
      List.Forall₂ (Condition.IsRenaming (N.Common N')) es fs := fun h h' =>
    (forall₂_of_common h.flip h'.flip).imp fun _ _ ⟨_, _, hc, hd⟩ => Reads.isRenaming hc hd
  have hnumericConditions : ∀ {cs ds₁ ds₂}, List.Forall₂ (N.ReadsNumericCondition as) cs ds₁ →
      List.Forall₂ (N'.ReadsNumericCondition as) cs ds₂ →
      List.Forall₂ (NumericCondition.IsRenaming (N.Common N')) ds₁ ds₂ := fun h h' =>
    (forall₂_of_common h h').imp fun _ _ ⟨_, _, hc, hd⟩ => hc.isRenaming hd
  have hnumericEffects : ∀ {es ds₁ ds₂}, List.Forall₂ (N.ReadsNumericEffect as) es ds₁ →
      List.Forall₂ (N'.ReadsNumericEffect as) es ds₂ →
      List.Forall₂ (NumericEffect.IsRenaming (N.Common N')) ds₁ ds₂ := fun h h' =>
    (forall₂_of_common h h').imp fun _ _ ⟨_, _, hc, hd⟩ => hc.isRenaming hd
  exact {
    name_eq := hname
    arguments_eq := h'.arguments_eq.trans h.arguments_eq.symm
    isGoal_eq := h'.isGoal_eq.trans h.isGoal_eq.symm
    durations := (forall₂_of_common h.durations h'.durations).imp
      fun _ _ ⟨_, _, hb, hb'⟩ => hb.isRenaming hb'
    startConditions := hconditions h.atStart.conditions h'.atStart.conditions
    invariants := hconditions h.invariants h'.invariants
    endConditions := hconditions h.atEnd.conditions h'.atEnd.conditions
    startNumericConditions :=
      hnumericConditions h.atStart.numericConditions h'.atStart.numericConditions
    numericInvariants := hnumericConditions h.numericInvariants h'.numericInvariants
    endNumericConditions := hnumericConditions h.atEnd.numericConditions h'.atEnd.numericConditions
    startEffects := heffects h.atStart.effects h'.atStart.effects
    endEffects := heffects h.atEnd.effects h'.atEnd.effects
    startNumericEffects := hnumericEffects h.atStart.numericEffects h'.atStart.numericEffects
    endNumericEffects := hnumericEffects h.atEnd.numericEffects h'.atEnd.numericEffects }

end Naming

/-! ## Deciding numeric conditions -/

section Deciding

variable {R : VarId → VarId → Prop}

/-- A condition is constant if it compares two numbers. -/
theorem NumericCondition.isConstant_iff {c : NumericCondition} : c.isConstant = true ↔
    ∃ x y, c.terms = [.atom (.number x), .atom (.number y)] := by
  unfold NumericCondition.isConstant
  split
  next x y h => exact iff_of_true rfl ⟨x, y, h⟩
  next hother => exact iff_of_false Bool.false_ne_true fun ⟨x, y, h⟩ => hother x y h

/-- A condition is violated if it compares two numbers and does not hold. -/
theorem NumericCondition.isViolated_iff {c : NumericCondition} : c.isViolated = true ↔
    ∃ x y, c.terms = [.atom (.number x), .atom (.number y)] ∧ c.comparator.holds x y = false := by
  unfold NumericCondition.isViolated
  split
  next x y h =>
    rw [Bool.not_eq_true', h]
    constructor
    · exact fun hholds => ⟨x, y, rfl, hholds⟩
    · rintro ⟨x', y', heq, hholds⟩
      cases heq
      exact hholds
  next hother => exact iff_of_false Bool.false_ne_true fun ⟨x, y, h, _⟩ => hother x y h

/-- Numbers are not renamed. -/
theorem eq_number_iff_of_related {e e' : Expression Quantity}
    (h : e.Related (Quantity.IsRenaming R) e') {x : Float} :
    e' = .atom (.number x) ↔ e = .atom (.number x) := by
  cases h with
  | atom h => cases h <;> simp
  | node => simp

theorem terms_eq_iff_of_isRenaming {c d : NumericCondition} (h : c.IsRenaming R d) {x y : Float} :
    d.terms = [.atom (.number x), .atom (.number y)] ↔
      c.terms = [.atom (.number x), .atom (.number y)] :=
  eq_pair_iff_of_forall₂ h.terms (fun _ _ h => eq_number_iff_of_related h)
    fun _ _ h => eq_number_iff_of_related h

/-- Renaming variables makes no condition constant. -/
theorem isConstant_eq_of_isRenaming {c d : NumericCondition} (h : c.IsRenaming R d) :
    d.isConstant = c.isConstant := by
  rw [Bool.eq_iff_iff, NumericCondition.isConstant_iff, NumericCondition.isConstant_iff]
  simp only [terms_eq_iff_of_isRenaming h]

/-- Renaming variables makes no condition violated. -/
theorem isViolated_eq_of_isRenaming {c d : NumericCondition} (h : c.IsRenaming R d) :
    d.isViolated = c.isViolated := by
  rw [Bool.eq_iff_iff, NumericCondition.isViolated_iff, NumericCondition.isViolated_iff]
  simp only [terms_eq_iff_of_isRenaming h, h.comparator_eq]

/-- The same conditions remain open, and the same lists have a violated one. -/
theorem openConditions_isRenaming {cs ds : List NumericCondition}
    (h : List.Forall₂ (NumericCondition.IsRenaming R) cs ds) :
    Option.Rel (List.Forall₂ (NumericCondition.IsRenaming R)) (openConditions cs)
      (openConditions ds) := by
  unfold openConditions
  rw [any_eq_of_forall₂ (h.imp fun _ _ => isViolated_eq_of_isRenaming)]
  split
  · exact .none
  · refine .some (List.rel_filter (fun c d hcd => ?_) h)
    show (!c.isConstant) = true ↔ (!d.isConstant) = true
    rw [isConstant_eq_of_isRenaming hcd]

/-- Constant conditions are decided alike. -/
theorem decideConditions_isRenaming {a b : Action} (h : a.IsRenaming R b) :
    Option.Rel (fun a' b' => a'.IsRenaming R b' ∧ a'.operator = a.operator ∧
      b'.operator = b.operator) (decideConditions a) (decideConditions b) := by
  refine rel_bind (openConditions_isRenaming h.startNumericConditions) fun cs₁ ds₁ h₁ => ?_
  refine rel_bind (openConditions_isRenaming h.numericInvariants) fun cs₂ ds₂ h₂ => ?_
  refine rel_bind (openConditions_isRenaming h.endNumericConditions) fun cs₃ ds₃ h₃ => ?_
  exact .some ⟨{ h with
    startNumericConditions := h₁, numericInvariants := h₂, endNumericConditions := h₃ }, rfl, rfl⟩

end Deciding

end Grounding

end TemporalPlanning
