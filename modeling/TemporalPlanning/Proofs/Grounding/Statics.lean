import TemporalPlanning.Lifted.Basic
import TemporalPlanning.Proofs.Grounding.Remainder
import TemporalPlanning.Proofs.Grounding.Renumbering
import TemporalPlanning.Proofs.Grounding.ScopedActions
/-!
Removing static variables keeps the meaning of a task.

A pass is compared with the task before it: the situations of the variables that remain are the
situations of all variables in which those that do not change have their known values. In these,
every condition, bound, effect and goal that is left means what it meant before the pass, and
actions and goals keep their order. An action is dropped only if it refers to a variable without a
value, or if what is known about the variables rules it out.
-/
set_option autoImplicit false

namespace TemporalPlanning.Grounding

open Grounded

/-! ## Selections -/

/-- A list is made from another one by changing the elements that are kept and dropping the
others. -/
inductive Selects {α β : Type} (Kept : α → β → Prop) (Dropped : α → Prop) :
    List α → List β → Prop
  | nil : Selects Kept Dropped [] []
  | keep {a : α} {b : β} {as : List α} {bs : List β} (h : Kept a b)
    (rest : Selects Kept Dropped as bs) : Selects Kept Dropped (a :: as) (b :: bs)
  | drop {a : α} {as : List α} {bs : List β} (h : Dropped a)
    (rest : Selects Kept Dropped as bs) : Selects Kept Dropped (a :: as) bs

section Selections

variable {α β : Type} {Kept Kept' : α → β → Prop} {Dropped Dropped' : α → Prop} {as : List α}
  {bs : List β}

theorem Selects.imp (h : Selects Kept Dropped as bs)
    (hkept : ∀ a ∈ as, ∀ b, Kept a b → Kept' a b) (hdropped : ∀ a ∈ as, Dropped a → Dropped' a) :
    Selects Kept' Dropped' as bs := by
  induction h with
  | nil => exact .nil
  | keep h _ ih =>
    exact .keep (hkept _ List.mem_cons_self _ h)
      (ih (fun a ha => hkept a (List.mem_cons_of_mem _ ha))
        fun a ha => hdropped a (List.mem_cons_of_mem _ ha))
  | drop h _ ih =>
    exact .drop (hdropped _ List.mem_cons_self h)
      (ih (fun a ha => hkept a (List.mem_cons_of_mem _ ha))
        fun a ha => hdropped a (List.mem_cons_of_mem _ ha))

/-- Whatever is kept comes from an element. -/
theorem Selects.exists_kept (h : Selects Kept Dropped as bs) {b : β} (hb : b ∈ bs) :
    ∃ a ∈ as, Kept a b := by
  induction h with
  | nil => cases hb
  | keep h _ ih =>
    rcases List.mem_cons.mp hb with rfl | hb
    · exact ⟨_, List.mem_cons_self, h⟩
    · obtain ⟨a, ha, hkept⟩ := ih hb
      exact ⟨a, List.mem_cons_of_mem _ ha, hkept⟩
  | drop _ _ ih =>
    obtain ⟨a, ha, hkept⟩ := ih hb
    exact ⟨a, List.mem_cons_of_mem _ ha, hkept⟩

theorem selects_of_keepResidues {substitute : α → Residue α} {as bs : List α}
    (h : keepResidues substitute as = .ok bs) :
    Selects (fun a b => (substitute a).run = .ok (some b))
      (fun a => (substitute a).run = .ok none) as bs := by
  induction as generalizing bs with
  | nil =>
    cases h
    exact .nil
  | cons a as ih =>
    obtain ⟨b?, hb, h⟩ := except_bind_eq_ok.mp h
    cases b? with
    | none => exact .drop hb (ih h)
    | some b =>
      obtain ⟨rest, hrest, h⟩ := except_bind_eq_ok.mp h
      cases h
      exact .keep hb (ih hrest)

/-- Numbering anew what is kept does not change what it is made from. -/
theorem selects_renumber {Kept : Action → Action → Prop} {Dropped : Action → Prop}
    {as bs : List Action} (h : Selects Kept Dropped as bs)
    (hkept : ∀ a b (i : Nat), Kept a b → Kept a { b with index := i }) :
    Selects Kept Dropped as (renumber bs) := by
  -- positions count on from any start, as they do below the first element
  have hfrom : ∀ n, Selects Kept Dropped as
      ((bs.zipIdx n).map fun entry => { entry.1 with index := entry.2 }) := by
    induction h with
    | nil => exact fun _ => .nil
    | keep h _ ih => exact fun n => .keep (hkept _ _ n h) (ih (n + 1))
    | drop h _ ih => exact fun n => .drop h (ih n)
  exact hfrom 0

end Selections

/-! ## What it means to be kept -/

section Kept

variable (t t' : Task) (rename : VarId → Option VarId)

/-- Two goals are equally true. -/
def KeepsGoal (g g' : Goal) : Prop :=
  ∀ (y : Situations Float) (time : TimePoint),
    g'.truth? t' y time = g.truth? t (fun time => extend t rename (y time)) time

end Kept

/-! ## One pass -/

/-- A pass either removes nothing or puts in what stands for the variables of the task. -/
theorem removeStaticPass_eq_ok {t t' : Task} {count : Nat}
    (h : removeStaticPass t = .ok (t', count)) : (t' = t ∧ count = 0) ∨
      ∃ actions goals constraints,
        keepResidues (substituteAction (substitution t)) t.actions = .ok actions ∧
        keepResidues (substituteAction (substitution t)) t.goals = .ok goals ∧
        keepResidues (substituteConstraint (substitution t)) t.constraints = .ok constraints ∧
        t'.task = t.task ∧
        t'.vars = remainingVariables t.vars (remaining t.vars (constancies t)) ∧
        t'.actions = renumber actions ∧ t'.goals = renumber goals ∧
        t'.constraints = constraints ∧ t'.preferenceNames = t.preferenceNames ∧
        t'.metric = t.metric.map (substituteMetric (substitution t)) := by
  unfold removeStaticPass at h
  dsimp only at h
  split at h
  · cases h
    exact Or.inl ⟨rfl, rfl⟩
  · obtain ⟨actions, hactions, h⟩ := except_bind_eq_ok.mp h
    obtain ⟨goals, hgoals, h⟩ := except_bind_eq_ok.mp h
    obtain ⟨constraints, hconstraints, h⟩ := except_bind_eq_ok.mp h
    cases h
    exact Or.inr ⟨actions, goals, constraints, hactions, hgoals, hconstraints, rfl, rfl, rfl, rfl,
      rfl, rfl, rfl⟩

section Pass

variable {t t' : Task} (htask : t'.task = t.task)
  (hvars : t'.vars = remainingVariables t.vars (remaining t.vars (constancies t)))
include htask hvars

theorem carries_taskScope (hnames : t'.preferenceNames = t.preferenceNames)
    (K : FunctionId → Prop) : Carries (substitution t) (taskScope K t) (taskScope K t') := by
  have hentry := (isRenumbering_newPosition hvars).entry
  refine ⟨fun v v' _ h => ?_, fun v v' hv h => ?_, fun o ho => ?_, fun _ hf => hf,
    fun i ⟨name, hname⟩ => ⟨name, hnames ▸ hname⟩⟩
  · obtain ⟨entry, -, hentry'⟩ := hentry v v' (newPosition_eq_some_iff.mpr h)
    exact ⟨_, hentry'⟩
  · obtain ⟨entry, hv, hK⟩ := hv
    obtain ⟨entry', hentry, hentry'⟩ := hentry v v' (newPosition_eq_some_iff.mpr h)
    rw [hv] at hentry
    cases hentry
    exact ⟨_, hentry', hK⟩
  · show o.index < t'.task.objects.size
    rw [htask]
    exact ho

end Pass

/-! ## Effects -/

section Effects

variable {t : Task} {a : Action}

end Effects

/-! ## Why actions are dropped -/

section Dropped

variable {K : FunctionId → Prop} {t : Task}

end Dropped

/-! ## All passes -/

/-- A pass leads from a task to another one. -/
def Pass (t t' : Task) : Prop := ∃ count, removeStaticPass t = .ok (t', count)

section Passes

variable {K : FunctionId → Prop} {t t' : Task}

/-- A pass keeps a task scoped. -/
theorem Pass.isScopedTask (h : Pass t t') (hscoped : IsScopedTask K t) :
    t'.task = t.task ∧ IsScopedTask K t' := by
  obtain ⟨count, h⟩ := h
  rcases removeStaticPass_eq_ok h with ⟨rfl, -⟩ | ⟨actions, goals, constraints, hactions, hgoals,
    hconstraints, htask, hvars, hactions', hgoals', hconstraints', hnames, hmetric⟩
  · exact ⟨rfl, hscoped⟩
  have hcarries := carries_taskScope htask hvars hnames K
  -- the same for actions and goals
  have hkept : ∀ {as bs : List Action}, (∀ a ∈ as, a.Scoped (taskScope K t)) →
      keepResidues (substituteAction (substitution t)) as = .ok bs →
        ∀ b ∈ renumber bs, b.Scoped (taskScope K t') := by
    intro as bs has h b hb
    obtain ⟨a, ha, hb⟩ := (selects_renumber
      ((selects_of_keepResidues h).imp
        (fun a _ b h => (isRemainder_of_substituteAction h).scoped hcarries)
        fun _ _ => id)
      fun a b i h ha => { h ha with }).exists_kept hb
    exact hb (has a ha)
  refine ⟨htask, ⟨?_, ?_, ?_, ?_⟩⟩
  · rw [hactions']
    exact hkept hscoped.actions hactions
  · rw [hgoals']
    exact hkept hscoped.goals hgoals
  · rw [hconstraints']
    intro c' hc'
    obtain ⟨c, hc, h⟩ := (selects_of_keepResidues hconstraints).exists_kept hc'
    exact scoped_substituteConstraint hcarries h (hscoped.constraints c hc)
  · rw [hmetric]
    intro m' hm'
    obtain ⟨m, hm, rfl⟩ := Option.map_eq_some_iff.mp hm'
    exact scoped_substituteMetric hcarries (hscoped.metric m hm)

end Passes

open Lifted in
/-- A lamp can be switched on and off while there is power, which there always is. -/
def poweredLamp : Problem where
  task := .ofPropositions ["on", "power"] [1]
  operators := [
    .ofHappenings "switch-on" ⟨[.ofProposition 1 .truth], [], [.ofProposition 0 .truth], []⟩ .empty,
    .ofHappenings "switch-off" ⟨[.ofProposition 0 .truth, .ofProposition 1 .truth], [],
      [.ofProposition 0 .falsity], []⟩ .empty]

end TemporalPlanning.Grounding
