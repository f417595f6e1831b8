import TemporalPlanning.Grounding.Statics
import TemporalPlanning.Lifted.Basic
import TemporalPlanning.Proofs.Grounding.Resolution
/-!
What the order of its operands means for an instance of a conjunction or disjunction.

Operands are looked at from the left. An operand *stops* that if its own instance is an error, is
unresolved or decides the whole, and the result is then that of the first such operand. If no
operand stops, the operands are joined, and the goals joined hold if all or some of them do, in
whatever order they are joined. So the order matters if and only if there are operands that stop
with different outcomes.
-/
set_option autoImplicit false

namespace TemporalPlanning.Grounding

open Grounded

/-- The conjunction or disjunction of goals as they are written. -/
def junction (conjunction : Bool) (gs : List Goal) : Goal :=
  if conjunction then .and gs else .or gs

/-! ## Results -/

/-- What comes of a goal: an error, no instance as the goal is unresolved, or an instance. -/
inductive Outcome where
  | failed
  | unresolved
  | resolved
deriving DecidableEq

/-- The outcome of a computation of an instance. -/
def outcome : Except Error (Option Goal) → Outcome
  | .error _ => .failed
  | .ok none => .unresolved
  | .ok (some _) => .resolved

/-- Whether an operand of a conjunction or disjunction with this instance keeps the operands after
it from being looked at. -/
def stops (conjunction : Bool) : Except Error (Option Goal) → Bool
  | .ok (some (.constant holds)) => holds != conjunction
  | .ok (some _) => false
  | .ok none | .error _ => true

/-- Two computations fail, leave a goal unresolved, or give goals that hold in the same
situations. -/
def SameResult : Except Error (Option Goal) → Except Error (Option Goal) → Prop
  | .error _, .error _ => True
  | .ok none, .ok none => True
  | .ok (some g), .ok (some g') => ∀ x time, g.Holds x time ↔ g'.Holds x time
  | _, _ => False

theorem SameResult.outcome_eq {y y' : Except Error (Option Goal)} (h : SameResult y y') :
    outcome y = outcome y' := by
  match y, y', h with
  | .error _, .error _, _ => rfl
  | .ok none, .ok none, _ => rfl
  | .ok (some _), .ok (some _), _ => rfl

section

variable {conjunction : Bool} {y y' : Except Error (Option Goal)}

/-- An instance that stops is the constant that decides. -/
theorem eq_constant_of_stops {g : Goal} (h : stops conjunction (.ok (some g))) :
    g = .constant !conjunction := by
  cases g with
  | constant holds =>
    rw [stops, bne_iff_ne] at h
    rw [Bool.eq_not_of_ne h]
  | _ => cases h

theorem exists_eq_of_not_stops (h : ¬stops conjunction y) : ∃ g, y = .ok (some g) := by
  match y with
  | .ok (some g) => exact ⟨g, rfl⟩
  | .ok none => exact absurd rfl h
  | .error _ => exact absurd rfl h

/-- There is only one way to stop with each outcome. -/
theorem sameResult_of_stops (hy : stops conjunction y) (hy' : stops conjunction y')
    (h : outcome y = outcome y') : SameResult y y' := by
  match y, y' with
  | .error _, .error _ => trivial
  | .ok none, .ok none => trivial
  | .ok (some g), .ok (some g') =>
    intro x time
    rw [eq_constant_of_stops hy, eq_constant_of_stops hy']
  | .error _, .ok none => cases h
  | .error _, .ok (some _) => cases h
  | .ok none, .error _ => cases h
  | .ok none, .ok (some _) => cases h
  | .ok (some _), .error _ => cases h
  | .ok (some _), .ok none => cases h

end

/-! ## Looking at operands from the left -/

section

variable {setting : Setting} {vars : VariableTable} {bindings : List ObjectId}
  {conjunction : Bool}

theorem instantiate_junction (gs : List Goal) :
    instantiate setting vars bindings (junction conjunction gs) =
      instantiateAll setting vars bindings conjunction gs [] := by
  cases conjunction
  · rw [junction, if_neg Bool.false_ne_true, instantiate]
  · rw [junction, if_pos rfl, instantiate]

theorem instantiateAll_cons_of_stops {g : Goal}
    (h : stops conjunction (instantiate setting vars bindings g)) (gs terms : List Goal) :
    instantiateAll setting vars bindings conjunction (g :: gs) terms =
      instantiate setting vars bindings g := by
  rw [instantiateAll]
  match hg : instantiate setting vars bindings g with
  | .error _ => rfl
  | .ok none => rfl
  | .ok (some g') =>
    rw [hg] at h
    obtain rfl := eq_constant_of_stops h
    exact if_pos h

theorem exists_instantiateAll_cons_eq {g : Goal}
    (h : ¬stops conjunction (instantiate setting vars bindings g)) (gs terms : List Goal) :
    ∃ terms', instantiateAll setting vars bindings conjunction (g :: gs) terms =
      instantiateAll setting vars bindings conjunction gs terms' := by
  obtain ⟨g', hg⟩ := exists_eq_of_not_stops h
  rw [hg] at h
  rw [instantiateAll, hg]
  cases g' with
  | constant holds => exact ⟨terms, if_neg h⟩
  | _ => exact ⟨_, rfl⟩

/-- If some operands stop, the result is that of one of them. -/
theorem exists_instantiateAll_eq {gs : List Goal}
    (h : ∃ g ∈ gs, stops conjunction (instantiate setting vars bindings g))
    (terms : List Goal) : ∃ g ∈ gs, stops conjunction (instantiate setting vars bindings g) ∧
      instantiateAll setting vars bindings conjunction gs terms =
        instantiate setting vars bindings g := by
  induction gs generalizing terms with
  | nil =>
    obtain ⟨g, hg, _⟩ := h
    cases hg
  | cons g gs ih =>
    by_cases hstops : stops conjunction (instantiate setting vars bindings g)
    · exact ⟨g, List.mem_cons_self, hstops, instantiateAll_cons_of_stops hstops gs terms⟩
    · have hrest : ∃ g' ∈ gs, stops conjunction (instantiate setting vars bindings g') := by
        obtain ⟨g', hg', hstops'⟩ := h
        rcases List.mem_cons.mp hg' with rfl | hg'
        · exact absurd hstops' hstops
        · exact ⟨g', hg', hstops'⟩
      obtain ⟨terms', heq⟩ := exists_instantiateAll_cons_eq hstops gs terms
      obtain ⟨g', hg', hstops', heq'⟩ := ih hrest terms'
      exact ⟨g', List.mem_cons_of_mem g hg', hstops', heq.trans heq'⟩

/-- If no operand stops, all of them have instances. -/
theorem exists_instances {gs : List Goal}
    (h : ∀ g ∈ gs, ¬stops conjunction (instantiate setting vars bindings g)) :
    ∃ hs, List.Forall₂ (fun g h => instantiate setting vars bindings g = .ok (some h)) gs hs := by
  induction gs with
  | nil => exact ⟨[], .nil⟩
  | cons g gs ih =>
    obtain ⟨hg, hgs⟩ := List.forall_mem_cons.mp h
    obtain ⟨g', hg'⟩ := exists_eq_of_not_stops hg
    obtain ⟨hs, hhs⟩ := ih hgs
    exact ⟨g' :: hs, .cons hg' hhs⟩

/-- If no operand stops, the result holds where the instances of all or some operands do. -/
theorem exists_instance_of_junction {gs : List Goal}
    (h : ∀ g ∈ gs, ¬stops conjunction (instantiate setting vars bindings g)) :
    ∃ g', instantiate setting vars bindings (junction conjunction gs) = .ok (some g') ∧
      ∀ x time, g'.Holds x time ↔ Joined conjunction (fun g =>
        ∃ g', instantiate setting vars bindings g = .ok (some g') ∧ g'.Holds x time) gs := by
  obtain ⟨hs, hhs⟩ := exists_instances h
  refine ⟨joinGoals conjunction hs [], ?_, fun x time => ?_⟩
  · rw [instantiate_junction, instantiateAll_eq hhs]
  · rw [holds_joinGoals, List.nil_append]
    refine joined_congr (hhs.imp fun g g' hg => ⟨fun hholds => ⟨g', hg, hholds⟩, ?_⟩)
    rintro ⟨g'', hg'', hholds⟩
    cases hg.symm.trans hg''
    exact hholds

theorem joined_perm {α : Type} {P : α → Prop} {as bs : List α} (h : as.Perm bs) :
    Joined conjunction P as ↔ Joined conjunction P bs := by
  cases conjunction <;> simp only [Joined, h.mem_iff]

/-- If the operands that stop agree, the order of operands makes no difference. -/
theorem sameResult_of_perm {gs gs' : List Goal} (hperm : gs.Perm gs')
    (hagree : ∀ g ∈ gs, ∀ g' ∈ gs, stops conjunction (instantiate setting vars bindings g) →
      stops conjunction (instantiate setting vars bindings g') →
        outcome (instantiate setting vars bindings g) =
          outcome (instantiate setting vars bindings g')) :
    SameResult (instantiate setting vars bindings (junction conjunction gs))
      (instantiate setting vars bindings (junction conjunction gs')) := by
  by_cases hstops : ∃ g ∈ gs, stops conjunction (instantiate setting vars bindings g)
  · -- both results are those of operands that stop, if not of the same one
    have hstops' : ∃ g ∈ gs', stops conjunction (instantiate setting vars bindings g) :=
      hstops.imp fun g hg => ⟨hperm.mem_iff.mp hg.1, hg.2⟩
    obtain ⟨g, hg, hstopsg, heq⟩ := exists_instantiateAll_eq hstops []
    obtain ⟨g', hg', hstopsg', heq'⟩ := exists_instantiateAll_eq hstops' []
    rw [instantiate_junction, instantiate_junction, heq, heq']
    exact sameResult_of_stops hstopsg hstopsg'
      (hagree g hg g' (hperm.mem_iff.mpr hg') hstopsg hstopsg')
  · have hopen : ∀ g ∈ gs, ¬stops conjunction (instantiate setting vars bindings g) :=
      fun g hg hstopsg => hstops ⟨g, hg, hstopsg⟩
    obtain ⟨h, hh, hholds⟩ := exists_instance_of_junction hopen
    obtain ⟨h', hh', hholds'⟩ :=
      exists_instance_of_junction fun g hg => hopen g (hperm.mem_iff.mpr hg)
    rw [hh, hh']
    intro x time
    rw [hholds, hholds', joined_perm hperm]

/-- Every operand can be looked at first. -/
theorem exists_perm_of_stops {gs : List Goal} {g : Goal} (hg : g ∈ gs)
    (h : stops conjunction (instantiate setting vars bindings g)) :
    ∃ gs', gs.Perm gs' ∧ instantiate setting vars bindings (junction conjunction gs') =
      instantiate setting vars bindings g := by
  obtain ⟨before, after, rfl⟩ := List.append_of_mem hg
  refine ⟨g :: (before ++ after), List.perm_middle, ?_⟩
  rw [instantiate_junction, instantiateAll_cons_of_stops h]

/-- **The order of operands makes no difference** to the instance of a conjunction or disjunction if
and only if all operands that stop have the same outcome: they all fail, are all unresolved or all
decide the whole. -/
theorem sameResult_perm_iff (setting : Setting) (vars : VariableTable) (bindings : List ObjectId)
    (conjunction : Bool) (gs : List Goal) :
    (∀ gs', gs.Perm gs' →
      SameResult (instantiate setting vars bindings (junction conjunction gs))
        (instantiate setting vars bindings (junction conjunction gs'))) ↔
    ∀ g ∈ gs, ∀ g' ∈ gs, stops conjunction (instantiate setting vars bindings g) →
      stops conjunction (instantiate setting vars bindings g') →
        outcome (instantiate setting vars bindings g) =
          outcome (instantiate setting vars bindings g') := by
  constructor
  · intro hsame g hg g' hg' hstops hstops'
    obtain ⟨gs₁, hperm₁, heq₁⟩ := exists_perm_of_stops hg hstops
    obtain ⟨gs₂, hperm₂, heq₂⟩ := exists_perm_of_stops hg' hstops'
    calc outcome (instantiate setting vars bindings g)
        = outcome (instantiate setting vars bindings (junction conjunction gs₁)) := by rw [heq₁]
      _ = outcome (instantiate setting vars bindings (junction conjunction gs)) :=
          (hsame gs₁ hperm₁).outcome_eq.symm
      _ = outcome (instantiate setting vars bindings (junction conjunction gs₂)) :=
          (hsame gs₂ hperm₂).outcome_eq
      _ = outcome (instantiate setting vars bindings g') := by rw [heq₂]
  · intro hagree gs' hperm
    exact sameResult_of_perm hperm hagree

end

/-! ## Staying at home -/

open Lifted in
/-- Someone who stays at home would like two things to be the case for every place. -/
def staying (first second : Lifted.Goal) : Problem where
  task := { Task.ofPropositions [] [] with
    types := #[⟨"#boolean", []⟩, ⟨"number", []⟩, ⟨"place", []⟩]
    objects := #[⟨"#false", [TypeId.boolean]⟩, ⟨"#true", [TypeId.boolean]⟩, ⟨"home", [⟨2⟩]⟩]
    functions := #[⟨"neighbour", [⟨"?x", [⟨2⟩]⟩], [⟨2⟩]⟩] }
  operators := [{ Lifted.Operator.ofHappenings "stay" .empty .empty with
    preferences := [⟨"p1", .universal [⟨"?x", [⟨2⟩]⟩] (.and [first, second])⟩,
      ⟨"p2", .universal [⟨"?x", [⟨2⟩]⟩] (.and [second, first])⟩] }]

/-- No place differs from itself, and no place has ever had a neighbour: there are no variables. A
conjunction is decided by the former if that is looked at first and unresolved by the latter if that
is. So of two preferences that differ in the order of operands, one is kept and the other one is
dropped. -/
theorem exists_operand_order_that_matters :
    let p := staying (.inequality (.param 0) (.param 0))
      (.compare .eq (.atom (.fluent ⟨⟨0⟩, [.param 0]⟩)) (.atom (.term (.object ⟨2⟩))))
    let differs : Goal := .equality false (.quantified 0) (.quantified 0)
    let neighbours : Goal := .ungroundedFluent ⟨0⟩ [.quantified 0] (.object ⟨2⟩) true
    let inst := instantiate (Setting.ofTask p.task) Registry.empty [⟨2⟩]
    (∃ t, ground p true = .ok t ∧ t.vars = #[] ∧ t.preferenceNames = ["p1", "p2"] ∧
      (t.actions.map fun a => a.preferences.map (·.nameIndex)) = [[0]]) ∧
    [differs, neighbours].Perm [neighbours, differs] ∧
      ¬SameResult (inst (junction true [differs, neighbours]))
        (inst (junction true [neighbours, differs])) := by
  intro p differs neighbours inst
  have hrun : ∃ t ∈ (ground p true).toOption, t.vars.toList.length = 0 ∧
      t.preferenceNames = ["p1", "p2"] ∧
      (t.actions.map fun a => a.preferences.map (·.nameIndex)) = [[0]] := by
    decide +kernel
  have hdifferent : outcome (inst (junction true [differs, neighbours])) ≠
      outcome (inst (junction true [neighbours, differs])) := by
    decide +kernel
  obtain ⟨t, ht, hvars, hnames, hkept⟩ := hrun
  exact ⟨⟨t, eq_ok_of_mem_toOption ht, Array.eq_empty_of_size_eq_zero hvars, hnames, hkept⟩,
    .swap _ _ [], fun hsame => hdifferent hsame.outcome_eq⟩

end TemporalPlanning.Grounding
