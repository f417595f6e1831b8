import TemporalPlanning.Proofs.Grounding.LiftedGoals
import TemporalPlanning.Proofs.Grounding.Quantifier
import TemporalPlanning.Proofs.Satisfaction
/-!
Instances of quantified goals mean what the quantifiers mean.

Lists of goals and quantifiers are looked at one goal or instance after the other. If none of these
is unresolved, both come down to `joinGoals`: what is decided either decides the whole or is taken
out. The goals joined in this way hold exactly if all of them do, or some of them.
-/
set_option autoImplicit false

namespace TemporalPlanning.Grounded.Goal

/-- A plain goal that holds exactly where a property does. -/
structure Expresses (g : Goal) (P : Situations Float → TimePoint → Prop) : Prop where
  plain : g.IsPlain
  holds_iff : ∀ x time, g.Holds x time ↔ P x time

section

variable {g h : Goal} {P Q : Situations Float → TimePoint → Prop}

theorem Expresses.congr (hg : g.Expresses P) (hPQ : ∀ x time, P x time ↔ Q x time) :
    g.Expresses Q :=
  ⟨hg.plain, fun x time => (hg.holds_iff x time).trans (hPQ x time)⟩

theorem expresses_constant {holds : Bool} (h : ∀ x time, P x time ↔ holds = true) :
    (constant holds).Expresses P := by
  refine ⟨?_, fun x time => holds_constant.trans (h x time).symm⟩
  rw [IsPlain]
  trivial

/-- A decided goal expresses what is the case everywhere or nowhere. -/
theorem Expresses.iff_of_constant {holds : Bool} (h : (constant holds).Expresses P)
    (x : Situations Float) (time : TimePoint) : P x time ↔ holds = true :=
  (h.holds_iff x time).symm.trans holds_constant

theorem expresses_fluent {v : VarId} {o : ObjectId} {equal : Bool}
    (h : ∀ x time, P x time ↔
      ∃ o', (x time).objects v = some o' ∧ (o' = o ↔ equal = true)) :
    (fluent v o equal).Expresses P := by
  refine ⟨?_, fun x time => ?_⟩
  · rw [IsPlain]
    trivial
  · rw [Holds, h]

theorem Expresses.not (hg : g.Expresses P) : (Goal.not g).Expresses fun x time => ¬P x time := by
  refine ⟨?_, fun x time => ?_⟩
  · rw [IsPlain]
    exact hg.plain
  · rw [holds_not, hg.holds_iff]

theorem Expresses.timed (hg : g.Expresses P) (time : TimePoint) :
    (Goal.timed time g).Expresses fun x _ => P x time := by
  refine ⟨?_, fun x time' => ?_⟩
  · rw [IsPlain]
    exact hg.plain
  · rw [holds_timed, hg.holds_iff]

/-- An implication is the disjunction of its conclusion and the negation of its premise. -/
theorem Expresses.imply (hg : g.Expresses P) (hh : h.Expresses Q) :
    (Goal.or [.not g, h]).Expresses fun x time => P x time → Q x time := by
  refine ⟨?_, fun x time => ?_⟩
  · rw [IsPlain, ArePlain, ArePlain, IsPlain]
    exact ⟨hg.plain, hh.plain, trivial⟩
  · rw [Holds, HoldsAny, HoldsAny, HoldsAny, holds_not, hg.holds_iff, hh.holds_iff, or_false]
    exact imp_iff_not_or.symm

end

end TemporalPlanning.Grounded.Goal

namespace TemporalPlanning.Grounding

open Grounded

/-! ## Joining goals -/

section Joining

variable {α β : Type}

/-- All elements of a list have a property, or some do. -/
def Joined (conjunction : Bool) (P : α → Prop) (as : List α) : Prop :=
  match conjunction with
  | true => ∀ a ∈ as, P a
  | false => ∃ a ∈ as, P a

variable {conjunction : Bool} {P : α → Prop} {as bs : List α}

theorem joined_append_singleton {a : α} :
    Joined conjunction P (as ++ a :: bs) ↔ Joined conjunction P ((as ++ [a]) ++ bs) := by
  rw [List.append_assoc, List.singleton_append]

/-- An element with the value of the empty list makes no difference. -/
theorem joined_of_neutral {a : α} (ha : P a ↔ conjunction = true) :
    Joined conjunction P (as ++ a :: bs) ↔ Joined conjunction P (as ++ bs) := by
  cases conjunction <;>
    simp [Joined, ha, or_imp, forall_and, or_and_right, exists_or]

/-- An element with the other value decides. -/
theorem joined_of_decisive {a : α} {holds : Bool} (ha : P a ↔ holds = true)
    (hne : holds ≠ conjunction) : Joined conjunction P (as ++ a :: bs) ↔ holds = true := by
  cases conjunction <;> cases holds <;>
    simp_all [Joined, or_imp, forall_and, or_and_right, exists_or]

theorem joined_congr {Q : β → Prop} {cs : List β} (h : List.Forall₂ (fun a b => Q b ↔ P a) as cs) :
    Joined conjunction Q cs ↔ Joined conjunction P as := by
  induction h with
  | nil => cases conjunction <;> simp [Joined]
  | cons hhead _ ih => cases conjunction <;> simp_all [Joined]

end Joining

/-- The conjunction or disjunction of goals, of which `terms` are the ones already looked at that
are left open. -/
def joinGoals (conjunction : Bool) : List Goal → List Goal → Goal
  | [], terms => combineGoals conjunction terms
  | .constant holds :: rest, terms =>
    if holds != conjunction then .constant holds else joinGoals conjunction rest terms
  | goal :: rest, terms => joinGoals conjunction rest (terms ++ [goal])

section JoinGoals

variable {conjunction : Bool}

theorem holds_combineGoals {gs : List Goal} {x : Situations Float} {time : TimePoint} :
    (combineGoals conjunction gs).Holds x time ↔
      Joined conjunction (fun g => g.Holds x time) gs := by
  unfold combineGoals
  split
  · rw [Goal.holds_constant]
    cases conjunction <;> simp [Joined]
  · cases conjunction <;> simp [Joined]
  · cases conjunction
    · rw [if_neg Bool.false_ne_true, Goal.Holds]
      exact Goal.holdsAny_iff
    · rw [if_pos rfl, Goal.Holds]
      exact Goal.holdsAll_iff

theorem isPlain_combineGoals {gs : List Goal} (hgs : ∀ g ∈ gs, g.IsPlain) :
    (combineGoals conjunction gs).IsPlain := by
  unfold combineGoals
  split
  · rw [Goal.IsPlain]
    trivial
  next g => exact hgs g (List.mem_singleton_self g)
  · split
    all_goals
      rw [Goal.IsPlain]
      exact Goal.arePlain_iff.mpr hgs

/-- The goal looked at next decides the whole, is taken out, or joins the terms. -/
theorem joinGoals_cons (conjunction : Bool) (g : Goal) (gs terms : List Goal) :
    (∃ holds, holds ≠ conjunction ∧ g = .constant holds ∧
      joinGoals conjunction (g :: gs) terms = .constant holds) ∨
    (g = .constant conjunction ∧
      joinGoals conjunction (g :: gs) terms = joinGoals conjunction gs terms) ∨
    joinGoals conjunction (g :: gs) terms = joinGoals conjunction gs (terms ++ [g]) := by
  cases g with
  | constant holds =>
    rw [joinGoals]
    by_cases hsame : holds = conjunction
    · exact .inr (.inl ⟨by rw [hsame], if_neg (by simp [hsame])⟩)
    · exact .inl ⟨holds, hsame, rfl, if_pos (bne_iff_ne.mpr hsame)⟩
  | _ => exact .inr (.inr rfl)

/-- Joining goals takes out what is decided, and nothing else. -/
theorem holds_joinGoals {gs terms : List Goal} {x : Situations Float} {time : TimePoint} :
    (joinGoals conjunction gs terms).Holds x time ↔
      Joined conjunction (fun g => g.Holds x time) (terms ++ gs) := by
  induction gs generalizing terms with
  | nil =>
    rw [joinGoals, List.append_nil]
    exact holds_combineGoals
  | cons g gs ih =>
    rcases joinGoals_cons conjunction g gs terms with ⟨holds, hne, rfl, heq⟩ | ⟨rfl, heq⟩ | heq
    · rw [heq, Goal.holds_constant, joined_of_decisive Goal.holds_constant hne]
    · rw [heq, ih, joined_of_neutral Goal.holds_constant]
    · rw [heq, ih, joined_append_singleton]

theorem isPlain_joinGoals {gs terms : List Goal} (hgs : ∀ g ∈ gs, g.IsPlain)
    (hterms : ∀ g ∈ terms, g.IsPlain) : (joinGoals conjunction gs terms).IsPlain := by
  induction gs generalizing terms with
  | nil =>
    rw [joinGoals]
    exact isPlain_combineGoals hterms
  | cons g gs ih =>
    obtain ⟨hg, hrest⟩ := List.forall_mem_cons.mp hgs
    rcases joinGoals_cons conjunction g gs terms with ⟨holds, _, rfl, heq⟩ | ⟨_, heq⟩ | heq
    · rw [heq]
      exact hg
    · rw [heq]
      exact ih hrest hterms
    · rw [heq]
      refine ih hrest fun g' hg' => ?_
      rcases List.mem_append.mp hg' with hg' | hg'
      · exact hterms g' hg'
      · rw [List.mem_singleton.mp hg']
        exact hg

/-- Joined goals that express something each express that all or some of it holds. -/
theorem joinGoals_expresses_joined {α : Type} {P : α → Situations Float → TimePoint → Prop}
    {as : List α} {gs : List Goal} (h : List.Forall₂ (fun a g => g.Expresses (P a)) as gs) :
    (joinGoals conjunction gs []).Expresses fun x time =>
      Joined conjunction (fun a => P a x time) as := by
  have hplain : ∀ g ∈ gs, g.IsPlain := fun g hg =>
    let ⟨_, _, hexpresses⟩ := exists_of_forall₂ h hg
    hexpresses.plain
  refine ⟨isPlain_joinGoals hplain fun g hg => (by cases hg), fun x time => ?_⟩
  rw [holds_joinGoals, List.nil_append]
  exact joined_congr (h.imp fun a g hg => hg.holds_iff x time)

end JoinGoals

/-! ## Resolved goals -/

/-- A computation of a goal succeeds, the goal is not unresolved, and it expresses a property. -/
def Resolves (y : Except Error (Option Goal)) (P : Situations Float → TimePoint → Prop) : Prop :=
  ∃ g, y = .ok (some g) ∧ g.Expresses P

theorem Resolves.congr {y : Except Error (Option Goal)}
    {P Q : Situations Float → TimePoint → Prop} (h : Resolves y P)
    (hPQ : ∀ x time, P x time ↔ Q x time) : Resolves y Q :=
  h.imp fun _ ⟨hg, hexpresses⟩ => ⟨hg, hexpresses.congr hPQ⟩

/-- What has been computed before is computed first. -/
theorem resolves_bind {α : Type} {x : Except Error α} {f : α → Except Error (Option Goal)} {a : α}
    {P : Situations Float → TimePoint → Prop} (hx : x = .ok a) (h : Resolves (f a) P) :
    Resolves (x >>= f) P :=
  h.imp fun _ ⟨hg, hexpresses⟩ => ⟨except_bind_eq_ok.mpr ⟨a, hx, hg⟩, hexpresses⟩

section Resolved

variable {setting : Setting} {vars : VariableTable} {bindings : List ObjectId}
  {conjunction : Bool}

/-- Goals that can all be resolved are joined. -/
theorem instantiateAll_eq {gs hs : List Goal}
    (h : List.Forall₂ (fun g h => instantiate setting vars bindings g = .ok (some h)) gs hs)
    (terms : List Goal) : instantiateAll setting vars bindings conjunction gs terms =
      .ok (some (joinGoals conjunction hs terms)) := by
  induction h generalizing terms with
  | nil =>
    rw [instantiateAll, joinGoals]
    rfl
  | @cons g g' gs hs hhead _ ih =>
    rw [instantiateAll]
    refine except_bind_eq_ok.mpr ⟨_, hhead, ?_⟩
    cases g' with
    | constant holds =>
      rw [joinGoals]
      dsimp only
      split
      · rfl
      · exact ih terms
    | _ => exact ih _

/-- Instances that can all be resolved are joined. -/
theorem instantiateOver_eq {f : List ObjectId → Except Error (Option Goal)}
    {instances : List (List ObjectId)} {hs : List Goal}
    (h : List.Forall₂ (fun c h => f c = .ok (some h)) instances hs) {unresolved : Bool}
    (hunresolved : unresolved = true → instances ≠ []) (terms : List Goal) :
    instantiateOver conjunction f instances unresolved terms =
      .ok (some (joinGoals conjunction hs terms)) := by
  induction h generalizing unresolved terms with
  | nil =>
    have hresolved : ¬unresolved = true := fun h => hunresolved h rfl
    rw [instantiateOver, if_neg hresolved, joinGoals]
    rfl
  | @cons c g' cs hs hhead _ ih =>
    rw [instantiateOver]
    refine except_bind_eq_ok.mpr ⟨_, hhead, ?_⟩
    cases g' with
    | constant holds =>
      rw [joinGoals]
      dsimp only
      split
      · rfl
      · exact ih (fun h => by cases h) terms
    | _ => exact ih (fun h => by cases h) _

theorem exists_goals_of_resolves {α : Type} {f : α → Except Error (Option Goal)}
    {P : α → Situations Float → TimePoint → Prop} {as : List α}
    (h : ∀ a ∈ as, Resolves (f a) (P a)) :
    ∃ hs, List.Forall₂ (fun a g => f a = .ok (some g)) as hs ∧
      List.Forall₂ (fun a g => g.Expresses (P a)) as hs := by
  induction as with
  | nil => exact ⟨[], .nil, .nil⟩
  | cons a as ih =>
    obtain ⟨⟨g, hg, hexpresses⟩, has⟩ := List.forall_mem_cons.mp h
    obtain ⟨hs, hhs, hexpress⟩ := ih has
    exact ⟨g :: hs, .cons hg hhs, .cons hexpresses hexpress⟩

theorem mem_combinations_iff_admits {task : Lifted.Task} {parameters : List Lifted.Parameter}
    {c : List ObjectId} :
    c ∈ combinations (Setting.ofTask task) (parameters.map (·.types)) ↔
      task.Admits parameters c := by
  rw [mem_combinations, List.forall₂_map_left_iff, Lifted.Task.Admits]

/-- The instances of a goal over all objects for the parameters of a quantifier are joined. -/
theorem instantiateOver_resolves {task : Lifted.Task} {parameters : List Lifted.Parameter}
    {f : List ObjectId → Except Error (Option Goal)}
    {P : List ObjectId → Situations Float → TimePoint → Prop}
    (h : ∀ more, task.Admits parameters more → Resolves (f more) (P more)) :
    let instances := combinations (Setting.ofTask task) (parameters.map (·.types))
    Resolves (instantiateOver conjunction f instances (!instances.isEmpty) []) fun x time =>
      Joined conjunction (fun more => P more x time) instances := by
  intro instances
  have hinstances : ∀ more ∈ instances, Resolves (f more) (P more) := fun more hmore =>
    h more (mem_combinations_iff_admits.mp hmore)
  obtain ⟨hs, hhs, hexpress⟩ := exists_goals_of_resolves hinstances
  refine ⟨_, instantiateOver_eq hhs (fun hsome hempty => ?_) [],
    joinGoals_expresses_joined hexpress⟩
  rw [hempty] at hsome
  cases hsome

/-- An implication is decided as far as its sides are. -/
theorem implyGoal_resolves {premise : Goal} {P Q : Situations Float → TimePoint → Prop}
    {conclusion : Unit → Except Error (Option Goal)} (hpremise : premise.Expresses P)
    (hconclusion : Resolves (conclusion ()) Q) :
    Resolves (implyGoal premise conclusion) fun x time => P x time → Q x time := by
  obtain ⟨h, hh, hexpresses⟩ := hconclusion
  unfold implyGoal
  split
  · refine ⟨_, rfl, Goal.expresses_constant fun x time => ?_⟩
    simp [hpremise.iff_of_constant]
  · refine ⟨h, hh, hexpresses.congr fun x time => ?_⟩
    simp [hpremise.iff_of_constant]
  · rw [hh]
    cases h with
    | constant holds =>
      cases holds
      · refine ⟨_, rfl, hpremise.not.congr fun x time => ?_⟩
        simp [hexpresses.iff_of_constant]
      · refine ⟨_, rfl, Goal.expresses_constant fun x time => ?_⟩
        simp [hexpresses.iff_of_constant]
    | _ => exact ⟨_, rfl, hpremise.imply hexpresses⟩

end Resolved

end TemporalPlanning.Grounding
