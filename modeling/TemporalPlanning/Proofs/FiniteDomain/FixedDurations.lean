import TemporalPlanning.Proofs.FiniteDomain.NumericRuns
/-!
Fixed durations.

An action has a fixed duration if the bounds on it read static variables only. Such a variable is
modified by no action, so that it keeps its number as long as only actions are executed; but the
initial state may give it another number for a later time, which is not looked for. Apart from this
the bounds have the same values in all states that can be reached.
-/
set_option autoImplicit false

namespace TemporalPlanning.FiniteDomain

open Relation

/-- A numeric effect of an action, or a number for a later time, leads from one state to another. -/
def Task.TimedStep (t : Task) (x y : Array Float) : Prop :=
  t.AppliesEffect x y ∨ t.ReceivesNumber x y

/-- The states that are reached by effects of actions and by numbers for later times. -/
def Task.ReachesTimed (t : Task) : Array Float → Array Float → Prop := ReflTransGen t.TimedStep

/-- The numbers that the initial state gives a variable for later times are the one it has. -/
def Task.KeepsNumber (t : Task) (v : Nat) : Prop :=
  ∀ entry, t.numericVars[v]? = some entry → ∀ time number, (time, number) ∈ entry.initialValues →
    (time == 0.0) = false → t.numericInitialState[v]? = some number

theorem Task.ReachesTimed.getElem?_eq {t : Task} {x : Array Float}
    (h : t.ReachesTimed t.numericInitialState x) {v : Nat} (hv : t.IsUnmodified v)
    (hnumber : t.KeepsNumber v) : x[v]? = t.numericInitialState[v]? := by
  induction h with
  | refl => rfl
  | @tail x y _ hstep ih =>
    rw [← ih]
    rcases hstep with heffect | hreceives
    · exact heffect.getElem?_eq hv
    · refine hreceives.getElem?_eq fun entry hentry time number hmem htime => ?_
      rw [ih]
      exact hnumber entry hentry time number hmem htime

/-- **A fixed duration is the duration in every state**, if no static variable that a bound on it
reads receives another number at a later time. -/
theorem evaluate_of_hasFixedDuration {t T : Task} {keepStatic : Bool}
    (hrun : (computeCosts keepStatic).runOn t = (.ok (), T)) {a : Action} (ha : a ∈ T.actions)
    (hfixed : a.cost.hasFixedDuration = true)
    (hnumbers : keepStatic = true → ∀ bound ∈ a.durations, ∀ v ∈ varsOf bound.expression,
      T.IsUnmodified v → T.KeepsNumber v)
    {x : Array Float} (hx : T.ReachesTimed T.numericInitialState x) (duration : Float) :
    List.Forall₂ (fun bound value => ¬readsDuration bound.expression →
      evaluate x duration bound.expression = .ok value) a.durations a.cost.durations := by
  have hcost := computeCosts_describes keepStatic t _ _ hrun a ha
  have hbounds : ∀ bound ∈ a.durations,
      (Dependence.ofTask T keepStatic).dependsOnState bound.expression = false := by
    have hflag := hcost.hasFixedDuration
    rw [hfixed, Dependence.hasFixedDuration, eq_comm, Bool.not_eq_true'] at hflag
    intro bound hbound
    exact Bool.eq_false_iff.mpr (List.any_eq_false.mp hflag bound hbound)
  have hsame : ∀ bound ∈ a.durations, ¬readsDuration bound.expression →
      evaluate x duration bound.expression =
        evaluate T.numericInitialState 0.0 bound.expression := by
    intro bound hbound hreads
    refine evaluate_congr (fun v hv => ?_) fun hreads' => absurd hreads' hreads
    obtain ⟨hkeep, -, hunmodified⟩ := Dependence.of_not_dependsOnState (hbounds bound hbound) hv
    exact hx.getElem?_eq hunmodified (hnumbers hkeep bound hbound v hv hunmodified)
  have hall := (List.forall₂_and_left _ _).mpr ⟨hsame, hcost.durations hfixed⟩
  exact hall.imp fun bound value ⟨hsame, hvalue⟩ hreads => (hsame hreads).trans hvalue

namespace Journey

/-- A vehicle moves, for as long as that takes, and uses up fuel. -/
def move : Action :=
  { Action.empty 0 "move" false with
    durations := [⟨.unspecified, .eq, .atom (.var 0)⟩]
    endNumericEffects := [⟨.decrease, 1, .atom (.number 1.0)⟩] }

/-- The time that a move takes, given with its changes, and fuel, which is refilled later on. -/
def task (times : List (Float × Float)) : Task :=
  { Task.empty with
    numericVars := #[⟨0, "time", times⟩, ⟨1, "fuel", [(0.0, 3.0), (5.0, 8.0)]⟩]
    actions := #[move] }

/-- The task with its costs. -/
def computed (times : List (Float × Float)) : Task := ((computeCosts true).runOn (task times)).2

variable {times : List (Float × Float)}

theorem runOn_task (h : ((computeCosts true).runOn (task times)).1.toOption = some ()) :
    (computeCosts true).runOn (task times) = (.ok (), computed times) :=
  Prod.ext (Grounding.eq_ok_of_mem_toOption h) rfl

/-- Moving is the action of the task, apart from its cost. -/
theorem exists_move (h : ((computeCosts true).runOn (task times)).1.toOption = some ()) :
    ∃ a ∈ (computed times).actions,
      a.durations = move.durations ∧ a.numericEffects = move.numericEffects := by
  obtain ⟨a, ha, hsame⟩ := exists_sameButCost (runOn_task h) (a := move)
    (Array.mem_toList_iff.mp (List.mem_singleton.mpr rfl))
  refine ⟨a, ha, ?_, ?_⟩
  · rw [hsame]
  · rw [hsame]
    rfl

/-- Moving uses up fuel, and then there is new fuel. -/
theorem reaches_refilled
    (h : ((computeCosts true).runOn (task [(0.0, 10.0)])).1.toOption = some ()) :
    (computed [(0.0, 10.0)]).ReachesTimed #[10.0, 3.0] #[10.0, 8.0] := by
  obtain ⟨a, ha, -, heffects⟩ := exists_move h
  have hmove :
      (computed [(0.0, 10.0)]).AppliesEffect #[(10.0 : Float), 3.0] #[10.0, 3.0 - 1.0] := by
    refine ⟨a, ha, ⟨.decrease, 1, .atom (.number 1.0)⟩, ?_, 10.0, rfl⟩
    rw [heffects]
    exact List.mem_singleton.mpr rfl
  have hentry : (computed [(0.0, 10.0)]).numericVars[1]? =
      some ⟨1, "fuel", [(0.0, 3.0), (5.0, 8.0)]⟩ := by decide +kernel
  have hrefill :
      (computed [(0.0, 10.0)]).ReceivesNumber #[(10.0 : Float), 3.0 - 1.0] #[10.0, 8.0] :=
    ⟨1, _, 5.0, 8.0, hentry, List.mem_cons_of_mem _ (List.mem_singleton.mpr rfl),
      by decide +kernel, rfl⟩
  have hfirst : (computed [(0.0, 10.0)]).TimedStep #[10.0, 3.0] #[10.0, 3.0 - 1.0] := Or.inl hmove
  exact ReflTransGen.tail (ReflTransGen.single hfirst) (Or.inr hrefill)

/-- The time of a move that is given once is kept. -/
theorem keepsNumber_time : (computed [(0.0, 10.0)]).KeepsNumber 0 := by
  intro entry hentry time number hmem htime
  have htable : (computed [(0.0, 10.0)]).numericVars[0]? = some ⟨0, "time", [(0.0, 10.0)]⟩ := by
    decide +kernel
  rw [htable] at hentry
  rw [← Option.some.inj hentry] at hmem
  rw [(Prod.mk.inj (List.mem_singleton.mp hmem)).1] at htime
  have hzero : ((0.0 : Float) == 0.0) = true := by decide +kernel
  rw [hzero] at htime
  cases htime

/-- If moves always take the same time, they do so after fuel has been used and refilled. -/
theorem durations_of_refilled : ∃ a ∈ (computed [(0.0, 10.0)]).actions,
    a.cost.hasFixedDuration = true ∧ List.Forall₂ (fun bound value =>
      ¬readsDuration bound.expression →
        evaluate #[10.0, 8.0] 10.0 bound.expression = .ok value) a.durations a.cost.durations := by
  have hok : ((computeCosts true).runOn (task [(0.0, 10.0)])).1.toOption = some () := by
    decide +kernel
  obtain ⟨a, ha, hdurations, -⟩ := exists_move hok
  have hfixed : a.cost.hasFixedDuration = true := by
    have hall : ((computed [(0.0, 10.0)]).actions.all (·.cost.hasFixedDuration)) = true := by
      decide +kernel
    exact Array.all_eq_true_iff_forall_mem.mp hall a ha
  have hinitial : (computed [(0.0, 10.0)]).numericInitialState = #[10.0, 3.0] := by
    decide +kernel
  have hreaches := reaches_refilled hok
  rw [← hinitial] at hreaches
  refine ⟨a, ha, hfixed, evaluate_of_hasFixedDuration (runOn_task hok) ha hfixed ?_ hreaches 10.0⟩
  intro _ bound hbound v hv _
  rw [hdurations] at hbound
  rw [List.mem_singleton.mp hbound] at hv
  rw [List.mem_singleton.mp hv]
  exact keepsNumber_time

/-- A move has a fixed duration although it takes longer after some time. -/
theorem exists_changed_duration : ∃ a ∈ (computed [(0.0, 10.0), (5.0, 20.0)]).actions,
    (computeCosts true).runOn (task [(0.0, 10.0), (5.0, 20.0)]) =
      (.ok (), computed [(0.0, 10.0), (5.0, 20.0)]) ∧
    a.cost.hasFixedDuration = true ∧
    (computed [(0.0, 10.0), (5.0, 20.0)]).ReachesTimed
      (computed [(0.0, 10.0), (5.0, 20.0)]).numericInitialState #[20.0, 3.0] ∧
    ¬List.Forall₂ (fun bound value => ¬readsDuration bound.expression →
      evaluate #[20.0, 3.0] 20.0 bound.expression = .ok value) a.durations a.cost.durations := by
  have hok :
      ((computeCosts true).runOn (task [(0.0, 10.0), (5.0, 20.0)])).1.toOption = some () := by
    decide +kernel
  obtain ⟨a, ha, hdurations, -⟩ := exists_move hok
  have hcost : a.cost.hasFixedDuration = true ∧ a.cost.durations = [10.0] := by
    have hall : ((computed [(0.0, 10.0), (5.0, 20.0)]).actions.all fun a =>
        a.cost.hasFixedDuration ∧ a.cost.durations = [10.0]) = true := by
      decide +kernel
    exact of_decide_eq_true (Array.all_eq_true_iff_forall_mem.mp hall a ha)
  have hinitial : (computed [(0.0, 10.0), (5.0, 20.0)]).numericInitialState = #[10.0, 3.0] := by
    decide +kernel
  have hentry : (computed [(0.0, 10.0), (5.0, 20.0)]).numericVars[0]? =
      some ⟨0, "time", [(0.0, 10.0), (5.0, 20.0)]⟩ := by decide +kernel
  refine ⟨a, ha, runOn_task hok, hcost.1, ?_, fun hall => ?_⟩
  · rw [hinitial]
    exact ReflTransGen.single (Or.inr ⟨0, _, 5.0, 20.0, hentry,
      List.mem_cons_of_mem _ (List.mem_singleton.mpr rfl), by decide +kernel, rfl⟩)
  · rw [hdurations, hcost.2] at hall
    have hvalue := (List.forall₂_cons.mp hall).1 (by decide)
    have heq : (20.0 : Float) = 10.0 := Except.ok.inj hvalue
    exact absurd heq (by decide +kernel)

end Journey

end TemporalPlanning.FiniteDomain
