import TemporalPlanning.Proofs.Encoding.Effects
import TemporalPlanning.Proofs.FiniteDomain.PermanentMutex
/-!
Permanent mutexes on runs of a finite-domain task.

Actions are executed one after the other. An action starts when its conditions at start and over all
hold; its effects at start take place, then its conditions at end must hold and its effects at end
take place. Numeric conditions and effects play no part here.

A permanent mutex says nothing about actions that can be executed anyway: the second fact becomes
true as soon as an action is executed that has it as an effect and whose conditions have nothing to
do with the first fact. What it speaks of are runs that the first fact drives: each of their actions
requires this fact or an effect of an action before it, apart from actions that contribute nothing
to the second fact. On these runs the first fact leads to whatever could lead to the second one, and
so the second one never becomes true.
-/
set_option autoImplicit false

namespace TemporalPlanning.FiniteDomain

open Relation

/-! ## Runs -/

/-- A fact holds. -/
def Valuation.Holds (x : Valuation) (f : FactCode) : Prop := x f.var = some f.value

/-- Conditions hold. -/
def Valuation.Satisfies (x : Valuation) (cs : List Condition) : Prop :=
  ∀ c ∈ cs, x c.var = some c.value

instance (x : Valuation) (f : FactCode) : Decidable (x.Holds f) :=
  inferInstanceAs (Decidable (_ = _))

instance (x : Valuation) (cs : List Condition) : Decidable (x.Satisfies cs) :=
  inferInstanceAs (Decidable (∀ c ∈ cs, _))

/-- A run from a valuation, by the actions that have been started, the last one first, the action
that has not ended yet, if there is one, and the valuation that has been reached. -/
inductive Task.Run (t : Task) (x : Valuation) : List Action → Option Action → Valuation → Prop
  | rest : Run t x [] none x
  | start {as : List Action} {y : Valuation} {a : Action} : Run t x as none y → a ∈ t.actions →
      y.Satisfies (a.startConditions ++ a.invariants) →
        Run t x (a :: as) (some a) (y.apply a.startEffects)
  | finish {as : List Action} {y : Valuation} {a : Action} : Run t x as (some a) y →
      y.Satisfies a.endConditions → Run t x as none (y.apply a.endEffects)

namespace Task.Run

variable {t : Task} {x y : Valuation} {as : List Action} {running : Option Action}

theorem mem_actions (h : t.Run x as running y) : ∀ a ∈ as, a ∈ t.actions := by
  induction h with
  | rest => exact fun a ha => absurd ha List.not_mem_nil
  | start _ hb _ ih =>
    intro a ha
    rcases List.mem_cons.mp ha with rfl | ha
    · exact hb
    · exact ih a ha
  | finish _ _ ih => exact ih

theorem running_mem (h : t.Run x as running y) : ∀ a ∈ running, a ∈ as := by
  cases h with
  | rest => exact fun a ha => nomatch ha
  | start => exact fun a ha => Option.mem_some.mp ha ▸ List.mem_cons_self
  | finish => exact fun a ha => nomatch ha

end Task.Run

/-! ## Runs that a fact drives -/

/-- The actions of a run, the last one first, are driven by a fact as far as another one is
concerned. Each of them has a condition that is the fact or an effect of an earlier action of the
run, or it contributes nothing: none of its effects is, or leads to, the other fact. -/
inductive Task.IsDriven (t : Task) (c d : FactCode) : List Action → Prop
  | nil : IsDriven t c d []
  | caused {a : Action} {as : List Action} {f : FactCode} : IsDriven t c d as →
      f.IsAmong a.conditions → (f = c ∨ ∃ b ∈ as, f.IsAmong b.effects) → IsDriven t c d (a :: as)
  | unrelated {a : Action} {as : List Action} : IsDriven t c d as →
      (∀ g : FactCode, g.IsAmong a.effects → ¬ReflTransGen t.LeadsTo g d) → IsDriven t c d (a :: as)

variable {t : Task} {c d g : FactCode} {x y : Valuation} {as : List Action}
  {running : Option Action}

theorem Task.IsDriven.tail {a : Action} (h : t.IsDriven c d (a :: as)) : t.IsDriven c d as := by
  cases h with
  | caused h => exact h
  | unrelated h => exact h

/-- Of the effects of the actions that a fact drives, it leads to those that could lead to the other
fact. -/
theorem Task.IsDriven.transGen_leadsTo (h : t.IsDriven c d as) (has : ∀ a ∈ as, a ∈ t.actions) :
    ∀ a ∈ as, ∀ g : FactCode, g.IsAmong a.effects → ReflTransGen t.LeadsTo g d →
      TransGen t.LeadsTo c g := by
  induction h with
  | nil => exact fun a ha => absurd ha List.not_mem_nil
  | @caused a as f _ hf hcause ih =>
    have hearlier := ih fun b hb => has b (List.mem_cons_of_mem a hb)
    intro b hb g hg hgd
    rcases List.mem_cons.mp hb with rfl | hb
    · have hstep : t.LeadsTo f g := ⟨b, has b List.mem_cons_self, hf, hg⟩
      rcases hcause with rfl | ⟨e, he, heffect⟩
      · exact TransGen.single hstep
      · -- the condition leads to the other fact as well, through the effect
        have hfd : ReflTransGen t.LeadsTo f d := ReflTransGen.head hstep hgd
        exact TransGen.tail (hearlier e he f heffect hfd) hstep
    · exact hearlier b hb g hg hgd
  | @unrelated a as _ hnone ih =>
    intro b hb g hg hgd
    rcases List.mem_cons.mp hb with rfl | hb
    · exact absurd hgd (hnone g hg)
    · exact ih (fun b hb => has b (List.mem_cons_of_mem a hb)) b hb g hg hgd

theorem Valuation.isAmong_or_holds_of_apply {cs : List Condition} (h : (x.apply cs).Holds g) :
    g.IsAmong cs ∨ x.Holds g := by
  rcases x.assign_eq_some h with hmem | ⟨-, hbefore⟩
  · obtain ⟨e, he, hpair⟩ := List.mem_map.mp hmem
    obtain ⟨hvar, hvalue⟩ := Prod.mk.inj hpair
    exact Or.inl ⟨e, he, hvar, hvalue⟩
  · exact Or.inr hbefore

/-- A fact that holds at some point of a run and could lead to the other fact held at the beginning,
or the fact that drives the run leads to it. -/
theorem Task.Run.holds_or_transGen (h : t.Run x as running y) (hdriven : t.IsDriven c d as)
    (hgd : ReflTransGen t.LeadsTo g d) (hg : y.Holds g) :
    x.Holds g ∨ TransGen t.LeadsTo c g := by
  induction h with
  | rest => exact Or.inl hg
  | @start as y a hrun ha hsatisfied ih =>
    have hleads := hdriven.transGen_leadsTo (hrun.start ha hsatisfied).mem_actions a
      List.mem_cons_self g
    rcases Valuation.isAmong_or_holds_of_apply hg with ⟨e, he, hparts⟩ | hbefore
    · exact Or.inr (hleads ⟨e, List.mem_append_left _ he, hparts⟩ hgd)
    · exact ih hdriven.tail hbefore
  | @finish as y a hrun _ ih =>
    have hleads := hdriven.transGen_leadsTo hrun.mem_actions a (hrun.running_mem a rfl) g
    rcases Valuation.isAmong_or_holds_of_apply hg with ⟨e, he, hparts⟩ | hbefore
    · exact Or.inr (hleads ⟨e, List.mem_append_right _ he, hparts⟩ hgd)
    · exact ih hdriven hbefore

/-! ## Permanent mutexes -/

/-- The second fact of a permanent mutex becomes true on no run that the first one drives, neither
after an action nor between its start and its end. The first fact need not hold itself. -/
theorem not_holds_of_isPermanentMutex {t T : Task} (hnumbered : t.HasNumberedActions)
    (hrun : (do computeRequirers; computePermanentMutex).runOn t = (.ok (), T)) {c d : FactCode}
    (hpermanent : T.isPermanentMutex c d = true) {x y : Valuation} {as : List Action}
    {running : Option Action} (hx : ¬x.Holds d) (h : T.Run x as running y)
    (hdriven : T.IsDriven c d as) : ¬y.Holds d := by
  intro hd
  have hnotled : ¬TransGen T.LeadsTo c d :=
    ((isPermanentMutex_iff hnumbered hrun c d).mp hpermanent).2
  rcases h.holds_or_transGen hdriven ReflTransGen.refl hd with hbefore | hled
  · exact hx hbefore
  · exact hnotled hled

/-- Finding permanent mutexes leaves the actions as they are. -/
theorem actions_of_computePermanentMutex {t T : Task}
    (hrun : (do computeRequirers; computePermanentMutex).runOn t = (.ok (), T)) :
    T.actions = t.actions := by
  obtain ⟨_, t', hfirst, hlast⟩ := Update.exists_runOn_of_bind hrun
  rw [(computePermanentMutex_sameActions t' _ _ hlast).actions,
    (computeRequirers_sameActions t _ _ hfirst).actions]

/-- One action that is started and ended after a run. -/
theorem Task.Run.execute {t : Task} {x y : Valuation} {as : List Action} {a : Action}
    (h : t.Run x as none y) (ha : a ∈ t.actions)
    (hstart : y.Satisfies (a.startConditions ++ a.invariants))
    (hend : (y.apply a.startEffects).Satisfies a.endConditions) :
    t.Run x (a :: as) none ((y.apply a.startEffects).apply a.endEffects) :=
  .finish (.start h ha hstart) hend

namespace Lamp

/-- A lamp is on, or off. -/
def on : FactCode := ⟨0⟩

@[inherit_doc on]
def off : FactCode := ⟨1⟩

/-- An action with one condition at start at most and one effect at end. -/
def action (index : Nat) (name : String) (conditions : List Condition) (effect : FactCode) :
    Action :=
  { Action.empty index name false with
    startConditions := conditions
    endEffects := [.plain effect.var effect.value] }

/-- A lamp that can be switched on, be kept on, and that fails without further conditions. -/
def task : Task :=
  { Task.empty with
    vars := #[⟨0, "lamp", [.falsity, .truth], []⟩]
    actions := #[action 0 "switch-on" [.plain off.var off.value] on,
      action 1 "keep" [.plain on.var on.value] on, action 2 "fail" [] off]
    mutex := ((∅ : PairSet).insert (on.code, off.code)).insert (off.code, on.code) }

theorem task_hasNumberedActions : task.HasNumberedActions :=
  .of_map_index (by decide +kernel)

/-- The task with its permanent mutexes. -/
def computed : Task := ((do computeRequirers; computePermanentMutex).runOn task).2

theorem runOn_task : (do computeRequirers; computePermanentMutex).runOn task = (.ok (), computed) :=
  Prod.ext (Grounding.eq_ok_of_mem_toOption (by decide +kernel)) rfl

/-- The lamp is on. -/
def lit : Valuation := fun var => if var = 0 then some .truth else none

/-- A lamp that is on fails, although it is off in no later state by its permanent mutexes. -/
theorem fail_off : ∃ a y, task.HasNumberedActions ∧
    (do computeRequirers; computePermanentMutex).runOn task = (.ok (), computed) ∧
      computed.isPermanentMutex on off = true ∧ computed.Run lit [a] none y ∧
        lit.Holds on ∧ ¬lit.Holds off ∧ y.Holds off := by
  have hfail : action 2 "fail" [] off ∈ computed.actions := by
    rw [actions_of_computePermanentMutex runOn_task]
    exact Array.mem_of_getElem? (i := 2) rfl
  have hrun := Task.Run.rest.execute (x := lit) hfail (by decide) (by decide)
  exact ⟨_, _, task_hasNumberedActions, runOn_task, by decide +kernel, hrun, by decide, by decide,
    by decide⟩

/-- A moth sits at the lamp. -/
def moth : FactCode := ⟨capacity⟩

/-- A bell has been rung. -/
def bell : FactCode := ⟨2 * capacity⟩

/-- The lamp attracts a moth. -/
def attract : Action := action 0 "attract" [.plain on.var on.value] moth

/-- Somebody rings a bell, whatever the lamp does. -/
def ring : Action := action 1 "ring" [] bell

/-- What is near the lamp keeps it on. -/
def sense : Action := action 2 "sense" [.plain moth.var moth.value] on

/-- A lamp with a motion sensor, which fails as the other one does. -/
def sensor : Task :=
  { task with
    vars := #[⟨0, "lamp", [.falsity, .truth], []⟩, ⟨1, "moth", [.falsity, .truth], []⟩,
      ⟨2, "bell", [.falsity, .truth], []⟩]
    actions := #[attract, ring, sense, action 3 "fail" [] off] }

theorem sensor_hasNumberedActions : sensor.HasNumberedActions :=
  .of_map_index (by decide +kernel)

/-- The lamp with a sensor, with its permanent mutexes. -/
def sensing : Task := ((do computeRequirers; computePermanentMutex).runOn sensor).2

theorem runOn_sensor :
    (do computeRequirers; computePermanentMutex).runOn sensor = (.ok (), sensing) :=
  Prod.ext (Grounding.eq_ok_of_mem_toOption (by decide +kernel)) rfl

theorem sensing_actions : sensing.actions = sensor.actions :=
  actions_of_computePermanentMutex runOn_sensor

/-- No action requires the bell. -/
theorem bell_not_leadsTo (g : FactCode) : ¬sensing.LeadsTo bell g := by
  rintro ⟨a, ha, hcondition, -⟩
  rw [sensing_actions] at ha
  have hnone : ∀ a ∈ sensor.actions, ¬bell.IsAmong a.conditions := by decide +kernel
  exact hnone a ha hcondition

/-- The lamp drives what it does to the moth and what the moth does to it. The bell is unrelated. -/
theorem isDriven_sense_ring_attract : sensing.IsDriven on off [sense, ring, attract] := by
  have hattract : sensing.IsDriven on off [attract] :=
    .caused .nil (f := on) (by decide +kernel) (.inl rfl)
  have hring : sensing.IsDriven on off [ring, attract] := by
    refine .unrelated hattract fun g hg hled => ?_
    obtain ⟨e, he, hvar, hvalue⟩ := hg
    obtain rfl : g = bell := by
      rw [List.mem_singleton.mp he] at hvar hvalue
      exact FactCode.ext_of_parts hvar.symm hvalue.symm
    rcases hled.cases_head with heq | ⟨h, hfirst, -⟩
    · exact absurd heq (by decide +kernel)
    · exact bell_not_leadsTo h hfirst
  exact .caused hring (f := moth) (by decide +kernel) (.inr ⟨attract, by simp, by decide +kernel⟩)

/-- A lamp that is on attracts a moth, a bell rings, and the moth keeps the lamp on. -/
theorem sense_not_off : ∃ y, sensing.isPermanentMutex on off = true ∧ lit.Holds on ∧
    sensing.Run lit [sense, ring, attract] none y ∧ y.Holds moth ∧ ¬lit.Holds moth ∧
      sensing.IsDriven on off [sense, ring, attract] ∧ ¬lit.Holds off ∧ ¬y.Holds off := by
  have hpermanent : sensing.isPermanentMutex on off = true := by decide +kernel
  have hmem : ∀ a ∈ [attract, ring, sense], a ∈ sensing.actions := by
    rw [sensing_actions]
    simp [sensor]
  have hattract := Task.Run.rest.execute (x := lit) (hmem attract (by simp)) (by decide)
    (by decide)
  have hring := hattract.execute (hmem ring (by simp)) (by decide) (by decide)
  have hsense := hring.execute (hmem sense (by simp)) (by decide) (by decide)
  have hoff : ¬lit.Holds off := by decide
  exact ⟨_, hpermanent, by decide, hsense, by decide, by decide, isDriven_sense_ring_attract, hoff,
    not_holds_of_isPermanentMutex sensor_hasNumberedActions runOn_sensor hpermanent hoff hsense
      isDriven_sense_ring_attract⟩

end Lamp

end TemporalPlanning.FiniteDomain
