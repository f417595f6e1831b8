import TemporalPlanning.Lifted.Basic
import TemporalPlanning.Proofs.Encoding.Goals
import TemporalPlanning.Proofs.Encoding.Literals
import TemporalPlanning.Proofs.Encoding.Negated
/-!
An encoded task means what the grounded task means.

Conditions of actions and goals hold in the encoding of a situation exactly when they hold in the
situation, and preferences and constraints are as true as before. For conditions that a proposition
is false this is so because the groups of such propositions have been taken apart. Goals that negate
comparisons of orders keep their truth only between numbers.
-/
set_option autoImplicit false

namespace TemporalPlanning.Encoding

open FiniteDomain

theorem forall₂_and_mem {α β : Type} {R : α → β → Prop} {as : List α} {bs : List β}
    (h : List.Forall₂ R as bs) : List.Forall₂ (fun a b => a ∈ as ∧ R a b) as bs :=
  (List.forall₂_and_left as bs).mpr ⟨fun _ ha => ha, h⟩

namespace Encoder

variable (enc : Encoder)

/-- An encoded condition holds in encoded situations exactly when the condition holds. -/
def KeepsCondition (T : Task) (c : Grounded.Condition) (c' : Condition) : Prop :=
  ∀ x, enc.IsState x →
    ((enc.situationOf T x).values c'.var = some c'.value ↔ enc.grounded.Holds x.objects c)

/-- An encoded goal is as true in encoded situations as the goal, as long as its negations are taken
into comparisons of numbers only. -/
def KeepsGoal (T : Task) (g : Grounded.Goal) (g' : Goal) : Prop :=
  ∀ x : Grounded.Situations Float, (∀ time, enc.IsState (x time)) → ∀ time,
    g.NegatesNumbers x time false →
      g'.truth? (fun time => enc.situationOf T (x time)) time = g.truth? enc.grounded x time

/-- The conditions and preferences of an encoded action mean what those of the action mean. -/
structure KeepsMeaning (T : Task) (a : Grounded.Action) (b : Action) : Prop where
  startConditions : List.Forall₂ (enc.KeepsCondition T) a.startConditions b.startConditions
  invariants : List.Forall₂ (enc.KeepsCondition T) a.invariants b.invariants
  endConditions : List.Forall₂ (enc.KeepsCondition T) a.endConditions b.endConditions
  preferences : List.Forall₂ (fun q q' => q'.nameIndex = q.nameIndex ∧
    enc.KeepsGoal T q.goal q'.goal) a.preferences b.preferences

section Meaning

variable {enc} {T : Task} (hT : enc.Places T)
include hT

/-- Literals and preferences that have been encoded keep their meaning. -/
theorem HasEncodedLiterals.keepsMeaning {a : Grounded.Action} {b : Action}
    (h : enc.HasEncodedLiterals T a b) (ha : ∀ c ∈ a.literals, IsProper enc.grounded c)
    (hnegated : ∀ c ∈ a.conditions, enc.isLiteral c.var = true → c.value = .falsity →
      ∀ f, enc.placement.fact? c.var = some f → f.value = .truth) : enc.KeepsMeaning T a b := by
  obtain ⟨T₁, hsame, h⟩ := h
  have hconditions : ∀ {cs : List Grounded.Condition} {cs' : List Condition},
      (∀ c ∈ cs, c ∈ a.conditions) → List.Forall₂ (enc.EncodesCondition T₁) cs cs' →
        List.Forall₂ (enc.KeepsCondition T) cs cs' := by
    intro cs cs' hcs hencoded
    refine ((List.forall₂_and_left _ _).mpr ⟨hcs, hencoded⟩).imp ?_
    rintro c c' ⟨hc, d, hd, hvar, hvalue⟩ x hx
    -- that effects modify the condition does not change what it says
    rw [hvar, hvalue]
    refine holds_iff_of_condition hT hsame hd (ha c (List.mem_append_left _ hc)) ?_ hx
    exact fun hv hfalse f hf =>
      (hT.placement.isBooleanAt_iff hf).mpr (hnegated c hc hv hfalse f hf)
  refine ⟨hconditions (fun c hc => ?_) h.startConditions, hconditions (fun c hc => ?_) h.invariants,
    hconditions (fun c hc => ?_) h.endConditions, ?_⟩
  · exact List.mem_append_left _ (List.mem_append_left _ hc)
  · exact List.mem_append_left _ (List.mem_append_right _ hc)
  · exact List.mem_append_right _ hc
  · refine (forall₂_and_mem h.preferences).imp ?_
    rintro q q' ⟨hq, hencoded⟩
    obtain ⟨g, hg, hencoded⟩ := Grounding.except_bind_eq_ok.mp hencoded
    cases hencoded
    refine ⟨rfl, fun x hx time hnumbers => ?_⟩
    exact truth?_of_goal hT hsame hx hg (fun c hc => ha c (List.mem_append_right _
      (List.mem_flatMap.mpr ⟨q, hq, hc⟩))) time hnumbers

end Meaning

end Encoder

/-- The propositions of a task are only compared with truth values. -/
def ComparesTruth (t : Grounded.Task) : Prop :=
  ∀ c ∈ t.literals, t.isProposition c.var = true → c.value = .truth ∨ c.value = .falsity

instance (t : Grounded.Task) : Decidable (ComparesTruth t) :=
  inferInstanceAs (Decidable (∀ c ∈ t.literals, _))

/-- **An encoded task means what the grounded task means.** -/
theorem encode_keeps_meaning {p : Lifted.Problem} {keepStatic : Bool} {t : Grounded.Task}
    (hground : Grounding.ground p keepStatic = .ok t) (hnames : HasDistinctNames t)
    (hcompares : ComparesTruth t) {o : Options} {T : Task}
    (hencode : (encode t o).result = .ok T) :
    ∃ enc, encoderOf t o = .ok enc ∧
      List.Forall₂ (enc.KeepsMeaning T) (keptActions t o) T.actions.toList ∧
      List.Forall₂ (enc.KeepsMeaning T) t.goals T.goals.toList ∧
      List.Forall₂ (Encoder.EncodesConstraint (enc.KeepsGoal T)) t.constraints T.constraints := by
  obtain ⟨q, hencoder, hplacement, -⟩ := encode_eq_ok hencode
  have hencoded := encode_encodesTask hencode hencoder
  obtain ⟨q', T₀, _, _, hplace, -⟩ := encode_phases hencode
  -- the encoder is made from the placement that the task has been encoded with
  have hq : q' = q := by
    unfold encoderOf at hencoder
    rw [hplace] at hencoder
    cases hencoder
    rfl
  subst hq
  obtain ⟨hinj, hseparate⟩ := place_separates t o _ _ _ q' T₀ hplace
  refine ⟨_, hencoder, ?_⟩
  have hT : Encoder.Places ⟨t, Mutex.propositions t, q'⟩ T :=
    ⟨(Grounding.ground_isOrderly hground).numbered, rfl, hplacement, hinj, hnames⟩
  have hproper : ∀ c ∈ t.literals, Encoder.IsProper t c := fun c hc =>
    ⟨(Grounding.ground_isScoped hground).object_of_mem_literals c hc, hcompares c hc⟩
  have hmeaning : ∀ a ∈ keptActions t o ++ t.goals, ∀ b,
      Encoder.HasEncodedLiterals ⟨t, Mutex.propositions t, q'⟩ T a b →
        Encoder.KeepsMeaning ⟨t, Mutex.propositions t, q'⟩ T a b := by
    intro a ha b hb
    refine hb.keepsMeaning hT (fun c hc => hproper c (List.mem_append_left _
      (List.mem_flatMap.mpr ⟨a, ?_, hc⟩))) fun c hc hv hfalse f hf => ?_
    · -- kept actions are actions of the task
      rcases List.mem_append.mp ha with ha | ha
      · exact List.mem_append_left _ (List.mem_filter.mp ha).1
      · exact List.mem_append_right _ ha
    · -- a condition that a proposition is false is marked, so its facts say truth
      exact hseparate _ (isMarked_negated ha hc hfalse hv) f
        (List.mem_of_getElem? (mem_factsOf_of_fact? hf))
  refine ⟨?_, ?_, ?_⟩
  · exact (forall₂_and_mem hencoded.actions).imp fun a b ⟨ha, hb⟩ =>
      hmeaning a (List.mem_append_left _ ha) b hb
  · exact (forall₂_and_mem hencoded.goals).imp fun a b ⟨ha, hb⟩ =>
      hmeaning a (List.mem_append_right _ ha) b hb
  · obtain ⟨T₁, hsame, hconstraints⟩ := hencoded.constraints
    refine Encoder.forall₂_of_constraintList
      (P := (· ∈ Grounded.Constraint.goalsOfList t.constraints)) (fun g g' hg hencoded => ?_)
      hconstraints fun _ hg => hg
    intro x hx time hnumbers
    exact Encoder.truth?_of_goal hT hsame hx hencoded (fun c hc => hproper c
      (List.mem_append_right _ (List.mem_flatMap.mpr ⟨g, hg, hc⟩))) time hnumbers

theorem grounded_of_encoderOf {t : Grounded.Task} {o : Options} {enc : Encoder}
    (h : encoderOf t o = .ok enc) : enc.grounded = t := by
  obtain ⟨p, -, h⟩ := Grounding.except_bind_eq_ok.mp ((map_eq_pure_bind _ _).symm.trans h)
  cases h
  rfl

/-! ## A kettle -/

/-- What the kettle measures. -/
def temperature : Expression Lifted.Quantity := .atom (.fluent ⟨⟨1⟩, []⟩)

open Lifted in
/-- A kettle that is on heats water and switches itself off. Preferably a quantity is fifty at least
then. -/
def kettle (measured : Expression Lifted.Quantity) : Problem where
  task :=
    { Lifted.Task.ofPropositions ["on"] [] with
      functions := #[⟨"on", [], [TypeId.boolean]⟩, ⟨"temperature", [], [TypeId.number]⟩]
      init := [⟨⟨0⟩, [], .object .truth, 0.0⟩, ⟨⟨1⟩, [], .number 20.0, 0.0⟩] }
  operators := [
    .ofHappenings "switch-on" ⟨[.ofProposition 0 .falsity], [], [.ofProposition 0 .truth], []⟩
      .empty,
    { Operator.ofHappenings "heat" ⟨[.ofProposition 0 .truth], [], [], []⟩
        ⟨[], [], [.ofProposition 0 .falsity],
          [⟨.increase, ⟨⟨1⟩, []⟩, .atom (.number 60.0)⟩]⟩ with
      preferences := [⟨"warm", .not (.compare .less measured (.atom (.number 50.0)))⟩] }]

/-- The kettle is off, at a temperature. -/
def kettleAt (temperature : Float) : Grounded.Situation Float where
  objects _ := none
  numbers _ := some temperature

theorem isState_kettleAt (enc : Encoder) (temperature : Float) :
    enc.IsState (kettleAt temperature) := by
  refine ⟨fun v _ _ _ _ htrue => ?_, fun v o _ h => ?_, fun v o h => ?_⟩
  · cases htrue
  · cases h
  · cases h

/-- At eighty degrees, that the temperature is not below fifty stays true. -/
theorem kettle_keeps_meaning : ∃ (t : Grounded.Task) (T : Task) (enc : Encoder),
    Grounding.ground (kettle temperature) true = .ok t ∧ (encode t {}).result = .ok T ∧
      encoderOf t {} = .ok enc ∧ ∃ ab ∈ (keptActions t {}).zip T.actions.toList,
        ∃ qq ∈ ab.1.preferences.zip ab.2.preferences,
          qq.1.goal.truth? t (fun _ => kettleAt 80.0) .unspecified = some true ∧
          qq.2.goal.truth? (fun _ => enc.situationOf T (kettleAt 80.0)) .unspecified =
            some true := by
  have hrun : ∃ t ∈ (Grounding.ground (kettle temperature) true).toOption,
      HasDistinctNames t ∧ ComparesTruth t ∧
      ∃ T ∈ (encode t {}).result.toOption, ∃ enc ∈ (encoderOf t {}).toOption,
        ∃ ab ∈ (keptActions t {}).zip T.actions.toList,
          ∃ qq ∈ ab.1.preferences.zip ab.2.preferences,
            qq.1.goal.NegatesNumbers (fun _ => kettleAt 80.0) .unspecified false ∧
            qq.1.goal.truth? t (fun _ => kettleAt 80.0) .unspecified = some true := by
    decide +kernel
  obtain ⟨t, ht, hnames, hcompares, T, hT, enc, henc, ab, hab, qq, hqq, hnumbers, htrue⟩ := hrun
  have hground := Grounding.eq_ok_of_mem_toOption ht
  have hencode := Grounding.eq_ok_of_mem_toOption hT
  have hencoder := Grounding.eq_ok_of_mem_toOption henc
  obtain ⟨enc', hencoder', hactions, -⟩ := encode_keeps_meaning hground hnames hcompares hencode
  have hsame := hencoder
  rw [hencoder'] at hsame
  cases hsame
  -- the encoded preference holds because the preference does
  have hkeeps := (List.forall₂_zip (List.forall₂_zip hactions hab).preferences hqq).2
  refine ⟨t, T, enc, hground, hencode, hencoder, ab, hab, qq, hqq, htrue, ?_⟩
  rw [hkeeps _ (fun _ => isState_kettleAt enc _) _ hnumbers, grounded_of_encoderOf hencoder]
  exact htrue

/-- Twice the temperature, less twice the temperature. -/
def difference : Expression Lifted.Quantity :=
  .node .difference [.node .sum [temperature, temperature], .node .sum [temperature, temperature]]

/-- The difference is no number where doubling overflows. It is not below fifty then, but neither is
it fifty at least, which the encoded preference asks for. -/
theorem exists_meaning_lost : ∃ (t : Grounded.Task) (T : Task) (enc : Encoder),
    Grounding.ground (kettle difference) true = .ok t ∧ HasDistinctNames t ∧ ComparesTruth t ∧
      (encode t {}).result = .ok T ∧ encoderOf t {} = .ok enc ∧
      enc.IsState (kettleAt 1e308) ∧ ∃ ab ∈ (keptActions t {}).zip T.actions.toList,
        ∃ qq ∈ ab.1.preferences.zip ab.2.preferences,
          qq.1.goal.truth? t (fun _ => kettleAt 1e308) .unspecified = some true ∧
          qq.2.goal.truth? (fun _ => enc.situationOf T (kettleAt 1e308)) .unspecified =
            some false := by
  have hrun : ∃ t ∈ (Grounding.ground (kettle difference) true).toOption,
      HasDistinctNames t ∧ ComparesTruth t ∧
      ∃ T ∈ (encode t {}).result.toOption, ∃ enc ∈ (encoderOf t {}).toOption,
        ∃ ab ∈ (keptActions t {}).zip T.actions.toList,
          ∃ qq ∈ ab.1.preferences.zip ab.2.preferences,
            qq.1.goal.truth? t (fun _ => kettleAt 1e308) .unspecified = some true ∧
            qq.2.goal.truth? (fun _ => enc.situationOf T (kettleAt 1e308)) .unspecified =
              some false := by
    decide +kernel
  obtain ⟨t, ht, hnames, hcompares, T, hT, enc, henc, hlost⟩ := hrun
  exact ⟨t, T, enc, Grounding.eq_ok_of_mem_toOption ht, hnames, hcompares,
    Grounding.eq_ok_of_mem_toOption hT, Grounding.eq_ok_of_mem_toOption henc,
    isState_kettleAt enc _, hlost⟩

end TemporalPlanning.Encoding
