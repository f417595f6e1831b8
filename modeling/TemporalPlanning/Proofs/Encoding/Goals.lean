import TemporalPlanning.Proofs.Comparison
import TemporalPlanning.Proofs.Encoding.Situations
import TemporalPlanning.Proofs.Grounding.Literals
/-!
Encoded goals mean what the grounded ones mean.

Goals are built from conditions, so an encoded goal is as true in an encoded situation as the goal
is in the grounded one. Negations are taken into comparisons, which changes what they mean if they
compare something that is no number; so comparisons below negations must be between numbers.
-/
set_option autoImplicit false

namespace TemporalPlanning

/-- Whether a comparison is about the order of numbers. -/
def Comparator.isOrder : Comparator → Bool
  | .eq | .neq => false
  | .less | .lessEq | .greater | .greaterEq => true

namespace Grounded

mutual

/-- Comparisons of orders that a negation is taken into are between numbers; `negated` says whether
the goal itself is negated. -/
def Goal.NegatesNumbers (x : Situations Float) (time : TimePoint) (negated : Bool) : Goal → Prop
  | .compare comparator terms => negated = true → comparator.isOrder = true →
    ∀ e ∈ terms, ∀ n ∈ valueInGoal (x time) e, n.isNaN = false
  | .not goal => Goal.NegatesNumbers x time (!negated) goal
  | .and goals | .or goals => Goal.AllNegateNumbers x time goals
  | .timed time goal => Goal.NegatesNumbers x time false goal
  | .fluent .. | .ungroundedFluent .. | .imply .. | .existential .. | .universal .. | .equality ..
  | .constant _ => True

/-- Comparisons of orders that a negation is taken into in a list of goals are between numbers. -/
def Goal.AllNegateNumbers (x : Situations Float) (time : TimePoint) : List Goal → Prop
  | [] => True
  | goal :: rest => Goal.NegatesNumbers x time false goal ∧ Goal.AllNegateNumbers x time rest

end

section Decidability

variable (x : Situations Float)

mutual

def Goal.decideNegatesNumbers (time : TimePoint) (negated : Bool) :
    (g : Goal) → Decidable (g.NegatesNumbers x time negated)
  | .compare comparator terms =>
    inferInstanceAs (Decidable (negated = true → comparator.isOrder = true →
      ∀ e ∈ terms, ∀ n ∈ valueInGoal (x time) e, n.isNaN = false))
  | .not goal => Goal.decideNegatesNumbers time (!negated) goal
  | .and goals | .or goals => Goal.decideAllNegateNumbers time goals
  | .timed time goal => Goal.decideNegatesNumbers time false goal
  | .fluent .. | .ungroundedFluent .. | .imply .. | .existential .. | .universal .. | .equality ..
  | .constant _ => .isTrue trivial

def Goal.decideAllNegateNumbers (time : TimePoint) :
    (goals : List Goal) → Decidable (Goal.AllNegateNumbers x time goals)
  | [] => .isTrue trivial
  | goal :: rest =>
    @instDecidableAnd _ _ (Goal.decideNegatesNumbers time false goal)
      (Goal.decideAllNegateNumbers time rest)

end

instance (time : TimePoint) (negated : Bool) (g : Goal) :
    Decidable (g.NegatesNumbers x time negated) := g.decideNegatesNumbers x time negated

end Decidability

end Grounded

/-! ## Negation -/

namespace Encoding

open FiniteDomain

/-- A comparison is undecided or opposite to its negation, if it is of numbers or by equality. -/
theorem decide?_negated (comparator : Comparator) {values : List (Option Float)}
    (h : comparator.isOrder = true → ∀ n, some n ∈ values → n.isNaN = false) :
    comparator.negated.decide? values = (comparator.decide? values).map (!·) := by
  unfold Comparator.decide?
  split
  next l r =>
    have hnegated : comparator.negated.holds l r = !comparator.holds l r := by
      cases horder : comparator.isOrder
      · cases comparator with
        | eq => rfl
        | neq => exact (Bool.not_not _).symm
        | _ => cases horder
      · exact Comparator.holds_negated (h horder l (by simp)) (h horder r (by simp)) comparator
    rw [hnegated]
    rfl
  · rfl

/-- A goal or its negation. -/
def negateIf (negated : Bool) (g : Goal) : Goal := if negated then negate g else g

theorem truth?_not {g : Goal} {x : Situations Float} {time : TimePoint} :
    (Goal.not g).truth? x time = (g.truth? x time).map (!·) := by
  rw [Goal.truth?]

/-- Negating a goal that is no comparison makes it true exactly when it is false. -/
theorem truth?_negateIf {g : Goal} (hg : ∀ comparator terms, g ≠ .compare comparator terms)
    (negated : Bool) (x : Situations Float) (time : TimePoint) :
    (negateIf negated g).truth? x time = (g.truth? x time).map (negated ^^ ·) := by
  cases negated with
  | false =>
    rw [negateIf, if_neg Bool.false_ne_true]
    simp
  | true =>
    rw [negateIf, if_pos rfl]
    cases g with
    | compare comparator terms => exact absurd rfl (hg comparator terms)
    | not g =>
      rw [negate, truth?_not, Option.map_map]
      have hcancel : ((true ^^ ·) ∘ fun b => !b) = id := funext fun b => by simp
      rw [hcancel, Option.map_id, id]
    | constant holds =>
      rw [negate, Goal.truth?, Goal.truth?]
      simp
    | fact | and | or | timed => exact truth?_not.trans (by simp)

/-- A negation is of a fact, of several goals or of a goal at a time point. -/
def IsReduced : Goal → Prop
  | .not (.not _) | .not (.compare ..) | .not (.constant _) => False
  | _ => True

theorem negate_negate {g : Goal} (h : IsReduced g) : negate (negate g) = g := by
  cases g with
  | not g => cases g <;> first | exact h.elim | rfl
  | compare comparator terms => cases comparator <;> rfl
  | constant holds => cases holds <;> rfl
  | _ => rfl

theorem isReduced_negate {g : Goal} (h : IsReduced g) : IsReduced (negate g) := by
  cases g with
  | not g => cases g <;> first | exact h.elim | trivial
  | _ => trivial

namespace Encoder

section Places

variable {enc : Encoder} {T : Task} (hT : enc.Places T) {x : Grounded.Situation Float}
include hT

/-! ## Goals -/

omit hT in
/-- A fact or its negation, by whether something else holds. -/
theorem truth?_fact_or_negation {P : Prop} [Decidable P] {var : Nat} {value : ValueId}
    {x : Situations Float} {time : TimePoint} (h : (x time).values var = some value ↔ P)
    (b : Bool) :
    (if b then Goal.fact var value else negate (.fact var value)).truth? x time =
      some (decide P == b) := by
  have hfact : (Goal.fact var value).truth? x time = some (decide P) := by
    rw [Goal.truth?, decide_eq_decide.mpr h]
  cases b
  · rw [if_neg Bool.false_ne_true]
    refine truth?_not.trans ?_
    rw [hfact]
    cases decide P <;> rfl
  · rw [if_pos rfl, hfact]
    cases decide P <;> rfl

/-- The goal that a variable has a value means what the grounded one means. -/
theorem truth?_of_fluentGoal {T₁ : Task} (hsame : T₁.SameTables T) {v : VarId} {o : ObjectId}
    {equal : Bool} {g : Goal} (h : enc.fluentGoal T₁ v o equal = .ok g)
    (hc : IsProper enc.grounded ⟨v, o⟩) {x : Grounded.Situations Float}
    (hx : ∀ time, enc.IsState (x time)) (time : TimePoint) :
    g.truth? (fun time => enc.situationOf T (x time)) time =
      some (decide (enc.grounded.Holds (x time).objects ⟨v, o⟩) == equal) := by
  unfold fluentGoal at h
  split at h
  next hv =>
    have hproposition := (hT.isLiteral_iff v).mp hv
    obtain ⟨f, hf, h⟩ := Grounding.except_bind_eq_ok.mp h
    cases h
    rw [truth?_fact_or_negation (values_of_fact? hT (hx time) hv (enc.fact_eq_ok hf))]
    rcases hc.truthValue hproposition with rfl | rfl
    · rw [decide_eq_decide.mpr (holds_truth_iff (v := v) (x := x time))]
      cases equal <;> rfl
    · rw [decide_eq_decide.mpr (holds_falsity_iff (hx time) hproposition), decide_not]
      cases decide ((x time).objects.IsTrue v) <;> cases equal <;> rfl
  next hv =>
    have hproposition : enc.grounded.isProposition v = false :=
      Bool.eq_false_iff.mpr fun h => hv ((hT.isLiteral_iff v).mpr h)
    obtain ⟨⟨var, value⟩, hplace, h⟩ := Grounding.except_bind_eq_ok.mp h
    cases h
    obtain ⟨hvar, hvalue⟩ := enc.objectFact_eq_ok hplace
    rw [truth?_fact_or_negation (values_of_finite? hT (hx time) hvar
      ((hsame.value?_eq _).trans hvalue) hc.object), decide_eq_decide.mpr
        (holds_object_iff hproposition)]

/-- An encoded expression of a goal has the value of the expression. -/
theorem valueOf_partialExpression {e : Expression Grounded.PartialQuantity}
    {e' : Expression Quantity} (h : enc.partialExpression e = .ok e')
    (x : Grounded.Situation Float) :
    valueOf (enc.situationOf T x) none e' = Grounded.valueInGoal x e := by
  refine Expression.value?_of_mapM (fun q q' hq => ?_) h
  cases q with
  | number n =>
    cases hq
    rfl
  | var v =>
    rw [partialQuantity, map_eq_pure_bind] at hq
    obtain ⟨var, hvar, hq⟩ := Grounding.except_bind_eq_ok.mp hq
    cases hq
    unfold numericVar at hvar
    split at hvar
    next hplace =>
      cases hvar
      show (enc.overNumbers? _).bind x.numbers = x.numbers v
      rw [overNumbers?_eq_some hT hplace, Option.bind_some]
    · cases hvar
  | _ => cases hq

theorem map_valueOf_partialExpressions {es : List (Expression Grounded.PartialQuantity)}
    {es' : List (Expression Quantity)} (h : es.mapM enc.partialExpression = .ok es')
    (x : Grounded.Situation Float) :
    es'.map (valueOf (enc.situationOf T x) none) = es.map (Grounded.valueInGoal x) :=
  map_eq_map_of_forall₂ ((Grounding.except_mapM_eq_ok h).imp fun _ _ he =>
    valueOf_partialExpression hT he x)

omit hT in
/-- The goal that a variable has a value becomes a fact or the negation of one. -/
theorem fluentGoal_eq_ok {T₁ : Task} {v : VarId} {o : ObjectId} {equal : Bool} {g : Goal}
    (h : enc.fluentGoal T₁ v o equal = .ok g) :
    ∃ var value, g = .fact var value ∨ g = .not (.fact var value) := by
  have heither : ∀ (b : Bool) (fact : Goal),
      (if b then fact else fact.not) = fact ∨ (if b then fact else fact.not) = fact.not := by
    intro b fact
    cases b
    · exact Or.inr rfl
    · exact Or.inl rfl
  unfold fluentGoal at h
  split at h
  · obtain ⟨f, -, h⟩ := Grounding.except_bind_eq_ok.mp h
    cases h
    exact ⟨_, _, heither _ _⟩
  · obtain ⟨⟨var, value⟩, -, h⟩ := Grounding.except_bind_eq_ok.mp h
    cases h
    exact ⟨_, _, heither _ _⟩

omit hT in
/-- Encoded goals have their negations taken in. -/
theorem isReduced_of_goal {T₁ : Task} :
    ∀ {g : Grounded.Goal} {g' : Goal}, enc.goal T₁ g = .ok g' → IsReduced g'
  | .fluent v o equal, g', h => by
    rw [goal] at h
    obtain ⟨var, value, rfl | rfl⟩ := fluentGoal_eq_ok h <;> trivial
  | .not g, g', h => by
    rw [goal, map_eq_pure_bind] at h
    obtain ⟨g'', hg, h⟩ := Grounding.except_bind_eq_ok.mp h
    cases h
    exact isReduced_negate (isReduced_of_goal hg)
  | .and _, g', h | .or _, g', h | .timed _ _, g', h | .compare _ _, g', h => by
    rw [goal, map_eq_pure_bind] at h
    obtain ⟨_, -, h⟩ := Grounding.except_bind_eq_ok.mp h
    cases h
    trivial
  | .constant _, g', h => by
    rw [goal] at h
    cases h
    trivial
  | .ungroundedFluent _ _ _ _, g', h | .imply _ _, g', h | .existential _ _, g', h
  | .universal _ _, g', h | .equality _ _ _, g', h => by
    rw [goal] at h
    cases h

end Places

section Truth

variable {enc : Encoder} {T T₁ : Task} {x : Grounded.Situations Float}

mutual

/-- An encoded goal is as true as the goal, and so is its negation. -/
theorem truth?_negateIf_of_goal (hT : enc.Places T) (hsame : T₁.SameTables T)
    (hx : ∀ time, enc.IsState (x time)) :
    ∀ {g : Grounded.Goal} {g' : Goal} (time : TimePoint) (negated : Bool), enc.goal T₁ g = .ok g' →
      (∀ c ∈ g.literals, IsProper enc.grounded c) → g.NegatesNumbers x time negated →
        (negateIf negated g').truth? (fun time => enc.situationOf T (x time)) time =
          (g.truth? enc.grounded x time).map (negated ^^ ·)
  | .fluent v o equal, g', time, negated, h, hg, _ => by
    rw [goal] at h
    rw [Grounded.Goal.literals, List.forall_mem_singleton] at hg
    rw [truth?_negateIf, truth?_of_fluentGoal hT hsame h hg hx, Grounded.Goal.truth?]
    obtain ⟨var, value, rfl | rfl⟩ := fluentGoal_eq_ok h <;> exact fun _ _ h => by cases h
  | .and gs, g', time, negated, h, hg, hnumbers | .or gs, g', time, negated, h, hg, hnumbers => by
    rw [goal, map_eq_pure_bind] at h
    obtain ⟨gs', hgs, h⟩ := Grounding.except_bind_eq_ok.mp h
    cases h
    rw [Grounded.Goal.literals] at hg
    rw [Grounded.Goal.NegatesNumbers] at hnumbers
    rw [truth?_negateIf (fun _ _ h => by cases h), Goal.truth?, Grounded.Goal.truth?,
      truths?_of_goalList hT hsame hx time hgs hg hnumbers]
  | .not g, g', time, negated, h, hg, hnumbers => by
    rw [goal, map_eq_pure_bind] at h
    obtain ⟨g'', hgoal, h⟩ := Grounding.except_bind_eq_ok.mp h
    cases h
    rw [Grounded.Goal.literals] at hg
    rw [Grounded.Goal.NegatesNumbers] at hnumbers
    -- two negations cancel, as encoded goals are reduced
    have hcancel : negateIf negated (negate g'') = negateIf (!negated) g'' := by
      cases negated
      · rfl
      · exact negate_negate (isReduced_of_goal hgoal)
    rw [hcancel, truth?_negateIf_of_goal hT hsame hx time (!negated) hgoal hg hnumbers,
      Grounded.Goal.truth?, Option.map_map]
    congr 1
    funext truth
    cases negated <;> simp
  | .timed time' g, g', time, negated, h, hg, hnumbers => by
    -- negations stay outside of time points
    rw [goal, map_eq_pure_bind] at h
    obtain ⟨g'', hgoal, h⟩ := Grounding.except_bind_eq_ok.mp h
    cases h
    rw [Grounded.Goal.literals] at hg
    rw [Grounded.Goal.NegatesNumbers] at hnumbers
    have hbelow := truth?_negateIf_of_goal hT hsame hx time' false hgoal hg hnumbers
    rw [negateIf, if_neg Bool.false_ne_true] at hbelow
    rw [truth?_negateIf (fun _ _ h => by cases h), Goal.truth?, Grounded.Goal.truth?, hbelow]
    simp
  | .compare comparator terms, g', time, negated, h, _, hnumbers => by
    rw [goal, map_eq_pure_bind] at h
    obtain ⟨terms', hterms, h⟩ := Grounding.except_bind_eq_ok.mp h
    cases h
    rw [Grounded.Goal.NegatesNumbers] at hnumbers
    have hvalues := map_valueOf_partialExpressions hT hterms (x time)
    cases negated with
    | false =>
      rw [negateIf, if_neg Bool.false_ne_true, Goal.truth?, Grounded.Goal.truth?, hvalues]
      simp
    | true =>
      rw [negateIf, if_pos rfl, negate, Goal.truth?, Grounded.Goal.truth?, hvalues,
        decide?_negated comparator fun horder n hn => ?_]
      · simp
      · obtain ⟨e, he, hn⟩ := List.mem_map.mp hn
        exact hnumbers rfl horder e he n hn
  | .constant _, g', time, negated, h, _, _ => by
    rw [goal] at h
    cases h
    rw [truth?_negateIf (fun _ _ h => by cases h), Goal.truth?, Grounded.Goal.truth?]
  | .ungroundedFluent _ _ _ _, _, _, _, h, _, _ | .imply _ _, _, _, _, h, _, _
  | .existential _ _, _, _, _, h, _, _ | .universal _ _, _, _, _, h, _, _
  | .equality _ _ _, _, _, _, h, _, _ => by
    rw [goal] at h
    cases h

theorem truths?_of_goalList (hT : enc.Places T) (hsame : T₁.SameTables T)
    (hx : ∀ time, enc.IsState (x time)) :
    ∀ {gs : List Grounded.Goal} {gs' : List Goal} (time : TimePoint),
      enc.goalList T₁ gs = .ok gs' →
      (∀ c ∈ Grounded.Goal.literalsOfList gs, IsProper enc.grounded c) →
        Grounded.Goal.AllNegateNumbers x time gs →
          Goal.truths? (fun time => enc.situationOf T (x time)) time gs' =
            Grounded.Goal.truths? enc.grounded x time gs
  | [], gs', time, h, _, _ => by
    rw [goalList] at h
    cases h
    rw [Goal.truths?, Grounded.Goal.truths?]
  | g :: gs, gs', time, h, hg, hnumbers => by
    rw [goalList] at h
    obtain ⟨g', hgoal, h⟩ := Grounding.except_bind_eq_ok.mp h
    obtain ⟨gs'', hgs, h⟩ := Grounding.except_bind_eq_ok.mp h
    cases h
    rw [Grounded.Goal.literalsOfList, List.forall_mem_append] at hg
    have hfirst := truth?_negateIf_of_goal hT hsame hx time false hgoal hg.1 hnumbers.1
    rw [negateIf, if_neg Bool.false_ne_true] at hfirst
    rw [Goal.truths?, Grounded.Goal.truths?, hfirst,
      truths?_of_goalList hT hsame hx time hgs hg.2 hnumbers.2]
    simp

end

/-- **An encoded goal is as true as the goal**, if its negations are taken into comparisons of
numbers only. -/
theorem truth?_of_goal (hT : enc.Places T) (hsame : T₁.SameTables T)
    (hx : ∀ time, enc.IsState (x time)) {g : Grounded.Goal} {g' : Goal}
    (h : enc.goal T₁ g = .ok g') (hg : ∀ c ∈ g.literals, IsProper enc.grounded c)
    (time : TimePoint) (hnumbers : g.NegatesNumbers x time false) :
    g'.truth? (fun time => enc.situationOf T (x time)) time = g.truth? enc.grounded x time := by
  have hbelow := truth?_negateIf_of_goal hT hsame hx time false h hg hnumbers
  rw [negateIf, if_neg Bool.false_ne_true] at hbelow
  simpa using hbelow

end Truth

/-! ## Constraints -/

/-- An encoded constraint has the same form, and its goals are the encoded ones. -/
inductive EncodesConstraint (R : Grounded.Goal → Goal → Prop) :
    Grounded.Constraint → Constraint → Prop
  | and {cs : List Grounded.Constraint} {cs' : List Constraint}
    (h : List.Forall₂ (EncodesConstraint R) cs cs') : EncodesConstraint R (.and cs) (.and cs')
  | preference {c : Grounded.Constraint} {c' : Constraint} (nameIndex : Nat)
    (h : EncodesConstraint R c c') :
    EncodesConstraint R (.preference nameIndex c) (.preference nameIndex c')
  | goalPreference {g : Grounded.Goal} {g' : Goal} (nameIndex : Nat) (h : R g g') :
    EncodesConstraint R (.goalPreference nameIndex g) (.goalPreference nameIndex g')
  | temporal {gs : List Grounded.Goal} {gs' : List Goal} (modality : Modality)
    (times : List Float) (h : List.Forall₂ R gs gs') :
    EncodesConstraint R (.temporal modality times gs) (.temporal modality times gs')

section Constraints

variable {enc : Encoder} {T₁ : Task} {P : Grounded.Goal → Prop} {R : Grounded.Goal → Goal → Prop}

theorem forall₂_of_goalList (hR : ∀ g g', P g → enc.goal T₁ g = .ok g' → R g g')
    {gs : List Grounded.Goal} {gs' : List Goal} (h : enc.goalList T₁ gs = .ok gs')
    (hgs : ∀ g ∈ gs, P g) : List.Forall₂ R gs gs' := by
  induction gs generalizing gs' with
  | nil =>
    cases h
    exact .nil
  | cons g gs ih =>
    rw [goalList] at h
    obtain ⟨g', hgoal, h⟩ := Grounding.except_bind_eq_ok.mp h
    obtain ⟨gs'', hrest, h⟩ := Grounding.except_bind_eq_ok.mp h
    cases h
    obtain ⟨hg, hgs⟩ := List.forall_mem_cons.mp hgs
    exact .cons (hR g g' hg hgoal) (ih hrest hgs)

mutual

theorem encodesConstraint_of_constraint (hR : ∀ g g', P g → enc.goal T₁ g = .ok g' → R g g') :
    ∀ {c : Grounded.Constraint} {c' : Constraint}, enc.constraint T₁ c = .ok c' →
      (∀ g ∈ c.goals, P g) → EncodesConstraint R c c'
  | .and cs, c', h, hc => by
    rw [constraint, map_eq_pure_bind] at h
    obtain ⟨cs', hcs, h⟩ := Grounding.except_bind_eq_ok.mp h
    cases h
    rw [Grounded.Constraint.goals] at hc
    exact .and (forall₂_of_constraintList hR hcs hc)
  | .preference nameIndex c, c', h, hc => by
    rw [constraint, map_eq_pure_bind] at h
    obtain ⟨c'', hconstraint, h⟩ := Grounding.except_bind_eq_ok.mp h
    cases h
    rw [Grounded.Constraint.goals] at hc
    exact .preference nameIndex (encodesConstraint_of_constraint hR hconstraint hc)
  | .goalPreference nameIndex g, c', h, hc => by
    rw [constraint, map_eq_pure_bind] at h
    obtain ⟨g', hg, h⟩ := Grounding.except_bind_eq_ok.mp h
    cases h
    rw [Grounded.Constraint.goals, List.forall_mem_singleton] at hc
    exact .goalPreference nameIndex (hR g g' hc hg)
  | .temporal modality times gs, c', h, hc => by
    rw [constraint, map_eq_pure_bind] at h
    obtain ⟨gs', hgs, h⟩ := Grounding.except_bind_eq_ok.mp h
    cases h
    rw [Grounded.Constraint.goals] at hc
    exact .temporal modality times (forall₂_of_goalList hR hgs hc)

theorem forall₂_of_constraintList (hR : ∀ g g', P g → enc.goal T₁ g = .ok g' → R g g') :
    ∀ {cs : List Grounded.Constraint} {cs' : List Constraint},
      enc.constraintList T₁ cs = .ok cs' → (∀ g ∈ Grounded.Constraint.goalsOfList cs, P g) →
        List.Forall₂ (EncodesConstraint R) cs cs'
  | [], cs', h, _ => by
    rw [constraintList] at h
    cases h
    exact .nil
  | c :: cs, cs', h, hc => by
    rw [constraintList] at h
    obtain ⟨c', hconstraint, h⟩ := Grounding.except_bind_eq_ok.mp h
    obtain ⟨cs'', hcs, h⟩ := Grounding.except_bind_eq_ok.mp h
    cases h
    rw [Grounded.Constraint.goalsOfList, List.forall_mem_append] at hc
    exact .cons (encodesConstraint_of_constraint hR hconstraint hc.1)
      (forall₂_of_constraintList hR hcs hc.2)

end

end Constraints

end Encoder

end Encoding

end TemporalPlanning
