import TemporalPlanning.Proofs.Truth
/-!
Grounded goals that hold.

`Goal.truth?` leaves a goal open as soon as one of its comparisons reads something without a value.
`Goal.Holds` decides every goal: what reads something without a value does not hold. Where all
variables have objects, both agree on the goals that the first one decides.

The goals that planners receive are plain. They consist of variables with their values, comparisons
of numbers and constants, joined without quantifiers and implications.
-/
set_option autoImplicit false

namespace TemporalPlanning.Grounded

/-! ## Goals that hold -/

namespace Goal

mutual

/-- A goal holds. What is not tied to a time point is read at the given one. -/
def Holds (x : Situations Float) (time : TimePoint) : Goal → Prop
  | .fluent v o equal => ∃ o', (x time).objects v = some o' ∧ (o' = o ↔ equal = true)
  | .and goals => HoldsAll x time goals
  | .or goals => HoldsAny x time goals
  | .not goal => ¬Holds x time goal
  | .imply premise conclusion => Holds x time premise → Holds x time conclusion
  | .equality equal (.object left) (.object right) => left = right ↔ equal = true
  | .compare comparator terms =>
    comparator.decide? (terms.map (valueInGoal (x time))) = some true
  | .timed time goal => Holds x time goal
  | .constant holds => holds = true
  | .equality .. | .ungroundedFluent .. | .existential .. | .universal .. => False

/-- All goals of a list hold. -/
def HoldsAll (x : Situations Float) (time : TimePoint) : List Goal → Prop
  | [] => True
  | goal :: rest => Holds x time goal ∧ HoldsAll x time rest

/-- Some goal of a list holds. -/
def HoldsAny (x : Situations Float) (time : TimePoint) : List Goal → Prop
  | [] => False
  | goal :: rest => Holds x time goal ∨ HoldsAny x time rest

end

section

variable {x : Situations Float} {time : TimePoint}

/-- Lists of goals are treated by predicates of their own only for the sake of the recursion. -/
theorem holdsAll_iff {goals : List Goal} :
    HoldsAll x time goals ↔ ∀ g ∈ goals, g.Holds x time := by
  induction goals with
  | nil => simp [HoldsAll]
  | cons g goals ih => rw [HoldsAll, ih, List.forall_mem_cons]

theorem holdsAny_iff {goals : List Goal} :
    HoldsAny x time goals ↔ ∃ g ∈ goals, g.Holds x time := by
  induction goals with
  | nil => simp [HoldsAny]
  | cons g goals ih => rw [HoldsAny, ih, List.exists_mem_cons_iff]

@[simp]
theorem holds_constant {holds : Bool} : (Goal.constant holds).Holds x time ↔ holds = true := by
  rw [Holds]

@[simp]
theorem holds_not {g : Goal} : (Goal.not g).Holds x time ↔ ¬g.Holds x time := by
  rw [Holds]

/-- The situation is the one at the time of the goal. -/
@[simp]
theorem holds_timed {time' : TimePoint} {g : Goal} :
    (Goal.timed time' g).Holds x time ↔ g.Holds x time' := by
  rw [Holds]

end

/-! ## Agreement with truth -/

section Truth

variable {x : Situations Float}

mutual

/-- A decided goal holds exactly if it is true. -/
theorem holds_iff_of_truth? (t : Task) (hx : ∀ time v, ((x time).objects v).isSome = true) :
    ∀ (g : Goal) {time : TimePoint} {b : Bool}, truth? t x time g = some b →
      (g.Holds x time ↔ b = true)
  | .fluent v o equal, time, b, h => by
    -- a variable with an object is either this one or another one, so the goal is decided
    obtain ⟨o', ho'⟩ := Option.isSome_iff_exists.mp (hx time v)
    have hholds : t.Holds (x time).objects ⟨v, o⟩ ↔ o' = o := by
      unfold Task.Holds
      rw [ho']
      simp
    rw [truth?] at h
    cases h
    rw [Holds, ho', beq_iff_eq]
    cases equal <;> simp [hholds]
  | .and goals, time, b, h => by
    rw [truth?] at h
    obtain ⟨truths, htruths, rfl⟩ := Option.map_eq_some_iff.mp h
    rw [Holds]
    exact (holds_iff_of_truths? t hx goals htruths).1
  | .or goals, time, b, h => by
    rw [truth?] at h
    obtain ⟨truths, htruths, rfl⟩ := Option.map_eq_some_iff.mp h
    rw [Holds]
    exact (holds_iff_of_truths? t hx goals htruths).2
  | .not g, time, b, h => by
    rw [truth?] at h
    obtain ⟨b', hb', rfl⟩ := Option.map_eq_some_iff.mp h
    rw [Holds, holds_iff_of_truth? t hx g hb']
    simp
  | .imply premise conclusion, time, b, h => by
    rw [truth?] at h
    obtain ⟨p, hp, h⟩ := Option.bind_eq_some_iff.mp h
    obtain ⟨c, hc, h⟩ := Option.bind_eq_some_iff.mp h
    cases h
    rw [Holds, holds_iff_of_truth? t hx premise hp, holds_iff_of_truth? t hx conclusion hc]
    cases p <;> simp
  | .equality equal (.object left) (.object right), time, b, h => by
    rw [truth?] at h
    cases h
    rw [Holds]
    cases equal <;> simp
  | .compare comparator terms, time, b, h => by
    rw [truth?] at h
    rw [Holds, h, Option.some.injEq]
  | .timed time' g, time, b, h => by
    rw [truth?] at h
    rw [Holds]
    exact holds_iff_of_truth? t hx g h
  | .constant holds, time, b, h => by
    rw [truth?] at h
    cases h
    rw [Holds]
  | .equality _ (.quantified _) _, time, b, h
  | .equality _ (.object _) (.quantified _), time, b, h
  | .ungroundedFluent _ _ _ _, time, b, h
  | .existential _ _, time, b, h
  | .universal _ _, time, b, h => by
    -- what still has a quantifier is never decided
    rw [truth?] at h
    · cases h
    all_goals simp

/-- Of a list whose goals are all decided, both the conjunction and the disjunction are decided. -/
theorem holds_iff_of_truths? (t : Task) (hx : ∀ time v, ((x time).objects v).isSome = true) :
    ∀ (goals : List Goal) {time : TimePoint} {truths : List Bool},
      truths? t x time goals = some truths →
        (HoldsAll x time goals ↔ truths.all id = true) ∧
          (HoldsAny x time goals ↔ truths.any id = true)
  | [], time, truths, h => by
    rw [truths?] at h
    cases h
    simp [HoldsAll, HoldsAny]
  | g :: goals, time, truths, h => by
    rw [truths?] at h
    obtain ⟨b, hb, h⟩ := Option.bind_eq_some_iff.mp h
    obtain ⟨rest, hrest, h⟩ := Option.bind_eq_some_iff.mp h
    cases h
    obtain ⟨hall, hany⟩ := holds_iff_of_truths? t hx goals hrest
    rw [HoldsAll, HoldsAny, hall, hany, holds_iff_of_truth? t hx g hb]
    simp

end

end Truth

end Goal

/-! ## Plain goals -/

/-- A leaf of an expression that refers to no quantified parameter. -/
def PartialQuantity.IsPlain : PartialQuantity → Prop
  | .number _ | .var _ | .term (.object _) => True
  | .ungrounded .. | .term (.quantified _) => False

namespace Goal

mutual

/-- A goal without quantifiers, implications, equations of terms, and whatever refers to quantified
parameters. -/
def IsPlain : Goal → Prop
  | .fluent .. | .constant _ => True
  | .and goals | .or goals => ArePlain goals
  | .not goal | .timed _ goal => IsPlain goal
  | .compare _ terms => ∀ e ∈ terms, ∀ q ∈ e.atoms, q.IsPlain
  | .imply .. | .existential .. | .universal .. | .equality .. | .ungroundedFluent .. => False

/-- A list of such goals. -/
def ArePlain : List Goal → Prop
  | [] => True
  | goal :: rest => IsPlain goal ∧ ArePlain rest

end

theorem arePlain_iff {goals : List Goal} : ArePlain goals ↔ ∀ g ∈ goals, g.IsPlain := by
  induction goals with
  | nil => simp [ArePlain]
  | cons g goals ih => rw [ArePlain, ih, List.forall_mem_cons]

end Goal

end TemporalPlanning.Grounded
