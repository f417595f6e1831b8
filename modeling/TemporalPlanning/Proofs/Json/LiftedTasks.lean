import TemporalPlanning.Lifted.Format
import TemporalPlanning.Proofs.Json.Lossless
/-!
Lifted tasks are read back as they were written.

Every type that lifted tasks are made of has a document form that loses nothing. For a record this
takes the names of its fields, which differ from each other; for a choice the names of its
alternatives, and for the leaves of expressions that none of these is the name of an operation.
Goals and constraints contain goals and constraints; for them the result is proved by recursion on
their structure, for all fuel above the depth of the document.
-/
set_option autoImplicit false

namespace TemporalPlanning

open Lossless Json

/-! ## Identifiers and keywords -/

instance : Lossless TypeId where
  fits i := fits i.index
  read?_write h := congrArg (Option.map TypeId.mk) (read?_write h)

instance : Lossless ObjectId where
  fits i := fits i.index
  read?_write h := congrArg (Option.map ObjectId.mk) (read?_write h)

instance : Lossless FunctionId where
  fits i := fits i.index
  read?_write h := congrArg (Option.map FunctionId.mk) (read?_write h)

instance : Lossless VarId where
  fits i := fits i.index
  read?_write h := congrArg (Option.map VarId.mk) (read?_write h)

instance : Lossless TimePoint where
  fits _ := true
  read?_write {x} _ := named?_string (by rintro ⟨⟩ <;> decide)
    (by rintro ⟨⟩ ⟨⟩ <;> simp [TimePoint.name]) x

instance : Lossless Modality where
  fits _ := true
  read?_write {x} _ := named?_string (by rintro ⟨⟩ <;> decide)
    (by rintro ⟨⟩ ⟨⟩ <;> simp [Modality.name]) x

instance : Lossless Objective where
  fits _ := true
  read?_write {x} _ := named?_string (by rintro ⟨⟩ <;> decide)
    (by rintro ⟨⟩ ⟨⟩ <;> simp [Objective.name]) x

instance : Lossless Value where
  fits
    | .object o => fits o
    | .number x => fits x
  read?_write {v} h := by
    cases v with
    | object o => exact read_choice (by simp [read?_write h])
    | number x => exact read_choice (by simp [read?_write h])

namespace Lifted

/-! ## Tables -/

instance : Lossless TypeEntry where
  fits t := fits t.name && fits t.parents
  read?_write h := by
    simp only [Bool.and_eq_true] at h
    obtain ⟨hname, hparents⟩ := h
    refine read_record rfl (by decide) ?_
    simp [List.lookup_cons, defaulted_mk, read?_write, *]

instance : Lossless ObjectEntry where
  fits o := fits o.name && fits o.types
  read?_write h := by
    simp only [Bool.and_eq_true] at h
    obtain ⟨hname, htypes⟩ := h
    refine read_record rfl (by decide) ?_
    simp [List.lookup_cons, defaulted_mk, read?_write, *]

instance : Lossless Parameter where
  fits p := fits p.name && fits p.types
  read?_write h := by
    simp only [Bool.and_eq_true] at h
    obtain ⟨hname, htypes⟩ := h
    refine read_record rfl (by decide) ?_
    simp [List.lookup_cons, read?_write, *]

instance : Lossless FunctionEntry where
  fits f := fits f.name && fits f.parameters && fits f.valueTypes
  read?_write h := by
    simp only [Bool.and_eq_true, and_assoc] at h
    obtain ⟨hname, hparameters, hvalueTypes⟩ := h
    refine read_record rfl (by decide) ?_
    simp [List.lookup_cons, defaulted_mk, read?_write, *]

/-! ## Conditions and expressions -/

instance : Lossless Term where
  fits
    | .param i => fits i
    | .object o => fits o
  read?_write {t} h := by
    cases t with
    | param i => exact read_choice (by simp [read?_write h])
    | object o => exact read_choice (by simp [read?_write h])

instance : Lossless Literal where
  fits l := fits l.function && fits l.arguments
  read?_write h := by
    simp only [Bool.and_eq_true] at h
    obtain ⟨hfunction, harguments⟩ := h
    refine read_record rfl (by decide) ?_
    simp [List.lookup_cons, defaulted_mk, read?_write, *]

instance : Lossless Quantity where
  fits
    | .number x => fits x
    | .term t => fits t
    | .fluent l => fits l
    | .duration | .elapsed => true
  read?_write {q} h := by
    cases q with
    | number x => exact read_choice (by simp [read?_write h])
    | term t => exact read_choice (by simp [read?_write h])
    | fluent l => exact read_choice (by simp [read?_write h])
    | duration => rfl
    | elapsed => rfl

instance : Expression.Leaf Quantity where
  exists_choice q := by
    cases q with
    | number x => exact ⟨_, rfl, rfl⟩
    | term t => exact ⟨_, rfl, rfl⟩
    | fluent l => exact ⟨_, rfl, rfl⟩
    | duration => exact ⟨_, rfl, rfl⟩
    | elapsed => exact ⟨_, rfl, rfl⟩

/-! ## Goals -/

namespace Goal

mutual

/-- Whether the parts of a goal fit into its document. -/
def partsFit : Goal → Bool
  | .literal l | .negLiteral l => fits l
  | .and goals | .or goals => allFit goals
  | .not goal => goal.partsFit
  | .imply premise conclusion => premise.partsFit && conclusion.partsFit
  | .existential parameters goal | .universal parameters goal =>
    fits parameters && goal.partsFit
  | .compare _ left right => fits left && fits right
  | .equality left right | .inequality left right => fits left && fits right
  | .timed _ goal => goal.partsFit

/-- Whether the parts of all goals of a list fit. -/
def allFit : List Goal → Bool
  | [] => true
  | goal :: rest => goal.partsFit && allFit rest

end

mutual

theorem readWithin_toJson {g : Goal} (h : g.partsFit = true) {fuel : Nat}
    (hfuel : g.toJson.depth < fuel) : readWithin fuel g.toJson = some g := by
  obtain ⟨fuel, rfl⟩ : ∃ n, fuel = n + 1 := ⟨fuel - 1, by omega⟩
  cases g with
  | literal l | negLiteral l =>
    rw [toJson, readWithin]
    exact read_choice (by simp [read?_write (x := l) h])
  | and goals | or goals =>
    rw [toJson, depth_record_cons, depth_array] at hfuel
    have hgoals : (listToJson goals).mapM (readWithin fuel) = some goals :=
      mapM_readWithin h (by omega)
    rw [toJson, readWithin]
    exact read_choice (by simp [list?, items?, hgoals])
  | not goal =>
    rw [toJson, depth_record_cons] at hfuel
    have hgoal : readWithin fuel goal.toJson = some goal :=
      readWithin_toJson (g := goal) h (by omega)
    rw [toJson, readWithin]
    exact read_choice (by simp [hgoal])
  | imply premise conclusion =>
    obtain ⟨hleft, hright⟩ := Bool.and_eq_true_iff.mp h
    rw [toJson, depth_record_cons, depth_array, depthOfItems, depthOfItems] at hfuel
    have hpremise : readWithin fuel premise.toJson = some premise :=
      readWithin_toJson hleft (by omega)
    have hconclusion : readWithin fuel conclusion.toJson = some conclusion :=
      readWithin_toJson hright (by omega)
    rw [toJson, readWithin]
    exact read_choice (by simp [hpremise, hconclusion])
  | existential parameters goal | universal parameters goal =>
    obtain ⟨hleft, hright⟩ := Bool.and_eq_true_iff.mp h
    rw [toJson, depth_record_cons, depth_record_cons, depth_record_cons] at hfuel
    have hgoal : readWithin fuel goal.toJson = some goal := readWithin_toJson hright (by omega)
    rw [toJson, readWithin]
    exact read_choice (by simp [record?_record, List.lookup_cons, read?_write hleft, hgoal])
  | compare comparator left right =>
    obtain ⟨hleft, hright⟩ := Bool.and_eq_true_iff.mp h
    have hcomparator : fits comparator = true := rfl
    rw [toJson, readWithin]
    refine read_choice ?_
    simp [record?_record, List.lookup_cons, read?_write hcomparator, read?_write hleft,
      read?_write hright]
  | equality left right | inequality left right =>
    obtain ⟨hleft, hright⟩ := Bool.and_eq_true_iff.mp h
    rw [toJson, readWithin]
    refine read_choice ?_
    simp [record?_record, List.lookup_cons, read?_write hleft, read?_write hright]
  | timed time goal =>
    have htime : fits time = true := rfl
    rw [toJson, depth_record_cons, depth_record_cons, depth_record_cons] at hfuel
    have hgoal : readWithin fuel goal.toJson = some goal :=
      readWithin_toJson (g := goal) h (by omega)
    rw [toJson, readWithin]
    exact read_choice (by simp [record?_record, List.lookup_cons, read?_write htime, hgoal])

theorem mapM_readWithin {goals : List Goal} (h : allFit goals = true) {fuel : Nat}
    (hfuel : depthOfItems (listToJson goals) < fuel) :
    (listToJson goals).mapM (readWithin fuel) = some goals := by
  cases goals with
  | nil => rfl
  | cons goal rest =>
    obtain ⟨hfirst, hrest⟩ := Bool.and_eq_true_iff.mp h
    rw [listToJson, depthOfItems] at hfuel
    rw [listToJson, List.mapM_cons, readWithin_toJson hfirst (by omega),
      mapM_readWithin hrest (by omega)]
    rfl

end

end Goal

instance : Lossless Goal where
  fits := Goal.partsFit
  read?_write h := Goal.readWithin_toJson h (Nat.lt_succ_self _)

/-! ## Constraints and metric -/

namespace Constraint

mutual

/-- Whether the parts of a constraint fit into its document. -/
def partsFit : Constraint → Bool
  | .and constraints => allFit constraints
  | .universal parameters constraint => fits parameters && constraint.partsFit
  | .preference name constraint => fits name && constraint.partsFit
  | .goalPreference name goal => fits name && fits goal
  | .temporal _ times goals => fits times && fits goals

/-- Whether the parts of all constraints of a list fit. -/
def allFit : List Constraint → Bool
  | [] => true
  | constraint :: rest => constraint.partsFit && allFit rest

end

mutual

theorem readWithin_toJson {c : Constraint} (h : c.partsFit = true) {fuel : Nat}
    (hfuel : c.toJson.depth < fuel) : readWithin fuel c.toJson = some c := by
  obtain ⟨fuel, rfl⟩ : ∃ n, fuel = n + 1 := ⟨fuel - 1, by omega⟩
  cases c with
  | and constraints =>
    rw [toJson, depth_record_cons, depth_array] at hfuel
    have hconstraints : (listToJson constraints).mapM (readWithin fuel) = some constraints :=
      mapM_readWithin h (by omega)
    rw [toJson, readWithin]
    exact read_choice (by simp [list?, items?, hconstraints])
  | universal parameters constraint =>
    obtain ⟨hleft, hright⟩ := Bool.and_eq_true_iff.mp h
    rw [toJson, depth_record_cons, depth_record_cons, depth_record_cons] at hfuel
    have hconstraint : readWithin fuel constraint.toJson = some constraint :=
      readWithin_toJson hright (by omega)
    rw [toJson, readWithin]
    exact read_choice (by simp [record?_record, List.lookup_cons, read?_write hleft, hconstraint])
  | preference name constraint =>
    obtain ⟨hleft, hright⟩ := Bool.and_eq_true_iff.mp h
    rw [toJson, depth_record_cons, depth_record_cons, depth_record_cons] at hfuel
    have hconstraint : readWithin fuel constraint.toJson = some constraint :=
      readWithin_toJson hright (by omega)
    rw [toJson, readWithin]
    exact read_choice (by simp [record?_record, List.lookup_cons, read?_write hleft, hconstraint])
  | goalPreference name goal =>
    obtain ⟨hleft, hright⟩ := Bool.and_eq_true_iff.mp h
    rw [toJson, readWithin]
    exact read_choice (by simp [record?_record, List.lookup_cons, read?_write hleft, read?_write hright])
  | temporal modality times goals =>
    obtain ⟨hleft, hright⟩ := Bool.and_eq_true_iff.mp h
    have hmodality : fits modality = true := rfl
    rw [toJson, readWithin]
    refine read_choice ?_
    simp [record?_record, List.lookup_cons, defaulted_mk, read?_write hmodality, read?_write hleft,
      read?_write hright]

theorem mapM_readWithin {constraints : List Constraint} (h : allFit constraints = true)
    {fuel : Nat} (hfuel : depthOfItems (listToJson constraints) < fuel) :
    (listToJson constraints).mapM (readWithin fuel) = some constraints := by
  cases constraints with
  | nil => rfl
  | cons constraint rest =>
    obtain ⟨hfirst, hrest⟩ := Bool.and_eq_true_iff.mp h
    rw [listToJson, depthOfItems] at hfuel
    rw [listToJson, List.mapM_cons, readWithin_toJson hfirst (by omega),
      mapM_readWithin hrest (by omega)]
    rfl

end

end Constraint

instance : Lossless Constraint where
  fits := Constraint.partsFit
  read?_write h := Constraint.readWithin_toJson h (Nat.lt_succ_self _)

instance : Lossless Measure where
  fits
    | .number x => fits x
    | .totalTime => true
    | .isViolated name => fits name
    | .fluent function arguments => fits function && fits arguments
  read?_write {m} h := by
    cases m with
    | number x => exact read_choice (by simp [read?_write h])
    | totalTime => rfl
    | isViolated name => exact read_choice (by simp [read?_write (x := name) h])
    | fluent function arguments =>
      obtain ⟨hleft, hright⟩ := Bool.and_eq_true_iff.mp h
      refine read_choice ?_
      simp [record?_record, List.lookup_cons, defaulted_mk, read?_write hleft, read?_write hright]

instance : Expression.Leaf Measure where
  exists_choice m := by
    cases m with
    | totalTime => exact ⟨_, rfl, rfl⟩
    | _ => exact ⟨_, rfl, rfl⟩

instance : Lossless Metric where
  fits m := fits m.objective && fits m.expression
  read?_write h := by
    simp only [Bool.and_eq_true] at h
    obtain ⟨hobjective, hexpression⟩ := h
    refine read_record rfl (by decide) ?_
    simp [List.lookup_cons, read?_write, *]

/-! ## Tasks -/

instance : Lossless Fact where
  fits f := fits f.function && fits f.arguments && fits f.value && fits f.time
  read?_write h := by
    simp only [Bool.and_eq_true, and_assoc] at h
    obtain ⟨hfunction, harguments, hvalue, htime⟩ := h
    refine read_record rfl (by decide) ?_
    simp [List.lookup_cons, defaulted_mk, read?_write, *]

instance : Lossless Task where
  fits t :=
    fits t.domainName && fits t.problemName && fits t.types && fits t.objects && fits t.functions &&
      fits t.init && fits t.constraints && t.metric.all fits
  read?_write {t} h := by
    simp only [Bool.and_eq_true, and_assoc] at h
    obtain ⟨hdomainName, hproblemName, htypes, hobjects, hfunctions, hinit, hconstraints,
      hmetric⟩ := h
    have hread : Format.read? (Format.write t.metric) = some t.metric :=
      read?_write_option fun m hm => ⟨nofun, read?_write ((Option.all_eq_true _ _).mp hmetric m hm)⟩
    refine read_record rfl (by decide) ?_
    simp [List.lookup_cons, defaulted_mk, read?_write, *]

/-! ## Operators -/

instance : Lossless Fluent where
  fits f := fits f.literal && fits f.value
  read?_write h := by
    simp only [Bool.and_eq_true] at h
    obtain ⟨hliteral, hvalue⟩ := h
    refine read_record rfl (by decide) ?_
    simp [List.lookup_cons, read?_write, *]

instance : Lossless NumericCondition where
  fits c := fits c.comparator && fits c.operands
  read?_write h := by
    simp only [Bool.and_eq_true] at h
    obtain ⟨hcomparator, hoperands⟩ := h
    refine read_record rfl (by decide) ?_
    simp [List.lookup_cons, read?_write, *]

instance : Lossless NumericEffect where
  fits e := fits e.assignment && fits e.fluent && fits e.expression
  read?_write h := by
    simp only [Bool.and_eq_true, and_assoc] at h
    obtain ⟨hassignment, hfluent, hexpression⟩ := h
    refine read_record rfl (by decide) ?_
    simp [List.lookup_cons, read?_write, *]

instance : Lossless Happening where
  fits h := fits h.conditions && fits h.numericConditions && fits h.effects && fits h.numericEffects
  read?_write h := by
    simp only [Bool.and_eq_true, and_assoc] at h
    obtain ⟨hconditions, hnumericConditions, heffects, hnumericEffects⟩ := h
    refine read_record rfl (by decide) ?_
    simp [List.lookup_cons, defaulted_mk, read?_write, *]

instance : Lossless DurationBound where
  fits d := fits d.time && fits d.comparator && fits d.expression
  read?_write h := by
    simp only [Bool.and_eq_true, and_assoc] at h
    obtain ⟨htime, hcomparator, hexpression⟩ := h
    refine read_record rfl (by decide) ?_
    simp [List.lookup_cons, defaulted_mk, read?_write, *]

instance : Lossless Identity where
  fits i := fits i.equal && fits i.left && fits i.right
  read?_write h := by
    simp only [Bool.and_eq_true, and_assoc] at h
    obtain ⟨hequal, hleft, hright⟩ := h
    refine read_record rfl (by decide) ?_
    simp [List.lookup_cons, read?_write, *]

instance : Lossless Preference where
  fits p := fits p.name && fits p.goal
  read?_write h := by
    simp only [Bool.and_eq_true] at h
    obtain ⟨hname, hgoal⟩ := h
    refine read_record rfl (by decide) ?_
    simp [List.lookup_cons, read?_write, *]

instance : Lossless Operator where
  fits o :=
    fits o.name && fits o.parameters && fits o.durations && fits o.atStart && fits o.atEnd &&
      fits o.invariants && fits o.numericInvariants && fits o.identities && fits o.preferences &&
      fits o.isGoal
  read?_write h := by
    simp only [Bool.and_eq_true, and_assoc] at h
    obtain ⟨hname, hparameters, hdurations, hatStart, hatEnd, hinvariants, hnumericInvariants,
      hidentities, hpreferences, hisGoal⟩ := h
    refine read_record rfl (by decide) ?_
    simp [List.lookup_cons, defaulted_mk, read?_write, *]

instance : Lossless Problem where
  fits p := fits p.task && fits p.operators
  read?_write h := by
    simp only [Bool.and_eq_true] at h
    obtain ⟨htask, hoperators⟩ := h
    refine read_record rfl (by decide) ?_
    simp [List.lookup_cons, read?_write, *]

end Lifted

end TemporalPlanning
