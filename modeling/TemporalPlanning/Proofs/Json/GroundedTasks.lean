import TemporalPlanning.Grounded.Format
import TemporalPlanning.Lifted.Basic
import TemporalPlanning.Proofs.Grounding.Ascending
import TemporalPlanning.Proofs.Json.LiftedTasks
/-!
Tasks are read back as they were written.

Grounded tasks are made of records and choices as lifted ones are, with one exception: the reached
values of a variable are an object whose members are named by the positions of objects. The digits
of a position are read back as this position, and the entries are entered anew one after the other,
which gives the same list because grounding has listed them in ascending order. Together with the
result for lifted tasks, this is the main theorem: whatever can be represented is read back, a
problem as well as what grounding makes of it.
-/
set_option autoImplicit false

namespace TemporalPlanning

open Lossless Json

/-! ## Positions as names -/

namespace Json

/-- Only the digits of zero start with a zero. -/
theorem eq_zero_of_head?_toDigits {n : Nat} (h : (Nat.toDigits 10 n).head? = some '0') : n = 0 := by
  induction n using Nat.strongRecOn with
  | ind n ih =>
    rw [Nat.toDigits_eq_if (by decide)] at h
    split at h
    next hlt =>
      have hdigit : ∀ d < 10, Nat.digitChar d = '0' → d = 0 := by decide
      exact hdigit n hlt (Option.some.inj h)
    next hge =>
      rw [List.head?_append_of_ne_nil _ Nat.toDigits_ne_nil] at h
      have hdiv := ih (n / 10) (Nat.div_lt_self (by omega) (by decide)) h
      omega

/-- The digits of a position are read back as the position. -/
theorem index?_toString {n : Nat} (h : n < indexLimit) :
    Key.index? ⟨toString n, false⟩ = some n := by
  have hdigits : (Nat.toDigits 10 n).all Char.isDigit = true :=
    List.all_eq_true.mpr fun c hc => Nat.isDigit_of_mem_toDigits (by decide) (by decide) hc
  have hvalue : (Nat.toDigits 10 n).foldl (fun n c => n * 10 + (c.toNat - '0'.toNat)) 0 = n := by
    have hread := Nat.ofDigitChars_ten_toDigits (n := n)
    rw [Nat.ofDigitChars_eq_foldl] at hread
    simpa only [Nat.mul_comm] using hread
  have hchars : (toString n).toList = Nat.toDigits 10 n := Nat.toList_repr
  simp only [Key.index?, hchars]
  split
  next heq => exact absurd heq Nat.toDigits_ne_nil
  next heq =>
    cases eq_zero_of_head?_toDigits (n := n) (by rw [heq]; rfl)
    cases heq
  · simp only [hdigits, Bool.not_false, Bool.and_self, if_true, hvalue, if_pos h]

end Json

namespace Grounded

/-! ## Variables -/

/-- Whether the positions and levels of reached values are machine words. -/
def reachedFit (reached : List (ObjectId × Nat)) : Bool :=
  reached.all fun e => fits e.1 && e.2 < levelLimit

/-- Reached values in ascending order are read back. -/
theorem reached?_reachedToJson {reached : List (ObjectId × Nat)}
    (h : reachedFit reached = true) (hascending : Ascending reached) :
    reached? (reachedToJson reached) = some reached := by
  let member := fun e : ObjectId × Nat => ((⟨toString e.1.index, false⟩ : Key), Format.write e.2)
  have hdocument : reachedToJson reached = .object (reached.map member) := by
    simp only [reachedToJson, record, List.map_map, Function.comp_def, member]
  simp only [hdocument, reached?]
  rw [mapM_map_eq_some fun e he => ?_]
  · exact congrArg some (foldl_setLevel hascending)
  · obtain ⟨hobject, hlevel⟩ := Bool.and_eq_true_iff.mp (List.all_eq_true.mp h e he)
    have hread : natBelow? levelLimit (Format.write e.2) = some e.2 :=
      natBelow?_natural (of_decide_eq_true hlevel)
    simp only [member, index?_toString (of_decide_eq_true hobject), hread]
    rfl

/-- Whether the parts of a variable fit into its document. -/
def Variable.partsFit (v : Variable) : Bool :=
  fits v.index && fits v.function && fits v.arguments &&
    reachedFit v.reached && fits v.initialValues

theorem read?_write_variable {v : Variable} (h : v.partsFit = true)
    (hascending : Ascending v.reached) : Format.read? (Format.write v) = some v := by
  simp only [Variable.partsFit, Bool.and_eq_true, and_assoc] at h
  obtain ⟨hindex, hfunction, harguments, hreached, hinitialValues⟩ := h
  have hisNumeric : fits v.isNumeric = true := rfl
  refine read_record rfl (by decide) ?_
  simp [List.lookup_cons, read?_write, reached?_reachedToJson hreached hascending, *]

/-! ## Conditions and effects -/

instance : Lossless Condition where
  fits c := fits c.var && fits c.value
  read?_write h := by
    simp only [Bool.and_eq_true] at h
    obtain ⟨hvar, hvalue⟩ := h
    refine read_record rfl (by decide) ?_
    simp [List.lookup_cons, read?_write, *]

instance : Lossless Quantity where
  fits
    | .number x => fits x
    | .var v => fits v
    | .object o => fits o
    | .duration | .elapsed => true
  read?_write {q} h := by
    cases q with
    | number x => exact read_choice (by simp [read?_write h])
    | var v => exact read_choice (by simp [read?_write h])
    | object o => exact read_choice (by simp [read?_write h])
    | duration => rfl
    | elapsed => rfl

instance : Expression.Leaf Quantity where
  exists_choice q := by cases q <;> exact ⟨_, rfl, rfl⟩

instance : Lossless NumericCondition where
  fits c := fits c.comparator && fits c.terms
  read?_write h := by
    simp only [Bool.and_eq_true] at h
    obtain ⟨hcomparator, hterms⟩ := h
    refine read_record rfl (by decide) ?_
    simp [List.lookup_cons, read?_write, *]

instance : Lossless NumericEffect where
  fits e := fits e.assignment && fits e.var && fits e.expression
  read?_write h := by
    simp only [Bool.and_eq_true, and_assoc] at h
    obtain ⟨hassignment, hvar, hexpression⟩ := h
    refine read_record rfl (by decide) ?_
    simp [List.lookup_cons, read?_write, *]

instance : Lossless DurationBound where
  fits d := fits d.time && fits d.comparator && fits d.expression
  read?_write h := by
    simp only [Bool.and_eq_true, and_assoc] at h
    obtain ⟨htime, hcomparator, hexpression⟩ := h
    refine read_record rfl (by decide) ?_
    simp [List.lookup_cons, read?_write, *]

/-! ## Goals -/

instance : Lossless PartialTerm where
  fits
    | .object o => fits o
    | .quantified i => fits i
  read?_write {t} h := by
    cases t with
    | object o => exact read_choice (by simp [read?_write h])
    | quantified i => exact read_choice (by simp [read?_write h])

instance : Lossless PartialQuantity where
  fits
    | .number x => fits x
    | .var v => fits v
    | .ungrounded function arguments => fits function && fits arguments
    | .term t => fits t
  read?_write {q} h := by
    cases q with
    | number x => exact read_choice (by simp [read?_write h])
    | var v => exact read_choice (by simp [read?_write h])
    | ungrounded function arguments =>
      obtain ⟨hleft, hright⟩ := Bool.and_eq_true_iff.mp h
      refine read_choice ?_
      simp [record?_record, List.lookup_cons, read?_write hleft, read?_write hright]
    | term t => exact read_choice (by simp [read?_write h])

instance : Expression.Leaf PartialQuantity where
  exists_choice q := by cases q <;> exact ⟨_, rfl, rfl⟩

namespace Goal

mutual

/-- Whether the parts of a goal fit into its document. -/
def partsFit : Goal → Bool
  | .fluent var value _ => fits var && fits value
  | .ungroundedFluent function arguments value _ =>
    fits function && fits arguments && fits value
  | .and goals | .or goals => allFit goals
  | .not goal => goal.partsFit
  | .imply premise conclusion => premise.partsFit && conclusion.partsFit
  | .existential types goal | .universal types goal =>
    fits types && goal.partsFit
  | .equality _ left right => fits left && fits right
  | .compare _ terms => fits terms
  | .timed _ goal => goal.partsFit
  | .constant _ => true

/-- Whether the parts of all goals of a list fit. -/
def allFit : List Goal → Bool
  | [] => true
  | goal :: rest => goal.partsFit && allFit rest

end

mutual

theorem readWithin_toJson {g : Goal} (h : g.partsFit = true) {fuel : Nat}
    (hfuel : g.toJson.depth < fuel) : readWithin fuel g.toJson = some g := by
  obtain ⟨fuel, rfl⟩ : ∃ n, fuel = n + 1 := ⟨fuel - 1, by omega⟩
  have hbool : ∀ b : Bool, fits b = true := fun _ => rfl
  cases g with
  | fluent var value equal =>
    obtain ⟨hleft, hright⟩ := Bool.and_eq_true_iff.mp h
    rw [toJson, readWithin]
    refine read_choice ?_
    simp [record?_record, List.lookup_cons, read?_write hleft, read?_write hright,
      read?_write (hbool equal)]
  | ungroundedFluent function arguments value equal =>
    simp only [partsFit, Bool.and_eq_true, and_assoc] at h
    obtain ⟨hfunction, harguments, hvalue⟩ := h
    rw [toJson, readWithin]
    refine read_choice ?_
    simp [record?_record, List.lookup_cons, read?_write hfunction, read?_write harguments,
      read?_write hvalue, read?_write (hbool equal)]
  | and goals | or goals =>
    rw [toJson, depth_record_cons, depth_array] at hfuel
    have hgoals : (listToJson goals).mapM (readWithin fuel) = some goals :=
      mapM_readWithin h (by omega)
    rw [toJson, readWithin]
    exact read_choice (by simp [list?, items?, hgoals])
  | not goal =>
    rw [toJson, depth_record_cons] at hfuel
    have hgoal : readWithin fuel goal.toJson = some goal :=
      readWithin_toJson (g := goal) h (by omega)
    rw [toJson, readWithin]
    exact read_choice (by simp [hgoal])
  | imply premise conclusion =>
    obtain ⟨hleft, hright⟩ := Bool.and_eq_true_iff.mp h
    rw [toJson, depth_record_cons, depth_array, depthOfItems, depthOfItems] at hfuel
    have hpremise : readWithin fuel premise.toJson = some premise :=
      readWithin_toJson hleft (by omega)
    have hconclusion : readWithin fuel conclusion.toJson = some conclusion :=
      readWithin_toJson hright (by omega)
    rw [toJson, readWithin]
    exact read_choice (by simp [hpremise, hconclusion])
  | existential types goal | universal types goal =>
    obtain ⟨hleft, hright⟩ := Bool.and_eq_true_iff.mp h
    rw [toJson, depth_record_cons, depth_record_cons, depth_record_cons] at hfuel
    have hgoal : readWithin fuel goal.toJson = some goal := readWithin_toJson hright (by omega)
    rw [toJson, readWithin]
    exact read_choice (by simp [record?_record, List.lookup_cons, read?_write hleft, hgoal])
  | equality equal left right =>
    obtain ⟨hleft, hright⟩ := Bool.and_eq_true_iff.mp h
    rw [toJson, readWithin]
    refine read_choice ?_
    simp [record?_record, List.lookup_cons, read?_write (hbool equal), read?_write hleft,
      read?_write hright]
  | compare comparator terms =>
    have hcomparator : fits comparator = true := rfl
    rw [toJson, readWithin]
    refine read_choice ?_
    simp [record?_record, List.lookup_cons, read?_write hcomparator, read?_write (x := terms) h]
  | timed time goal =>
    have htime : fits time = true := rfl
    rw [toJson, depth_record_cons, depth_record_cons, depth_record_cons] at hfuel
    have hgoal : readWithin fuel goal.toJson = some goal :=
      readWithin_toJson (g := goal) h (by omega)
    rw [toJson, readWithin]
    exact read_choice (by simp [record?_record, List.lookup_cons, read?_write htime, hgoal])
  | constant holds =>
    rw [toJson, readWithin]
    exact read_choice (by simp [read?_write (hbool holds)])

theorem mapM_readWithin {goals : List Goal} (h : allFit goals = true) {fuel : Nat}
    (hfuel : depthOfItems (listToJson goals) < fuel) :
    (listToJson goals).mapM (readWithin fuel) = some goals := by
  cases goals with
  | nil => rfl
  | cons goal rest =>
    obtain ⟨hfirst, hrest⟩ := Bool.and_eq_true_iff.mp h
    rw [listToJson, depthOfItems] at hfuel
    rw [listToJson, List.mapM_cons, readWithin_toJson hfirst (by omega),
      mapM_readWithin hrest (by omega)]
    rfl

end

end Goal

instance : Lossless Goal where
  fits := Goal.partsFit
  read?_write h := Goal.readWithin_toJson h (Nat.lt_succ_self _)

instance : Lossless Preference where
  fits p := fits p.nameIndex && fits p.goal
  read?_write h := by
    simp only [Bool.and_eq_true] at h
    obtain ⟨hnameIndex, hgoal⟩ := h
    refine read_record rfl (by decide) ?_
    simp [List.lookup_cons, read?_write, *]

/-! ## Actions -/

instance : Lossless Action where
  fits a :=
    fits a.index && fits a.name && fits a.operator && fits a.arguments && fits a.durations &&
      fits a.startConditions && fits a.invariants && fits a.endConditions &&
      fits a.startNumericConditions && fits a.numericInvariants && fits a.endNumericConditions &&
      fits a.startEffects && fits a.endEffects && fits a.startNumericEffects &&
      fits a.endNumericEffects && fits a.preferences && fits a.isGoal
  read?_write h := by
    simp only [Bool.and_eq_true, and_assoc] at h
    obtain ⟨hindex, hname, hoperator, harguments, hdurations, hstartConditions, hinvariants,
      hendConditions, hstartNumericConditions, hnumericInvariants, hendNumericConditions,
      hstartEffects, hendEffects, hstartNumericEffects, hendNumericEffects, hpreferences,
      hisGoal⟩ := h
    refine read_record rfl (by decide) ?_
    simp [List.lookup_cons, read?_write, *]

/-! ## Constraints, metric and statistics -/

namespace Constraint

mutual

/-- Whether the parts of a constraint fit into its document. -/
def partsFit : Constraint → Bool
  | .and constraints => allFit constraints
  | .preference nameIndex constraint => fits nameIndex && constraint.partsFit
  | .goalPreference nameIndex goal => fits nameIndex && fits goal
  | .temporal _ times goals => fits times && fits goals

/-- Whether the parts of all constraints of a list fit. -/
def allFit : List Constraint → Bool
  | [] => true
  | constraint :: rest => constraint.partsFit && allFit rest

end

mutual

theorem readWithin_toJson {c : Constraint} (h : c.partsFit = true) {fuel : Nat}
    (hfuel : c.toJson.depth < fuel) : readWithin fuel c.toJson = some c := by
  obtain ⟨fuel, rfl⟩ : ∃ n, fuel = n + 1 := ⟨fuel - 1, by omega⟩
  cases c with
  | and constraints =>
    rw [toJson, depth_record_cons, depth_array] at hfuel
    have hconstraints : (listToJson constraints).mapM (readWithin fuel) = some constraints :=
      mapM_readWithin h (by omega)
    rw [toJson, readWithin]
    exact read_choice (by simp [list?, items?, hconstraints])
  | preference nameIndex constraint =>
    obtain ⟨hleft, hright⟩ := Bool.and_eq_true_iff.mp h
    rw [toJson, depth_record_cons, depth_record_cons, depth_record_cons] at hfuel
    have hconstraint : readWithin fuel constraint.toJson = some constraint :=
      readWithin_toJson hright (by omega)
    rw [toJson, readWithin]
    exact read_choice (by simp [record?_record, List.lookup_cons, read?_write hleft, hconstraint])
  | goalPreference nameIndex goal =>
    obtain ⟨hleft, hright⟩ := Bool.and_eq_true_iff.mp h
    rw [toJson, readWithin]
    exact read_choice (by simp [record?_record, List.lookup_cons, read?_write hleft, read?_write hright])
  | temporal modality times goals =>
    obtain ⟨hleft, hright⟩ := Bool.and_eq_true_iff.mp h
    have hmodality : fits modality = true := rfl
    rw [toJson, readWithin]
    refine read_choice ?_
    simp [record?_record, List.lookup_cons, read?_write hmodality, read?_write hleft, read?_write hright]

theorem mapM_readWithin {constraints : List Constraint} (h : allFit constraints = true)
    {fuel : Nat} (hfuel : depthOfItems (listToJson constraints) < fuel) :
    (listToJson constraints).mapM (readWithin fuel) = some constraints := by
  cases constraints with
  | nil => rfl
  | cons constraint rest =>
    obtain ⟨hfirst, hrest⟩ := Bool.and_eq_true_iff.mp h
    rw [listToJson, depthOfItems] at hfuel
    rw [listToJson, List.mapM_cons, readWithin_toJson hfirst (by omega),
      mapM_readWithin hrest (by omega)]
    rfl

end

end Constraint

instance : Lossless Constraint where
  fits := Constraint.partsFit
  read?_write h := Constraint.readWithin_toJson h (Nat.lt_succ_self _)

instance : Lossless Measure where
  fits
    | .number x => fits x
    | .totalTime => true
    | .isViolated i => fits i
    | .var v => fits v
  read?_write {m} h := by
    cases m with
    | number x => exact read_choice (by simp [read?_write h])
    | totalTime => rfl
    | isViolated i => exact read_choice (by simp [read?_write h])
    | var v => exact read_choice (by simp [read?_write h])

instance : Expression.Leaf Measure where
  exists_choice m := by cases m <;> exact ⟨_, rfl, rfl⟩

instance : Lossless Metric where
  fits m := fits m.objective && fits m.expression
  read?_write h := by
    simp only [Bool.and_eq_true] at h
    obtain ⟨hobjective, hexpression⟩ := h
    refine read_record rfl (by decide) ?_
    simp [List.lookup_cons, read?_write, *]

instance : Lossless LevelStats where
  fits l := l.level < levelLimit && fits l.newValues && fits l.newActions && fits l.vars
  read?_write {l} h := by
    simp only [Bool.and_eq_true, and_assoc] at h
    obtain ⟨hlevel, hnewValues, hnewActions, hvars⟩ := h
    have hread : natBelow? levelLimit (Format.write l.level) = some l.level :=
      natBelow?_natural (of_decide_eq_true hlevel)
    refine read_record rfl (by decide) ?_
    simp [List.lookup_cons, read?_write, *]

instance : Lossless Stats where
  fits s := fits s.levels && fits s.staticVariables && fits s.droppedActions
  read?_write h := by
    simp only [Bool.and_eq_true, and_assoc] at h
    obtain ⟨hlevels, hstaticVariables, hdroppedActions⟩ := h
    refine read_record rfl (by decide) ?_
    simp [List.lookup_cons, read?_write, *]

/-! ## Tasks -/

/-- Whether the parts of a grounded task fit into its document: its floats are finite, and its
positions, counts and levels are machine words. -/
def Task.partsFit (t : Task) : Bool :=
  fits t.task && t.vars.all Variable.partsFit && fits t.actions && fits t.goals &&
    fits t.preferenceNames && fits t.constraints && t.metric.all fits && fits t.stats

theorem read?_write_task {t : Task} (h : t.partsFit = true)
    (hascending : Grounding.IsAscendingTask t) : Format.read? (Format.write t) = some t := by
  simp only [Task.partsFit, Bool.and_eq_true, and_assoc] at h
  obtain ⟨htask, hvars, hactions, hgoals, hpreferenceNames, hconstraints, hmetric, hstats⟩ := h
  have hreadVars : Format.read? (Format.write t.vars) = some t.vars :=
    read?_write_array fun v hv => by
      obtain ⟨i, hi⟩ := Array.mem_iff_getElem?.mp hv
      exact read?_write_variable (Array.all_eq_true'.mp hvars v hv) (hascending i v hi)
  have hreadMetric : Format.read? (Format.write t.metric) = some t.metric :=
    read?_write_option fun m hm => ⟨nofun, read?_write ((Option.all_eq_true _ _).mp hmetric m hm)⟩
  refine read_record rfl (by decide) ?_
  simp [Task.resultMembers, List.lookup_cons, optional_mk, read?_write, *]

end Grounded

/-- **Documents hold whole tasks.** A problem with finite floats and machine words is read back from
the document that is written for it, and so is what grounding makes of a problem. -/
theorem read?_write_tasks :
    (∀ p : Lifted.Problem, fits p = true → Format.read? (Format.write p) = some p) ∧
    ∀ (p : Lifted.Problem) (keepStatic : Bool) (t : Grounded.Task),
      Grounding.ground p keepStatic = .ok t → t.partsFit = true →
        Format.read? (Format.write t) = some t :=
  ⟨fun _ h => read?_write h, fun _ _ _ hground h =>
    Grounded.read?_write_task h (Grounding.ground_isAscending hground)⟩

/-! ## A battery -/

open Lifted in
/-- A battery is charged while there is power. It should be full soon, and charging should not be
needed while it is. -/
def battery : Problem where
  task :=
    { Task.ofPropositions [] [] with
      functions := #[⟨"power", [⟨"?on", [TypeId.boolean]⟩], [TypeId.boolean]⟩,
        ⟨"charge", [], [TypeId.number]⟩]
      init := [⟨⟨0⟩, [.truth], .object .truth, 0.0⟩, ⟨⟨1⟩, [], .number 12.5, 0.0⟩]
      constraints := [.preference "full" (.temporal .within [4.5]
        [.compare .greaterEq (.atom (.fluent ⟨⟨1⟩, []⟩)) (.atom (.number 80.0))])]
      metric := some ⟨.minimize, .node .sum [.atom .totalTime, .atom (.isViolated "full")]⟩ }
  operators := [
    { Operator.ofHappenings "charge"
        ⟨[⟨⟨⟨0⟩, [.param 0]⟩, .object .truth⟩], [], [⟨⟨⟨0⟩, [.param 0]⟩, .object .falsity⟩],
          [⟨.increase, ⟨⟨1⟩, []⟩, .atom (.number 7.25)⟩]⟩ .empty with
      parameters := [⟨"?on", [TypeId.boolean]⟩]
      preferences := [⟨"needed", .existential [⟨"?x", [TypeId.boolean]⟩]
        (.and [.literal ⟨⟨0⟩, [.param 1]⟩, .compare .less (.atom (.fluent ⟨⟨1⟩, []⟩))
          (.atom (.number 100.0))])⟩] }]

/-- The battery and what grounding makes of it are read back. -/
theorem battery_read_back : Format.read? (Format.write battery) = some battery ∧
    ∃ t, Grounding.ground battery true = .ok t ∧
      t.vars.toList.map (·.reached) = [[(.falsity, 1), (.truth, 0)], []] ∧
      Format.read? (Format.write t) = some t := by
  have hfits : fits battery = true := by decide +kernel
  have hrun : ∃ t ∈ (Grounding.ground battery true).toOption,
      t.vars.toList.map (·.reached) = [[(.falsity, 1), (.truth, 0)], []] ∧ t.partsFit = true := by
    decide +kernel
  obtain ⟨t, ht, hreached, hparts⟩ := hrun
  have hground := Grounding.eq_ok_of_mem_toOption ht
  obtain ⟨hproblem, htask⟩ := read?_write_tasks
  exact ⟨hproblem battery hfits, t, hground, hreached, htask battery true t hground hparts⟩

end TemporalPlanning
