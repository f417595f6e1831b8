import TemporalPlanning.Lifted.Basic
import TemporalPlanning.Proofs.Encoding.InitialValues
import TemporalPlanning.Proofs.Grounding.WellFormed
/-!
The initial state of an encoded task, and its values for later times.

Values that a variable receives for one time agree as long as those of every grounded variable do:
a variable over objects receives them from one grounded variable only, and of the propositions that
share a variable no two are ever true from the beginning, as such propositions are never mutex. Only
falsity of a proposition, which says nothing at time zero, clashes at a later time with the truth of
another proposition of its variable. So the initial state has exactly the values that grounded
variables have at time zero, while a variable may have two values for a later time.
-/
set_option autoImplicit false

namespace TemporalPlanning.FiniteDomain

/-- No two entries for one time differ. -/
def IsSingleValued {α : Type} (l : List (Float × α)) : Prop :=
  ∀ e ∈ l, ∀ e' ∈ l, (e.1 == e'.1) = true → e.2 = e'.2

instance {α : Type} [DecidableEq α] (l : List (Float × α)) : Decidable (IsSingleValued l) :=
  inferInstanceAs (Decidable (∀ e ∈ l, _))

/-- No two entries for time zero differ. -/
def IsSingleValuedAtStart {α : Type} (l : List (Float × α)) : Prop :=
  ∀ e ∈ l, ∀ e' ∈ l, (e.1 == 0.0) = true → (e'.1 == 0.0) = true → e.2 = e'.2

instance {α : Type} [DecidableEq α] (l : List (Float × α)) : Decidable (IsSingleValuedAtStart l) :=
  inferInstanceAs (Decidable (∀ e ∈ l, _))

/-- An entry for time zero is then the value at the start. -/
theorem IsSingleValuedAtStart.valueAtStart_eq {α : Type} {l : List (Float × α)}
    (h : IsSingleValuedAtStart l) {time : Float} {a : α} (hmem : (time, a) ∈ l)
    (htime : (time == 0.0) = true) : valueAtStart l = some a :=
  valueAtStart_of_mem hmem htime fun e he htime' => h e he (time, a) hmem htime' htime

end TemporalPlanning.FiniteDomain

namespace TemporalPlanning.Encoding

open FiniteDomain

/-! ## Where a value comes from -/

namespace Encoder

variable {enc : Encoder} {T : Task}

theorem mem_received {time : Float} {x : ValueId} {var : Nat} :
    (time, x) ∈ enc.received T var ↔ ∃ v ∈ enc.grounded.vars.toList, ∃ value,
      (time, value) ∈ v.initialValues ∧ enc.valueGiven? T v.index var time value = some x := by
  unfold received valuesGiven
  simp only [List.mem_flatMap, List.mem_map, Option.mem_toList, Prod.exists, Prod.mk.injEq]
  constructor
  · rintro ⟨v, hv, time', value, hmem, x', hx, rfl, rfl⟩
    exact ⟨v, hv, value, hmem, hx⟩
  · rintro ⟨v, hv, value, hmem, hx⟩
    exact ⟨v, hv, time, value, hmem, x, hx, rfl, rfl⟩

theorem mem_completed {e : Float × ValueId} {var : Nat} :
    e ∈ enc.completed T var ↔ e ∈ enc.received T var ∨
      (valueAtStart (enc.received T var) = none ∧ e = (0.0, T.restingValue var)) := by
  unfold completed
  rw [List.mem_append]
  split
  next hsome => simp [Option.isSome_iff_ne_none.mp hsome]
  next hnone => simp [Option.not_isSome_iff_eq_none.mp hnone]

/-- A variable receives a value from the variable over objects that is placed there, or from a
proposition. -/
theorem valueGiven?_eq_some {v : VarId} {var : Nat} {time : Float} {value : Value} {x : ValueId}
    (h : enc.valueGiven? T v var time value = some x) :
    enc.placement.numeric? v = none ∧
      ((enc.placement.finite? v = some var ∧ T.value? (enc.valueName value) = some x) ∨
        (enc.placement.finite? v = none ∧ ∃ f, enc.placement.fact? v = some f ∧ f.var = var ∧
          heldValue? (T.isBooleanAt var) f.value (value.object? == some .truth) time = some x)) := by
  unfold valueGiven? at h
  split at h
  · cases h
  next place _ hnumeric hfinite =>
    split at h
    next hvar => exact ⟨hnumeric, Or.inl ⟨hvar ▸ hfinite, h⟩⟩
    · cases h
  next f hnumeric hfinite hf =>
    split at h
    next hvar => exact ⟨hnumeric, Or.inr ⟨hfinite, f, hf, hvar, h⟩⟩
    · cases h
  · cases h

/-- One proposition of a variable is true, and another one is not at a positive time. -/
def Clash (enc : Encoder) (var : Nat) (v w : VarId) (b b' : Value) (time : Float) : Prop :=
  enc.IsIn v var ∧ enc.IsIn w var ∧ b = .object .truth ∧ b' ≠ .object .truth ∧ 0.0 < time

instance (enc : Encoder) (var : Nat) (v w : VarId) (b b' : Value) (time : Float) :
    Decidable (enc.Clash var v w b b' time) := inferInstanceAs (Decidable (_ ∧ _))

/-- At some time propositions of a variable clash. -/
def IsContested (enc : Encoder) (var : Nat) : Prop :=
  ∃ v ∈ enc.grounded.vars.toList, ∃ w ∈ enc.grounded.vars.toList, ∃ e ∈ v.initialValues,
    ∃ e' ∈ w.initialValues, (e.1 == e'.1) = true ∧ enc.Clash var v.index w.index e.2 e'.2 e'.1

instance (enc : Encoder) (var : Nat) : Decidable (enc.IsContested var) :=
  inferInstanceAs (Decidable (∃ v ∈ enc.grounded.vars.toList, _))

/-- The initial state of an encoded task has the value that a grounded variable has at time zero:
a proposition is true if its fact holds, another variable has the value named after its object or
none, and a numeric variable has its number or zero. -/
structure EncodesStart (enc : Encoder) (T : Task) (v : Grounded.Variable) : Prop where
  proposition : enc.grounded.isProposition v.index = true →
    ∃ f x, enc.placement.fact? v.index = some f ∧ T.initialState[f.var]? = some (some x) ∧
      (x = f.value ↔ v.valueAtStart = some (.object .truth))
  object : enc.grounded.isProposition v.index = false → v.isNumeric = false →
    ∃ var x, enc.placement.finite? v.index = some var ∧
      T.initialState[var]? = some (some x) ∧
      ((∃ o, v.valueAtStart = some (.object o) ∧ T.value? (enc.objectName o) = some x) ∨
        (v.valueAtStart = none ∧ x = .undefined))
  number : v.isNumeric = true →
    ∃ n x, enc.placement.numeric? v.index = some n ∧ T.numericInitialState[n]? = some x ∧
      (v.valueAtStart = some (.number x) ∨ (v.valueAtStart = none ∧ x = 0.0))

end Encoder

/-! ## Values for one time -/

/-- Propositions that are ever true from the beginning are not mutex. -/
theorem not_contains_of_truth {t : Grounded.Task} (ht : t.IsNumbered) {limit : Nat}
    {v w : Grounded.Variable} (hv : v ∈ t.vars.toList) (hw : w ∈ t.vars.toList)
    (hprop : t.isProposition v.index = true) (hprop' : t.isProposition w.index = true)
    {time time' : Float} (htrue : (time, Value.object .truth) ∈ v.initialValues)
    (htrue' : (time', Value.object .truth) ∈ w.initialValues) :
    (Mutex.fixpoint t limit).mutex.contains v.index w.index = false :=
  (Mutex.betweenPasses_fixpoint t limit).apart _ _ (Or.inr
    ⟨Mutex.isMarked_initialState ht (ht.mem_vars_iff.mp hv) hprop htrue,
      Mutex.isMarked_initialState ht (ht.mem_vars_iff.mp hw) hprop' htrue'⟩)

theorem object?_eq_truth_iff {value : Value} :
    (value.object? == some ObjectId.truth) = true ↔ value = .object .truth := by
  cases value <;> simp [Value.object?]

namespace Encoder.IsEncoding

variable {o : Options} {enc : Encoder} {T : Task} (h : enc.IsEncoding o T)
  (ht : enc.grounded.IsNumbered)
include h ht

theorem isLiteral_iff (v : VarId) :
    enc.isLiteral v = true ↔ enc.grounded.isProposition v = true := by
  rw [isLiteral, h.isProposition]
  exact Mutex.isMarked_propositions ht v

/-- A variable that is placed neither among numbers nor over objects is a proposition. -/
theorem isLiteral_of_none {v : Grounded.Variable} (hv : v ∈ enc.grounded.vars.toList)
    (hnumeric : enc.placement.numeric? v.index = none)
    (hfinite : enc.placement.finite? v.index = none) : enc.isLiteral v.index = true := by
  have hentry := ht.mem_vars_iff.mp hv
  have hnumeric' := h.kinds.numeric v.index.index v hentry
  have hfinite' := h.kinds.finite v.index.index v hentry
  rw [hnumeric] at hnumeric'
  rw [hfinite] at hfinite'
  cases hliteral : enc.isLiteral v.index with
  | true => rfl
  | false =>
    have hnot : v.isNumeric = false := Bool.eq_false_iff.mpr fun htrue => by
      cases hnumeric'.mpr htrue
    cases hfinite'.mpr ⟨hnot, hliteral⟩

omit h ht in
/-- Where only one of two propositions is true, they clash if the other one gives a value. -/
theorem clash_of_holds {var : Nat} {v w : VarId} {b b' : Value} {time : Float} {value x : ValueId}
    (hv : enc.IsIn v var) (hw : enc.IsIn w var) (hholds : (b.object? == some .truth) = true)
    (hholds' : (b'.object? == some .truth) = false)
    (hheld : heldValue? false value (b'.object? == some .truth) time = some x) :
    enc.Clash var v w b b' time := by
  rw [hholds'] at hheld
  refine ⟨hv, hw, object?_eq_truth_iff.mp hholds, fun htrue => ?_,
    (heldValue?_false_eq_some.mp hheld).1⟩
  rw [object?_eq_truth_iff.mpr htrue] at hholds'
  cases hholds'

/-- Values that propositions give to one variable agree, unless they clash in one that is not
boolean. -/
theorem agree_of_facts {v w : Grounded.Variable} (hv : v ∈ enc.grounded.vars.toList)
    (hw : w ∈ enc.grounded.vars.toList) {var : Nat} {time time' : Float} {b b' : Value}
    {x x' : ValueId} (hb : (time, b) ∈ v.initialValues) (hb' : (time', b') ∈ w.initialValues)
    (hsame : v.index = w.index → b = b') {f g : FactCode} (hin : enc.IsIn v.index var)
    (hin' : enc.IsIn w.index var) (hf : enc.placement.fact? v.index = some f)
    (hg : enc.placement.fact? w.index = some g) (hvar : f.var = var) (hvar' : g.var = var)
    (hheld : heldValue? (T.isBooleanAt var) f.value (b.object? == some .truth) time = some x)
    (hheld' : heldValue? (T.isBooleanAt var) g.value (b'.object? == some .truth) time' = some x') :
    x = x' ∨ (T.isBooleanAt var = false ∧ (enc.Clash var v.index w.index b b' time' ∨
      enc.Clash var w.index v.index b' b time)) := by
  have hfg : f.var = g.var := hvar.trans hvar'.symm
  cases hboolean : T.isBooleanAt var with
  | true =>
    -- a boolean variable has one proposition
    have hvw := h.placement.alone _ _ f g hf hg hfg (hvar ▸ hboolean)
    rw [hvw, hg] at hf
    cases hf
    rw [hboolean] at hheld hheld'
    rw [← hsame hvw, heldValue?_boolean _ _ time' time, hheld] at hheld'
    exact Or.inl (Option.some.inj hheld')
  | false =>
    rw [hboolean] at hheld hheld'
    cases hholds : b.object? == some ObjectId.truth <;>
      cases hholds' : b'.object? == some ObjectId.truth
    · rw [hholds] at hheld
      rw [hholds'] at hheld'
      rw [(heldValue?_false_eq_some.mp hheld).2, (heldValue?_false_eq_some.mp hheld').2]
      exact Or.inl rfl
    · exact Or.inr ⟨rfl, Or.inr (clash_of_holds hin' hin hholds' hholds hheld)⟩
    · exact Or.inr ⟨rfl, Or.inl (clash_of_holds hin hin' hholds hholds' hheld')⟩
    · -- both propositions are true, so they are not mutex and must be the same
      rcases h.shared _ _ f g hf hg hfg with hindex | hmutex
      · rw [hindex, hg] at hf
        cases hf
        rw [hholds, heldValue?_true] at hheld
        rw [hholds', heldValue?_true] at hheld'
        exact Or.inl ((Option.some.inj hheld).symm.trans (Option.some.inj hheld'))
      · rw [object?_eq_truth_iff.mp hholds] at hb
        rw [object?_eq_truth_iff.mp hholds'] at hb'
        rw [not_contains_of_truth ht hv hw ((h.isLiteral_iff ht _).mp hin.1)
          ((h.isLiteral_iff ht _).mp hin'.1) hb hb'] at hmutex
        cases hmutex

/-- **Values for one variable agree**, unless propositions clash in one that is not boolean. -/
theorem agree {v w : Grounded.Variable} (hv : v ∈ enc.grounded.vars.toList)
    (hw : w ∈ enc.grounded.vars.toList) {var : Nat} {time time' : Float} {b b' : Value}
    {x x' : ValueId} (hb : (time, b) ∈ v.initialValues) (hb' : (time', b') ∈ w.initialValues)
    (hsame : v = w → b = b') (hx : enc.valueGiven? T v.index var time b = some x)
    (hx' : enc.valueGiven? T w.index var time' b' = some x') :
    x = x' ∨ (T.isBooleanAt var = false ∧ (enc.Clash var v.index w.index b b' time' ∨
      enc.Clash var w.index v.index b' b time)) := by
  have hsame : v.index = w.index → b = b' := fun hindex => hsame <| by
    have hentry := ht.mem_vars_iff.mp hv
    rw [hindex, ht.mem_vars_iff.mp hw] at hentry
    exact (Option.some.inj hentry).symm
  obtain ⟨hnumeric, hplace⟩ := valueGiven?_eq_some hx
  obtain ⟨hnumeric', hplace'⟩ := valueGiven?_eq_some hx'
  rcases hplace with ⟨hfinite, hvalue⟩ | ⟨hfinite, f, hf, hvar, hheld⟩ <;>
    rcases hplace' with ⟨hfinite', hvalue'⟩ | ⟨hfinite', g, hg, hvar', hheld'⟩
  · -- a variable over objects is alone
    rw [hsame (h.placement.finite_inj _ _ var hfinite hfinite'), hvalue'] at hvalue
    exact Or.inl (Option.some.inj hvalue).symm
  · exact absurd (hvar' ▸ hfinite) (h.placement.apart _ _ g hg)
  · exact absurd (hvar ▸ hfinite') (h.placement.apart _ _ f hf)
  · have hin := isIn_of_fact? (h.isLiteral_of_none ht hv hnumeric hfinite) hf
    have hin' := isIn_of_fact? (h.isLiteral_of_none ht hw hnumeric' hfinite') hg
    rw [hvar] at hin
    rw [hvar'] at hin'
    exact h.agree_of_facts ht hv hw hb hb' hsame hin hin' hf hg hvar hvar' hheld hheld'

/-- A proposition is placed nowhere else, so it gives what it says about its variable. -/
theorem valueGiven?_of_isIn (htyped : enc.grounded.IsTyped) {v : Grounded.Variable}
    (hv : v ∈ enc.grounded.vars.toList) {var : Nat} (hin : enc.IsIn v.index var) :
    ∃ f, enc.placement.fact? v.index = some f ∧ f.var = var ∧ ∀ time value,
      enc.valueGiven? T v.index var time value =
        heldValue? (T.isBooleanAt var) f.value (value.object? == some .truth) time := by
  obtain ⟨f, hf, hvar⟩ := hin.exists_fact
  have hentry := ht.mem_vars_iff.mp hv
  have hnumeric : enc.placement.numeric? v.index = none := by
    refine Option.not_isSome_iff_eq_none.mp fun hsome => ?_
    have hnumeric := (h.kinds.numeric v.index.index v hentry).mp hsome
    rw [htyped.isNumeric_eq_false hentry ((h.isLiteral_iff ht v.index).mp hin.1)] at hnumeric
    cases hnumeric
  have hfinite : enc.placement.finite? v.index = none := by
    refine Option.not_isSome_iff_eq_none.mp fun hsome => ?_
    have hnot : enc.isLiteral v.index = false :=
      ((h.kinds.finite v.index.index v hentry).mp hsome).2
    rw [hin.1] at hnot
    cases hnot
  refine ⟨f, hf, hvar, fun time value => ?_⟩
  unfold valueGiven?
  rw [hnumeric, hfinite, hf]
  exact if_pos hvar

/-- Where propositions clash, the variable has two values for one time. -/
theorem not_isSingleValued_of_isContested (htyped : enc.grounded.IsTyped) {var : Nat}
    (hboolean : T.isBooleanAt var = false) (hcontested : enc.IsContested var) :
    ¬IsSingleValued (enc.completed T var) := by
  obtain ⟨v, hv, w, hw, e, he, e', he', htime, hin, hin', htrue, hfalse, hpos⟩ := hcontested
  obtain ⟨f, hf, hvar, hgiven⟩ := h.valueGiven?_of_isIn ht htyped hv hin
  obtain ⟨g, -, -, hgiven'⟩ := h.valueGiven?_of_isIn ht htyped hw hin'
  have hmem : (e.1, f.value) ∈ enc.completed T var := by
    refine mem_completed.mpr (Or.inl (mem_received.mpr ⟨v, hv, e.2, he, ?_⟩))
    rw [hgiven, object?_eq_truth_iff.mpr htrue, heldValue?_true]
  have hmem' : (e'.1, ValueId.undefined) ∈ enc.completed T var := by
    refine mem_completed.mpr (Or.inl (mem_received.mpr ⟨w, hw, e'.2, he', ?_⟩))
    rw [hgiven', hboolean, Bool.eq_false_iff.mpr (mt object?_eq_truth_iff.mp hfalse)]
    exact heldValue?_false_eq_some.mpr ⟨hpos, rfl⟩
  intro hsingle
  -- the value of a proposition is named after it
  rcases (h.placement.fact v.index f hf).2 with ⟨htrue, -⟩ | ⟨-, hnamed⟩
  · rw [hvar, hboolean] at htrue
    cases htrue
  · exact (value_ne_of_varName _ h.placement.reserved hnamed).2.2 (hsingle _ hmem _ hmem' htime)

/-- Where no propositions clash, the variable has one value for one time. -/
theorem isSingleValued_of_not_isContested
    (hunique : ∀ v ∈ enc.grounded.vars.toList, IsSingleValued v.initialValues) {var : Nat}
    (hnot : T.isBooleanAt var = false → ¬enc.IsContested var) :
    IsSingleValued (enc.completed T var) := by
  rintro ⟨time, x⟩ he ⟨time', x'⟩ he' htime
  rcases mem_completed.mp he with hmem | ⟨hnone, heq⟩ <;>
    rcases mem_completed.mp he' with hmem' | ⟨hnone', heq'⟩
  · obtain ⟨v, hv, b, hb, hx⟩ := mem_received.mp hmem
    obtain ⟨w, hw, b', hb', hx'⟩ := mem_received.mp hmem'
    have hsame : v = w → b = b' := fun hvw => by
      rw [← hvw] at hb'
      exact hunique v hv (time, b) hb (time', b') hb' htime
    rcases h.agree ht hv hw hb hb' hsame hx hx' with heq | ⟨hboolean, hclash | hclash⟩
    · exact heq
    · exact absurd ⟨v, hv, w, hw, (time, b), hb, (time', b'), hb', htime, hclash⟩ (hnot hboolean)
    · exact absurd ⟨w, hw, v, hv, (time', b'), hb', (time, b), hb, BEq.symm htime, hclash⟩
        (hnot hboolean)
  · -- a value for time zero would have been received
    cases heq'
    have hfalse := valueAtStart_eq_none_iff.mp hnone' _ hmem
    rw [htime] at hfalse
    cases hfalse
  · cases heq
    have hfalse := valueAtStart_eq_none_iff.mp hnone _ hmem'
    rw [BEq.symm htime] at hfalse
    cases hfalse
  · rw [(Prod.mk.inj heq).2, (Prod.mk.inj heq').2]

/-! ## Values at time zero -/

omit ht in
/-- The initial state has the value at time zero that a variable receives. -/
theorem getElem?_initialState {i : Nat} (hi : i < T.vars.size) : T.initialState[i]? =
    some (some ((valueAtStart (enc.received T i)).getD (T.restingValue i))) := by
  have hvalues : T.vars[i].initialValues = enc.completed T i := by
    rw [← h.values.values i hi, Task.initialValuesAt, Array.getElem?_eq_getElem hi]
    rfl
  rw [h.initialState.values, Array.getElem?_map, Array.getElem?_eq_getElem hi, Option.map_some,
    Variable.initialValue?, hvalues, completed, valueAtStart_append]
  cases valueAtStart (enc.received T i) with
  | some x => rfl
  | none =>
    have hzero : ((0.0 : Float) == 0.0) = true := by decide +kernel
    rw [Option.isSome_none, if_neg Bool.false_ne_true, valueAtStart, List.find?_singleton,
      if_pos hzero]
    rfl

/-- Nothing clashes at time zero. -/
theorem isSingleValuedAtStart_received
    (hunique : ∀ v ∈ enc.grounded.vars.toList, IsSingleValuedAtStart v.initialValues) (var : Nat) :
    IsSingleValuedAtStart (enc.received T var) := by
  rintro ⟨time, x⟩ he ⟨time', x'⟩ he' htime htime'
  obtain ⟨v, hv, b, hb, hx⟩ := mem_received.mp he
  obtain ⟨w, hw, b', hb', hx'⟩ := mem_received.mp he'
  have hsame : v = w → b = b' := fun hvw => by
    rw [← hvw] at hb'
    exact hunique v hv (time, b) hb (time', b') hb' htime htime'
  have hpos : ∀ {time : Float}, (time == 0.0) = true → ¬0.0 < time := fun htime =>
    not_lt_of_beq (BEq.symm htime)
  rcases h.agree ht hv hw hb hb' hsame hx hx' with heq | ⟨-, hclash | hclash⟩
  · exact heq
  · exact absurd hclash.2.2.2.2 (hpos htime')
  · exact absurd hclash.2.2.2.2 (hpos htime)

section AtStart

variable (hunique : ∀ v ∈ enc.grounded.vars.toList, IsSingleValuedAtStart v.initialValues)
  {v : Grounded.Variable} (hv : v ∈ enc.grounded.vars.toList)
include hunique hv

/-- A proposition that is true at time zero gives its value to its variable, and only such a
proposition does. -/
theorem received_of_fact (hnames : NamesPropositions enc.grounded)
    (htyped : enc.grounded.IsTyped) (hprop : enc.grounded.isProposition v.index = true)
    {f : FactCode} (hf : enc.placement.fact? v.index = some f) :
    valueAtStart (enc.received T f.var) = some f.value ↔
      v.valueAtStart = some (.object .truth) := by
  have hliteral := (h.isLiteral_iff ht v.index).mpr hprop
  constructor
  · intro hstart
    obtain ⟨time, hmem, htime⟩ := exists_mem_of_valueAtStart hstart
    obtain ⟨w, hw, b, hb, hx⟩ := mem_received.mp hmem
    obtain ⟨hnumeric, ⟨hfinite, -⟩ | ⟨hfinite, g, hg, hvar, hheld⟩⟩ := valueGiven?_eq_some hx
    · exact absurd hfinite (h.placement.apart _ _ f hf)
    have hprop' := (h.isLiteral_iff ht w.index).mp (h.isLiteral_of_none ht hw hnumeric hfinite)
    cases hholds : b.object? == some ObjectId.truth with
    | true =>
      -- it has the fact of `v`, so it is `v`
      rw [hholds, heldValue?_true, Option.some.injEq] at hheld
      have hindex := h.placement.eq_of_fact? ht hnames hprop hprop' hf hg hvar.symm hheld.symm
      have hentry := ht.mem_vars_iff.mp hv
      rw [hindex, ht.mem_vars_iff.mp hw] at hentry
      cases hentry
      rw [object?_eq_truth_iff.mp hholds] at hb
      exact (hunique v hv).valueAtStart_eq hb htime
    | false =>
      rw [hholds] at hheld
      exact absurd (eq_restingValue_of_heldValue? hheld).symm (h.placement.restingValue_ne hf)
  · intro hstart
    obtain ⟨time, hmem, htime⟩ := exists_mem_of_valueAtStart hstart
    obtain ⟨g, hg, -, hgiven⟩ := h.valueGiven?_of_isIn ht htyped hv (isIn_of_fact? hliteral hf)
    obtain rfl := Option.some.inj (hf.symm.trans hg)
    refine (h.isSingleValuedAtStart_received ht hunique f.var).valueAtStart_eq
      (mem_received.mpr ⟨v, hv, _, hmem, ?_⟩) htime
    rw [hgiven, object?_eq_truth_iff.mpr rfl, heldValue?_true]

/-- A variable over objects gives its value at time zero, if it has one. -/
theorem received_of_object {var : Nat} (hnumeric : enc.placement.numeric? v.index = none)
    (hfinite : enc.placement.finite? v.index = some var) {value : Value}
    (hstart : v.valueAtStart = some value) :
    ∃ x, T.value? (enc.valueName value) = some x ∧ valueAtStart (enc.received T var) = some x := by
  obtain ⟨time, hmem, htime⟩ := exists_mem_of_valueAtStart hstart
  obtain ⟨x, hx⟩ := (h.values.accepts v hv).object hnumeric var hfinite _ hmem
  refine ⟨x, hx, (h.isSingleValuedAtStart_received ht hunique var).valueAtStart_eq
    (mem_received.mpr ⟨v, hv, value, hmem, ?_⟩) htime⟩
  rw [valueGiven?, hnumeric, hfinite]
  exact (if_pos rfl).trans hx

omit hunique in
/-- No other variable gives one. -/
theorem received_of_valueAtStart_eq_none {var : Nat}
    (hfinite : enc.placement.finite? v.index = some var) (hstart : v.valueAtStart = none) :
    valueAtStart (enc.received T var) = none := by
  refine valueAtStart_eq_none_iff.mpr ?_
  rintro ⟨time, x⟩ he
  obtain ⟨w, hw, b, hb, hx⟩ := mem_received.mp he
  obtain ⟨-, ⟨hfinite', -⟩ | ⟨-, g, hg, hvar, -⟩⟩ := valueGiven?_eq_some hx
  · have hentry := ht.mem_vars_iff.mp hv
    rw [h.placement.finite_inj _ _ var hfinite hfinite', ht.mem_vars_iff.mp hw] at hentry
    obtain rfl := Option.some.inj hentry
    have hnone : FiniteDomain.valueAtStart w.initialValues = none := hstart
    exact valueAtStart_eq_none_iff.mp hnone (time, b) hb
  · exact absurd (hvar ▸ hfinite) (h.placement.apart _ _ g hg)

omit hunique in
/-- A numeric variable receives its number from one grounded variable only. -/
theorem numberAtStart?_eq {n : Nat} (hnumeric : enc.placement.numeric? v.index = some n) :
    T.numberAtStart? n = v.valueAtStart.bind Value.number? := by
  have hgiven : enc.numberGiven? v n = v.valueAtStart.bind Value.number? := if_pos hnumeric
  rw [h.values.numbers n (h.kinds.numeric_lt _ n hnumeric), ← hgiven]
  refine findSome?_eq_of_forall_ne hv fun w hw hne => if_neg fun hnumeric' => hne ?_
  have hentry := ht.mem_vars_iff.mp hv
  rw [h.numeric_inj _ _ n hnumeric hnumeric', ht.mem_vars_iff.mp hw] at hentry
  exact Option.some.inj hentry

/-- The initial state has the fact of a proposition exactly if it is true at time zero. -/
theorem encodesStart_of_proposition (hnames : NamesPropositions enc.grounded)
    (htyped : enc.grounded.IsTyped) (hprop : enc.grounded.isProposition v.index = true) :
    ∃ f x, enc.placement.fact? v.index = some f ∧ T.initialState[f.var]? = some (some x) ∧
      (x = f.value ↔ v.valueAtStart = some (.object .truth)) := by
  obtain ⟨f, hf⟩ := h.single v.index hprop
  refine ⟨f, _, hf, h.getElem?_initialState (h.placement.fact v.index f hf).1, ?_⟩
  rw [← h.received_of_fact ht hunique hv hnames htyped hprop hf]
  -- the fact of a proposition is not the value at rest
  cases valueAtStart (enc.received T f.var) with
  | some x => exact Option.some_inj.symm
  | none => exact iff_of_false (h.placement.restingValue_ne hf) (by simp)

/-- The initial state has the value named after the object of a variable at time zero, or none. -/
theorem encodesStart_of_object
    (hnames : "<false>" ∉ enc.grounded.task.objects.toList.map (·.name))
    (hobjects : ∀ entry ∈ v.initialValues, ∃ o, entry.2 = .object o)
    (hprop : enc.grounded.isProposition v.index = false) (hnumeric : v.isNumeric = false) :
    ∃ var x, enc.placement.finite? v.index = some var ∧
      T.initialState[var]? = some (some x) ∧
      ((∃ o, v.valueAtStart = some (.object o) ∧ T.value? (enc.objectName o) = some x) ∨
        (v.valueAtStart = none ∧ x = .undefined)) := by
  have hentry := ht.mem_vars_iff.mp hv
  have hnot : enc.isLiteral v.index = false :=
    Bool.eq_false_iff.mpr fun hliteral => by
      rw [(h.isLiteral_iff ht v.index).mp hliteral] at hprop
      cases hprop
  obtain ⟨var, hfinite⟩ := Option.isSome_iff_exists.mp
    ((h.kinds.finite v.index.index v hentry).mpr ⟨hnumeric, hnot⟩)
  have hnone : enc.placement.numeric? v.index = none :=
    Option.not_isSome_iff_eq_none.mp fun hsome => by
      rw [(h.kinds.numeric v.index.index v hentry).mp hsome] at hnumeric
      cases hnumeric
  refine ⟨var, _, hfinite, h.getElem?_initialState (h.placement.finite v.index var hfinite).1, ?_⟩
  cases hstart : v.valueAtStart with
  | none =>
    refine Or.inr ⟨rfl, ?_⟩
    rw [h.received_of_valueAtStart_eq_none ht hv hfinite hstart, Option.getD_none,
      Task.restingValue, h.neverFalse hnames v.index var hfinite]
    rfl
  | some value =>
    obtain ⟨time, hmem, -⟩ := exists_mem_of_valueAtStart hstart
    obtain ⟨object, rfl⟩ : ∃ object, value = .object object := hobjects _ hmem
    obtain ⟨x, hx, hreceived⟩ := h.received_of_object ht hunique hv hnone hfinite hstart
    refine Or.inl ⟨object, rfl, ?_⟩
    rw [hreceived]
    exact hx

omit hunique in
/-- The numeric initial state has the number of a numeric variable at time zero, or zero. -/
theorem encodesStart_of_number (hnumeric : v.isNumeric = true) :
    ∃ n x, enc.placement.numeric? v.index = some n ∧ T.numericInitialState[n]? = some x ∧
      (v.valueAtStart = some (.number x) ∨ (v.valueAtStart = none ∧ x = 0.0)) := by
  obtain ⟨n, hn⟩ := Option.isSome_iff_exists.mp
    ((h.kinds.numeric v.index.index v (ht.mem_vars_iff.mp hv)).mpr hnumeric)
  have hlt := h.kinds.numeric_lt v.index n hn
  have hnumber := h.numberAtStart?_eq ht hv hn
  rw [Task.numberAtStart?, Array.getElem?_eq_getElem hlt, Option.bind_some] at hnumber
  refine ⟨n, T.numericVars[n].initialValue, hn, ?_, ?_⟩
  · rw [h.initialState.numbers, Array.getElem?_map, Array.getElem?_eq_getElem hlt]
    rfl
  rw [NumericVariable.initialValue, hnumber]
  cases hstart : v.valueAtStart with
  | none => exact Or.inr ⟨rfl, rfl⟩
  | some value =>
    obtain ⟨time, hmem, -⟩ := exists_mem_of_valueAtStart hstart
    obtain ⟨x, rfl⟩ : ∃ x, value = .number x := (h.values.accepts v hv).number n hn _ hmem
    exact Or.inl rfl

end AtStart

end Encoder.IsEncoding

/-- **The initial state of an encoded task is the grounded one**, if names tell propositions apart,
no object has the name of falsity, and no variable has two values at time zero. -/
theorem encode_encodesStart {p : Lifted.Problem} {keepStatic : Bool} {t : Grounded.Task}
    (hground : Grounding.ground p keepStatic = .ok t) (hnames : NamesPropositions t)
    (hobjects : "<false>" ∉ t.task.objects.toList.map (·.name))
    (hunique : ∀ v ∈ t.vars.toList, IsSingleValuedAtStart v.initialValues) {o : Options} {T : Task}
    (hencode : (encode t o).result = .ok T) :
    ∃ enc, encoderOf t o = .ok enc ∧ enc.grounded = t ∧
      ∀ v ∈ t.vars.toList, enc.EncodesStart T v := by
  obtain ⟨hnumbered, htyped, -⟩ := Grounding.ground_isOrderly hground
  obtain ⟨enc, henc, rfl, h⟩ := encode_isEncoding hnumbered hencode
  refine ⟨enc, henc, rfl, fun v hv => ⟨fun hprop => ?_, fun hprop hnumeric => ?_, fun hnumeric => ?_⟩⟩
  · exact h.encodesStart_of_proposition hnumbered hunique hv hnames htyped hprop
  · exact h.encodesStart_of_object hnumbered hunique hv hobjects
      (fun entry hentry => Grounding.exists_object_of_initialValue hground
        (hnumbered.mem_vars_iff.mp hv) hnumeric hentry) hprop hnumeric
  · exact h.encodesStart_of_number hnumbered hv hnumeric

open Lifted in
/-- A parcel that is `here` can be brought `there`. Nobody carries it at first, and bringing it costs
something. -/
def delivery : Problem where
  task := { Task.ofPropositions ["here", "there"] [] with
    types := #[⟨"#boolean", []⟩, ⟨"number", []⟩, ⟨"carrier", []⟩]
    objects := #[⟨"#false", [TypeId.boolean]⟩, ⟨"#true", [TypeId.boolean]⟩, ⟨"van", [⟨2⟩]⟩]
    functions := #[⟨"here", [], [TypeId.boolean]⟩, ⟨"there", [], [TypeId.boolean]⟩,
      ⟨"carrier", [], [⟨2⟩]⟩, ⟨"cost", [], [TypeId.number]⟩]
    init := [⟨⟨0⟩, [], .object .truth, 0.0⟩, ⟨⟨3⟩, [], .number 3.0, 0.0⟩] }
  operators := [
    .ofHappenings "bring" ⟨[.ofProposition 0 .truth], [],
      [.ofProposition 0 .falsity, .ofProposition 1 .truth, ⟨⟨⟨2⟩, []⟩, .object ⟨2⟩⟩],
      [⟨.increase, ⟨⟨3⟩, []⟩, .atom (.number 1.0)⟩]⟩ .empty]

/-- The propositions share a variable, and nobody carries the parcel at first. -/
theorem encodesStart_delivery : ∃ (t : Grounded.Task) (T : Task) (enc : Encoder),
    Grounding.ground delivery true = .ok t ∧ (encode t {}).result = .ok T ∧
      encoderOf t {} = .ok enc ∧ t.vars.size = 4 ∧ T.value? "(here)" = some ⟨4⟩ ∧
      T.initialState = #[some .undefined, some ⟨4⟩] ∧ T.numericInitialState = #[3.0] ∧
      ∀ v ∈ t.vars.toList, enc.EncodesStart T v := by
  have hrun : ∃ t ∈ (Grounding.ground delivery true).toOption,
      NamesPropositions t ∧ "<false>" ∉ t.task.objects.toList.map (·.name) ∧
      (∀ v ∈ t.vars.toList, IsSingleValuedAtStart v.initialValues) ∧ t.vars.size = 4 ∧
      ∃ T ∈ (encode t {}).result.toOption, T.value? "(here)" = some ⟨4⟩ ∧
        T.initialState = #[some .undefined, some ⟨4⟩] ∧ T.numericInitialState = #[3.0] := by
    decide +kernel
  obtain ⟨t, ht, hnames, hobjects, hunique, hsize, T, hT, hvalue, hvalues, hnumbers⟩ := hrun
  have hground := Grounding.eq_ok_of_mem_toOption ht
  have hencode := Grounding.eq_ok_of_mem_toOption hT
  obtain ⟨enc, henc, -, hstart⟩ := encode_encodesStart hground hnames hobjects hunique hencode
  exact ⟨t, T, enc, hground, hencode, henc, hsize, hvalue, hvalues, hnumbers, hstart⟩

/-! ## Timed values -/

/-- **A variable has two values for one time only if propositions clash in it.** If grounded
variables have one value for a time, then so have boolean variables, variables over objects, and
those in which no proposition is true at a positive time at which another one is not. -/
theorem encode_isSingleValued_iff {p : Lifted.Problem} {keepStatic : Bool} {t : Grounded.Task}
    (hground : Grounding.ground p keepStatic = .ok t)
    (hunique : ∀ v ∈ t.vars.toList, IsSingleValued v.initialValues) {o : Options} {T : Task}
    (hencode : (encode t o).result = .ok T) :
    ∃ enc, encoderOf t o = .ok enc ∧ ∀ (i : Nat) (x : Variable), T.vars[i]? = some x →
      (IsSingleValued x.initialValues ↔ x.isBoolean = true ∨ ¬enc.IsContested i) := by
  have ht := Grounding.ground_isOrderly hground
  obtain ⟨enc, henc, rfl, h⟩ := encode_isEncoding ht.numbered hencode
  refine ⟨enc, henc, fun i x hx => ?_⟩
  have hvalues := h.values.values i (Array.getElem?_eq_some_iff.mp hx).1
  rw [Task.initialValuesAt, hx, Option.map_some, Option.getD_some] at hvalues
  have hboolean : T.isBooleanAt i = x.isBoolean := by
    rw [Task.isBooleanAt, hx, Option.any_some]
  rw [hvalues, ← hboolean]
  constructor
  · intro hsingle
    refine or_iff_not_imp_left.mpr fun hshared hcontested => ?_
    exact h.not_isSingleValued_of_isContested ht.numbered ht.typed (Bool.eq_false_iff.mpr hshared)
      hcontested hsingle
  · intro hnot
    refine h.isSingleValued_of_not_isContested ht.numbered hunique fun hshared => ?_
    refine hnot.resolve_left fun htrue => ?_
    rw [hshared] at htrue
    cases htrue

open Lifted in
/-- Takes a parcel from one place to another. -/
def carry : Operator :=
  .ofHappenings "carry" ⟨[.ofProposition 0 .truth], [],
    [.ofProposition 0 .falsity, .ofProposition 1 .truth], []⟩ .empty

open Lifted in
/-- A parcel is `here` and can be carried `there`. At times that facts say it is brought back. -/
def parcel (facts : List Fact) : Problem where
  task := { Task.ofPropositions ["here", "there"] [] with
    init := ⟨⟨0⟩, [], .object .truth, 0.0⟩ :: facts }
  operators := [carry]

/-- Where only the truth of a proposition is given for a later time, nothing clashes. -/
theorem isSingleValued_parcel : ∃ (t : Grounded.Task) (T : Task) (x : Variable),
    Grounding.ground (parcel [⟨⟨0⟩, [], .object .truth, 5.0⟩]) true = .ok t ∧
      (encode t {}).result = .ok T ∧ T.vars[0]? = some x ∧ x.isBoolean = false ∧
      x.initialValues = [(0.0, ⟨3⟩), (5.0, ⟨3⟩)] ∧ IsSingleValued x.initialValues := by
  have hrun : ∃ t ∈ (Grounding.ground (parcel [⟨⟨0⟩, [], .object .truth, 5.0⟩]) true).toOption,
      (∀ v ∈ t.vars.toList, IsSingleValued v.initialValues) ∧
      ∃ T ∈ (encode t {}).result.toOption, ∃ x ∈ T.vars[0]?, x.isBoolean = false ∧
        x.initialValues = [(0.0, ⟨3⟩), (5.0, ⟨3⟩)] ∧
          ∀ enc ∈ (encoderOf t {}).toOption, ¬enc.IsContested 0 := by
    decide +kernel
  obtain ⟨t, ht, hunique, T, hT, x, hx, hboolean, hvalues, hquiet⟩ := hrun
  have hground := Grounding.eq_ok_of_mem_toOption ht
  have hencode := Grounding.eq_ok_of_mem_toOption hT
  obtain ⟨enc, henc, hsingle⟩ := encode_isSingleValued_iff hground hunique hencode
  have hnot : ¬enc.IsContested 0 := hquiet enc (by rw [henc]; rfl)
  exact ⟨t, T, x, hground, hencode, hx, hboolean, hvalues, (hsingle 0 x hx).mpr (Or.inr hnot)⟩

/-- That a parcel that is brought back is `here` and not `there` gives its variable two values for
that time: that of being `here`, and the one for none of its propositions. -/
theorem exists_two_values : ∃ (t : Grounded.Task) (T : Task) (x : Variable),
    Grounding.ground (parcel [⟨⟨0⟩, [], .object .truth, 5.0⟩, ⟨⟨1⟩, [], .object .falsity, 5.0⟩])
      true = .ok t ∧ HasDistinctNames t ∧
      (∀ v ∈ t.vars.toList, IsSingleValued v.initialValues) ∧
      (encode t {}).result = .ok T ∧ x ∈ T.vars.toList ∧
      x.initialValues = [(0.0, ⟨3⟩), (5.0, ⟨3⟩), (5.0, .undefined)] ∧
      ¬IsSingleValued x.initialValues := by
  have hrun : ∃ t ∈ (Grounding.ground (parcel [⟨⟨0⟩, [], .object .truth, 5.0⟩,
      ⟨⟨1⟩, [], .object .falsity, 5.0⟩]) true).toOption, HasDistinctNames t ∧
      (∀ v ∈ t.vars.toList, IsSingleValued v.initialValues) ∧
      ∃ T ∈ (encode t {}).result.toOption, ∃ x ∈ T.vars.toList,
        x.initialValues = [(0.0, ⟨3⟩), (5.0, ⟨3⟩), (5.0, .undefined)] ∧
        ¬IsSingleValued x.initialValues := by
    decide +kernel
  obtain ⟨t, ht, hnames, hunique, T, hT, x, hx, hvalues, hdiffer⟩ := hrun
  exact ⟨t, T, x, Grounding.eq_ok_of_mem_toOption ht, hnames, hunique,
    Grounding.eq_ok_of_mem_toOption hT, hx, hvalues, hdiffer⟩

end TemporalPlanning.Encoding
