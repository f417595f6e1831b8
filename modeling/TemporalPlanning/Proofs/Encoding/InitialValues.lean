import TemporalPlanning.Proofs.Encoding.Construct
import TemporalPlanning.Proofs.Encoding.Frames
import TemporalPlanning.Proofs.Encoding.Kinds
import TemporalPlanning.Proofs.FiniteDomain.InitialValues
/-!
Initial values of encoded variables.

The grounded variables give their initial values to their places, one after the other. A place
receives a value named after an object as it is. A proposition gives the value that says that it
holds; where it does not hold, its variable becomes false if it is boolean, and has none of its
propositions if the time is positive. In the end a variable that has no value at time zero receives
the one that says that none of its propositions holds.
-/
set_option autoImplicit false

namespace TemporalPlanning.Encoding

open FiniteDomain

/-! ## Single variables -/

/-- The value that a proposition gives to its variable, by whether it holds at a time. -/
def heldValue? (isBoolean : Bool) (value : ValueId) (holds : Bool) (time : Float) :
    Option ValueId :=
  if holds then some value
  else if isBoolean then some .falsity
  else if 0.0 < time then some .undefined
  else none

@[simp]
theorem heldValue?_true (isBoolean : Bool) (value : ValueId) (time : Float) :
    heldValue? isBoolean value true time = some value := rfl

/-- A boolean variable receives the same value at all times. -/
theorem heldValue?_boolean (value : ValueId) (holds : Bool) (time time' : Float) :
    heldValue? true value holds time = heldValue? true value holds time' := rfl

theorem heldValue?_false_eq_some {value x : ValueId} {time : Float} :
    heldValue? false value false time = some x ↔ 0.0 < time ∧ x = .undefined := by
  unfold heldValue?
  rw [if_neg Bool.false_ne_true, if_neg Bool.false_ne_true]
  split
  next hpos => simp [hpos, eq_comm]
  next hpos => simp [hpos]

/-- A proposition that does not hold leaves its variable at rest. -/
theorem eq_restingValue_of_heldValue? {T : Task} {var : Nat} {value x : ValueId} {time : Float}
    (h : heldValue? (T.isBooleanAt var) value false time = some x) : x = T.restingValue var := by
  rw [Task.restingValue]
  cases hboolean : T.isBooleanAt var with
  | true =>
    rw [hboolean] at h
    cases h
    rfl
  | false =>
    rw [hboolean] at h
    exact (heldValue?_false_eq_some.mp h).2

theorem initialValues_setProposition {value : ValueId} {holds : Bool} {time : Float}
    {v v' : Variable} (hvalue : v.isBoolean = true → value = .truth)
    (h : setProposition value holds time v = .ok v') : v'.initialValues = v.initialValues ++
      (heldValue? v.isBoolean value holds time).toList.map (time, ·) := by
  unfold setProposition at h
  unfold heldValue?
  cases holds with
  | true => exact Variable.initialValues_of_holds h
  | false =>
    cases hboolean : v.isBoolean with
    | true =>
      rw [hboolean, hvalue hboolean] at h
      exact Variable.initialValues_of_not_holds hboolean h
    | false =>
      rw [hboolean, Bool.or_self, if_neg Bool.false_ne_true] at h
      rw [if_neg Bool.false_ne_true, if_neg Bool.false_ne_true]
      split at h
      next hpos =>
        rw [if_pos hpos, Variable.initialValues_of_holds h,
          Variable.initialValues_allowUndefined]
        rfl
      next hpos =>
        cases h
        rw [if_neg hpos]
        exact (List.append_nil _).symm

theorem initialValues_setDefault {v v' : Variable} (h : setDefault v = .ok v') :
    v'.initialValues = v.initialValues ++ if v.initialValue?.isSome then []
      else [(0.0, if v.isBoolean then .falsity else .undefined)] := by
  unfold setDefault at h
  split at h
  next hstart =>
    cases h
    rw [if_pos hstart, List.append_nil]
  next hstart =>
    rw [if_neg hstart]
    split at h
    next hboolean =>
      rw [if_pos hboolean]
      exact Variable.initialValues_of_not_holds hboolean h
    next hshared =>
      rw [if_neg hshared, Variable.initialValues_of_holds h, Variable.initialValues_allowUndefined]

namespace Encoder

variable (enc : Encoder)

/-! ## What grounded variables give -/

/-- The name of the value that stands for a value of a variable over objects. -/
def valueName (value : Value) : String := (value.object?.map enc.objectName).getD "?"

/-- The value that a variable receives for a value of a grounded one at a time. -/
def valueGiven? (T : Task) (v : VarId) (var : Nat) (time : Float) (value : Value) :
    Option ValueId :=
  match enc.placement.numeric? v, enc.placement.finite? v, enc.placement.fact? v with
  | some _, _, _ => none
  | none, some place, _ => if place = var then T.value? (enc.valueName value) else none
  | none, none, some f =>
    if f.var = var then
      heldValue? (T.isBooleanAt var) f.value (value.object? == some ObjectId.truth) time
    else none
  | none, none, none => none

/-- The values that a variable receives for those of a grounded one. -/
def valuesGiven (T : Task) (v : Grounded.Variable) (var : Nat) : List (Float × ValueId) :=
  v.initialValues.flatMap fun entry =>
    (enc.valueGiven? T v.index var entry.1 entry.2).toList.map (entry.1, ·)

/-- The values that a variable receives. -/
def received (T : Task) (var : Nat) : List (Float × ValueId) :=
  enc.grounded.vars.toList.flatMap fun v => enc.valuesGiven T v var

/-- The number at time zero that a numeric variable receives from a grounded one. -/
def numberGiven? (v : Grounded.Variable) (var : Nat) : Option Float :=
  if enc.placement.numeric? v.index = some var then v.valueAtStart.bind Value.number? else none

/-- The values of a grounded variable are of the kind of its place. -/
structure Accepts (T : Task) (v : Grounded.Variable) : Prop where
  number : ∀ var, enc.placement.numeric? v.index = some var → ∀ entry ∈ v.initialValues,
    ∃ x, entry.2 = .number x
  object : enc.placement.numeric? v.index = none → ∀ var, enc.placement.finite? v.index = some var →
    ∀ entry ∈ v.initialValues, ∃ x, T.value? (enc.valueName entry.2) = some x

section SameTables

variable {enc} {T T' : Task} (h : T.SameTables T')
include h

theorem valuesGiven_of_sameTables : enc.valuesGiven T' = enc.valuesGiven T := by
  unfold valuesGiven valueGiven?
  simp only [h.value?_eq, h.boolean]

theorem Accepts.of_sameTables {v : Grounded.Variable} (haccepts : enc.Accepts T v) :
    enc.Accepts T' v :=
  ⟨haccepts.number, fun hnone var hvar entry hentry =>
    (haccepts.object hnone var hvar entry hentry).imp fun _ hx => (h.value?_eq _).trans hx⟩

theorem received_of_sameTables : enc.received T' = enc.received T := by
  unfold received
  rw [valuesGiven_of_sameTables h]

end SameTables

/-! ## Entering them -/

theorem number?_eq_some {value : Value} {x : Float} (h : value.number? = some x) :
    value = .number x := by
  cases value with
  | object o => cases h
  | number y =>
    cases h
    rfl

theorem setNumber_receives (v : VarId) (var : Nat) (time : Float) (value : Value) (T : Task) :
    (enc.setNumber v var time value).Ensures T fun _ T' =>
      (T.Receives T' fun _ => []) ∧ ∃ x, value = .number x := by
  unfold setNumber
  split
  next x hx =>
    have hkeeps : (updateNumericVariable var fun n => n.addInitialValue x time).Keeps
        fun t => (t.values, t.vars) := updateNumericVariable_keeps (fun _ _ => rfl) var _
    refine (hkeeps T).mono fun _ T' h => ⟨?_, x, number?_eq_some hx⟩
    obtain ⟨hvalues, hvars⟩ := Prod.mk.inj h
    exact .of_eq hvalues hvars
  · exact Update.ensures_throw

theorem setObject_receives (v : VarId) (var : Nat) (time : Float) (value : Value) (T : Task) :
    (enc.setObject v var time value).Ensures T fun _ T' =>
      (T.Receives T' fun i => (if var = i then T.value? (enc.valueName value) else none).toList.map
        (time, ·)) ∧ ∃ x, T.value? (enc.valueName value) = some x := by
  refine Update.ensures_bind.mpr (Update.ensures_get.mpr ?_)
  split
  next x hx =>
    have hx : T.value? (enc.valueName value) = some x := hx
    refine (updateVariable_receives [(time, x)] fun y y' _ hy =>
      ⟨Variable.addInitialValue_sameKind hy, Variable.initialValues_of_holds hy⟩).mono ?_
    refine fun _ T' h => ⟨h.congr fun i => ?_, x, hx⟩
    split
    · rw [hx]
      rfl
    · rfl
  · exact Update.ensures_throw

variable {enc} in
theorem setProposition_receives {T : Task} {v : VarId} {f : FactCode}
    (hplacement : IsPlacement enc.grounded enc.isProposition enc.placement T)
    (hf : enc.placement.fact? v = some f) (holds : Bool) (time : Float) :
    (updateVariable f.var (setProposition f.value holds time)).Ensures T fun _ T' =>
      T.Receives T' fun i => (if f.var = i then heldValue? (T.isBooleanAt i) f.value holds time
        else none).toList.map (time, ·) := by
  refine (updateVariable_receives ((heldValue? (T.isBooleanAt f.var) f.value holds
    time).toList.map (time, ·)) fun y y' hy hset => ?_).mono fun _ T' h => h.congr fun i => ?_
  · have hboolean : T.isBooleanAt f.var = y.isBoolean := by
      rw [Task.isBooleanAt, hy, Option.any_some]
    rw [hboolean]
    refine ⟨setProposition_sameKind hset, initialValues_setProposition (fun htrue => ?_) hset⟩
    exact (hplacement.isBooleanAt_iff hf).mp (hboolean.trans htrue)
  · by_cases hi : f.var = i
    · rw [if_pos hi, if_pos hi, hi]
    · rw [if_neg hi, if_neg hi]
      rfl

/-- What the values of a list give to their places is received in their order. -/
theorem forM_receives_values {f : Float × Value → Update PUnit} {v : Grounded.Variable}
    {P : Float × Value → Prop} {T : Task}
    (h : ∀ entry T', T.SameTables T' → (f entry).Ensures T' fun _ T'' => (T'.Receives T'' fun i =>
      (enc.valueGiven? T v.index i entry.1 entry.2).toList.map (entry.1, ·)) ∧ P entry) :
    Update.Ensures (v.initialValues.forM f) T fun _ T' =>
      T.Receives T' (enc.valuesGiven T v) ∧ ∀ entry ∈ v.initialValues, P entry :=
  forM_receives fun entry _ T' hT' => h entry T' hT'

variable {enc} in
theorem setInitial_receives (v : Grounded.Variable) {T : Task}
    (hplacement : IsPlacement enc.grounded enc.isProposition enc.placement T) :
    (enc.setInitial v).Ensures T fun _ T' =>
      T.Receives T' (enc.valuesGiven T v) ∧ enc.Accepts T v := by
  unfold setInitial
  split
  next var hnumeric =>
    refine (enc.forM_receives_values fun entry T' _ =>
      (enc.setNumber_receives _ _ _ _ T').mono fun _ T'' h => ⟨h.1.congr fun i => ?_, h.2⟩).mono
        fun _ T' h => ⟨h.1, fun _ _ => h.2, fun hnone => ?_⟩
    · rw [valueGiven?, hnumeric]
      rfl
    · rw [hnumeric] at hnone
      cases hnone
  next hnumeric =>
    split
    next var hfinite =>
      refine (enc.forM_receives_values fun entry T' hT' =>
        (enc.setObject_receives _ _ _ _ T').mono fun _ T'' h =>
          ⟨h.1.congr fun i => ?_, h.2.imp fun x hx => (hT'.value?_eq _).symm.trans hx⟩).mono
        fun _ T' h => ⟨h.1, fun var' hvar' => ?_, fun _ _ _ => h.2⟩
      · rw [valueGiven?, hnumeric, hfinite, hT'.value?_eq]
      · rw [hnumeric] at hvar'
        cases hvar'
    next hfinite =>
      have haccepts : enc.Accepts T v := by
        refine ⟨fun var hvar => ?_, fun _ var hvar => ?_⟩
        · rw [hnumeric] at hvar
          cases hvar
        · rw [hfinite] at hvar
          cases hvar
      split
      next f hf =>
        refine (enc.forM_receives_values (P := fun _ => True) fun entry T' hT' =>
          (setProposition_receives (hplacement.congr hT'.values hT'.size fun _ f _ =>
            hT'.boolean f.var) hf _ entry.1).mono fun _ T'' h =>
              ⟨h.congr fun i => ?_, trivial⟩).mono fun _ T' h => ⟨h.1, haccepts⟩
        rw [valueGiven?, hnumeric, hfinite, hf, hT'.boolean]
      next hf =>
        refine Update.ensures_pure.mpr ⟨(Task.Receives.refl T).congr fun i => ?_, haccepts⟩
        unfold valuesGiven valueGiven?
        rw [hnumeric, hfinite, hf]
        exact (List.flatMap_eq_nil_iff.mpr fun _ _ => rfl).symm

theorem setNumber_receivesNumbers (v : VarId) (var : Nat) (time : Float) (value : Value)
    (T : Task) : (enc.setNumber v var time value).Ensures T fun _ T' => T.ReceivesNumbers T'
      fun i => if var = i ∧ (time == 0.0) = true then value.number? else none := by
  unfold setNumber
  split
  next x hx =>
    rw [hx]
    exact updateNumericVariable_receives time x
  · exact Update.ensures_throw

/-- Of numbers, the first one for time zero is the one at the start. -/
theorem findSome?_number {l : List (Float × Value)} (hl : ∀ entry ∈ l, ∃ x, entry.2 = .number x) :
    (l.findSome? fun entry => if entry.1 == 0.0 then entry.2.number? else none) =
      (valueAtStart l).bind Value.number? := by
  induction l with
  | nil => rfl
  | cons entry l ih =>
    obtain ⟨⟨x, hx⟩, htail⟩ := List.forall_mem_cons.mp hl
    obtain ⟨time, value⟩ := entry
    obtain rfl : value = .number x := hx
    rw [List.findSome?_cons, valueAtStart, List.find?_cons]
    dsimp only
    cases time == 0.0 with
    | true => rfl
    | false => exact ih htail

/-- Where one element only gives something, that is what is found. -/
theorem findSome?_eq_of_forall_ne {α β : Type} {f : α → Option β} {l : List α} {a : α}
    (ha : a ∈ l) (h : ∀ b ∈ l, b ≠ a → f b = none) : l.findSome? f = f a := by
  cases hfound : l.findSome? f with
  | none => exact (List.findSome?_eq_none_iff.mp hfound a ha).symm
  | some y =>
    obtain ⟨b, hb, hy⟩ := List.exists_of_findSome?_eq_some hfound
    by_contra hne
    have hba : b ≠ a := fun heq => hne (heq ▸ hy.symm)
    rw [h b hb hba] at hy
    cases hy

theorem setInitial_receivesNumbers (v : Grounded.Variable) (T : Task) :
    (enc.setInitial v).Ensures T fun _ T' => T.ReceivesNumbers T' (enc.numberGiven? v) := by
  have hother : ∀ {u : Update Unit}, u.Keeps Task.numericVars →
      enc.placement.numeric? v.index = none → u.Ensures T fun _ T' =>
        T.ReceivesNumbers T' (enc.numberGiven? v) := fun hu hnone =>
    (hu T).mono fun _ T' h => (Task.ReceivesNumbers.of_eq h).congr fun i => by
      rw [numberGiven?, hnone, if_neg (by simp)]
  unfold setInitial
  split
  next var hnumeric =>
    have hnumbers := forM_receives (t := T) (l := v.initialValues) fun entry _ T' _ =>
      enc.setNumber_receives v.index var entry.1 entry.2 T'
    refine ((forM_receivesNumbers fun entry _ T' => enc.setNumber_receivesNumbers v.index var
      entry.1 entry.2 T').and hnumbers).mono fun _ T' ⟨h, _, hnumbers⟩ => h.congr fun i => ?_
    rw [numberGiven?, hnumeric]
    by_cases hi : var = i
    · simp only [hi, true_and, if_true]
      exact findSome?_number hnumbers
    · simp [hi]
  next hnumeric =>
    split
    · refine hother (Update.keeps_forM fun entry => Update.keeps_get.bind fun T => ?_) hnumeric
      split
      · exact updateVariable_keeps (fun _ _ => rfl) _
      · exact Update.keeps_throw _
    split
    · exact hother (Update.keeps_forM fun _ => updateVariable_keeps (fun _ _ => rfl) _) hnumeric
    · exact hother (Update.keeps_pure _) hnumeric

/-! ## All initial values -/

/-- The initial values of a variable: what it receives, and if there is nothing for time zero, that
none of its propositions holds then. -/
def completed (T : Task) (var : Nat) : List (Float × ValueId) :=
  enc.received T var ++
    if (valueAtStart (enc.received T var)).isSome then [] else [(0.0, T.restingValue var)]

/-- Variables have the initial values that they receive from grounded ones. -/
structure EntersInitialValues (T : Task) : Prop where
  accepts : ∀ v ∈ enc.grounded.vars.toList, enc.Accepts T v
  values : ∀ i, i < T.vars.size → T.initialValuesAt i = enc.completed T i
  numbers : ∀ i, i < T.numericVars.size →
    T.numberAtStart? i = enc.grounded.vars.toList.findSome? (enc.numberGiven? · i)

variable {enc} in
/-- Other updates that keep the tables do not matter. -/
theorem EntersInitialValues.of_sameTables {T T' : Task} (h : enc.EntersInitialValues T)
    (hsame : T.SameTables T') (hvalues : T'.initialValuesAt = T.initialValuesAt)
    (hnumbers : T'.numericVars = T.numericVars) : enc.EntersInitialValues T' := by
  refine ⟨fun v hv => (h.accepts v hv).of_sameTables hsame, fun i hi => ?_, fun i hi => ?_⟩
  · rw [hvalues, h.values i (hsame.size ▸ hi), completed, completed, received_of_sameTables hsame,
      hsame.restingValue_eq]
  · rw [Task.numberAtStart?, hnumbers, ← Task.numberAtStart?]
    exact h.numbers i (hnumbers ▸ hi)

/-- In the end every variable has a value for time zero. -/
theorem initialValuesAt_of_setDefault {T : Task} {vars : List Variable}
    (h : List.Forall₂ (fun v v' => setDefault v = .ok v') T.vars.toList vars) {i : Nat}
    (hi : i < T.vars.size) : Task.initialValuesAt { T with vars := vars.toArray } i =
      T.initialValuesAt i ++ if (valueAtStart (T.initialValuesAt i)).isSome then []
        else [(0.0, T.restingValue i)] := by
  have hi' : i < vars.length := by rwa [← h.length_eq, Array.length_toList]
  have hdefault := initialValues_setDefault (h.get (by rwa [Array.length_toList]) hi')
  have hv : T.vars[i]? = some T.vars[i] := Array.getElem?_eq_getElem hi
  unfold Task.initialValuesAt Task.restingValue Task.isBooleanAt
  rw [List.getElem?_toArray, List.getElem?_eq_getElem hi', hv]
  exact hdefault

variable {enc} in
theorem setInitialValues_enters {T : Task}
    (hplacement : IsPlacement enc.grounded enc.isProposition enc.placement T)
    (hempty : ∀ i, T.initialValuesAt i = []) (hnumbers : ∀ i, T.numberAtStart? i = none) :
    enc.setInitialValues.Ensures T fun _ T' => enc.EntersInitialValues T' ∧
      T'.numericVars.size = T.numericVars.size := by
  have hvalues := forM_receives (t := T) (l := enc.grounded.vars.toList) fun v _ T' hT' =>
    (setInitial_receives v (hplacement.congr hT'.values hT'.size fun _ f _ =>
      hT'.boolean f.var)).mono fun _ T'' ⟨h, haccepts⟩ =>
        ⟨valuesGiven_of_sameTables hT' ▸ h, haccepts.of_sameTables hT'.symm⟩
  have hgiven := forM_receivesNumbers (t := T) (l := enc.grounded.vars.toList) fun v _ T' =>
    enc.setInitial_receivesNumbers v T'
  refine Update.ensures_bind.mpr ((hvalues.and hgiven).mono ?_)
  rintro _ T₁ ⟨⟨hreceives, haccepts⟩, hreceivesNumbers⟩
  refine Update.ensures_bind.mpr (Update.ensures_get.mpr ?_)
  refine Update.ensures_bind.mpr (Update.ensures_lift.mpr fun vars hvars => ?_)
  have hdefault := Grounding.except_mapM_eq_ok hvars
  have hsame : T₁.SameTables { T₁ with vars := vars.toArray } :=
    (sameActions_of_forall₂ (hdefault.imp fun _ _ h => setDefault_sameKind h)).toSameTables
  have hreceived : ∀ i, i < T.vars.size → T₁.initialValuesAt i = enc.received T₁ i := by
    intro i hi
    rw [hreceives.received i hi, hempty, received_of_sameTables hreceives.toSameTables]
    rfl
  refine Update.ensures_modify.mpr ⟨⟨fun v hv =>
    (haccepts v hv).of_sameTables (hreceives.toSameTables.trans hsame), fun i hi => ?_,
    fun i hi => ?_⟩, hreceivesNumbers.size⟩
  · have hi₁ : i < T₁.vars.size := hsame.size ▸ hi
    rw [initialValuesAt_of_setDefault hdefault hi₁, hreceived i (hreceives.size ▸ hi₁), completed,
      received_of_sameTables hsame, hsame.restingValue_eq]
  · have hi : i < T.numericVars.size := hreceivesNumbers.size ▸ hi
    refine (hreceivesNumbers.received i hi).trans ?_
    rw [hnumbers, Option.none_or]

end Encoder

/-! ## The encoded task -/

theorem derive_initialState (keepStatic : Bool) (T : Task) :
    (derive keepStatic).Ensures T fun _ T' => T'.tables = T.tables ∧ T'.HasInitialState := by
  let part := fun t : Task => (t.tables, t.initialState, t.numericInitialState)
  have hrequirers : computeRequirers.Keeps part :=
    computeRequirers_keeps (fun _ _ => rfl) fun _ _ => rfl
  have hproducers : computeProducers.Keeps part := computeProducers_keeps fun _ _ => rfl
  have hmutex : computePermanentMutex.Keeps part :=
    computePermanentMutex_keeps (fun _ _ => rfl) fun _ _ => rfl
  refine Update.ensures_bind.mpr (Update.ensures_modify.mpr ?_)
  refine Update.ensures_bind.mpr ((hrequirers _).mono fun _ T₁ h₁ => ?_)
  refine Update.ensures_bind.mpr ((hproducers T₁).mono fun _ T₂ h₂ => ?_)
  refine Update.ensures_bind.mpr ((hmutex T₂).mono fun _ T₃ h₃ => ?_)
  have hkept : part T₃ = part T.withInitialState := (h₃.trans h₂).trans h₁
  obtain ⟨htables, hstates⟩ := Prod.mk.inj hkept
  obtain ⟨-, htables'⟩ := Prod.mk.inj htables
  obtain ⟨hvars, hnumericVars⟩ := Prod.mk.inj htables'
  obtain ⟨hvalues, hnumbers⟩ := Prod.mk.inj hstates
  have hstart : T₃.HasInitialState :=
    ⟨by rw [hvalues, hvars]; rfl, by rw [hnumbers, hnumericVars]; rfl⟩
  exact (computeCosts_initialState keepStatic hstart).mono fun _ T₄ h₄ =>
    ⟨h₄.1.trans htables, h₄.2⟩

/-- What encoding a grounded task makes of its variables: every variable has the place of its kind,
mutex propositions share some, and the places have the initial values of their variables. -/
structure Encoder.IsEncoding (enc : Encoder) (o : Options) (T : Task) : Prop where
  isProposition : enc.isProposition = Mutex.propositions enc.grounded
  placement : IsPlacement enc.grounded enc.isProposition enc.placement T
  shared : ∀ v w f g, enc.placement.fact? v = some f → enc.placement.fact? w = some g →
    f.var = g.var → v = w ∨ (Mutex.fixpoint enc.grounded o.passLimit).mutex.contains v w = true
  kinds : HasKinds enc.grounded enc.isProposition enc.placement T
  numeric_inj : ∀ v w var, enc.placement.numeric? v = some var →
    enc.placement.numeric? w = some var → v = w
  single : ∀ v, enc.grounded.isProposition v = true → ∃ f, enc.placement.fact? v = some f
  neverFalse : "<false>" ∉ enc.grounded.task.objects.toList.map (·.name) → ∀ v var,
    enc.placement.finite? v = some var → T.isBooleanAt var = false
  values : enc.EntersInitialValues T
  initialState : T.HasInitialState

/-- **An encoded task has the initial values of the grounded one**, and its initial state consists
of those for time zero. -/
theorem encode_isEncoding {t : Grounded.Task} (ht : t.IsNumbered) {o : Options} {T : Task}
    (h : (encode t o).result = .ok T) :
    ∃ enc, encoderOf t o = .ok enc ∧ enc.grounded = t ∧ enc.IsEncoding o T := by
  obtain ⟨p, T₀, T₁, T₂, hplace, hinitial, hconstructs, hderive⟩ := encode_phases h
  refine ⟨_, encoderOf_eq hplace, rfl, ?_⟩
  have hover := Mutex.isOver_fixpoint t o.passLimit
  obtain ⟨hplacement, hshares, hactions⟩ := place_ensures t o hover _ p T₀ hplace
  have hkinds := place_hasKinds ht o _ _ _ p T₀ hplace
  -- there are no initial values before they are entered, and nothing else enters any
  have hnone : T₀.initialValuesAt = Task.empty.initialValuesAt :=
    place_keeps t Task.initialValuesAt_ignoresPlacing o _ _ _ .empty p T₀ hplace
  have hnoNumbers : T₀.numberAtStart? = Task.empty.numberAtStart? :=
    place_keeps t Task.numberAtStart?_ignoresPlacing o _ _ _ .empty p T₀ hplace
  obtain ⟨h₁, hsize⟩ := Encoder.setInitialValues_enters hplacement (fun i => congrFun hnone i)
    (fun i => congrFun hnoNumbers i) () T₁ hinitial
  have hsame₁ := Encoder.setInitialValues_sameActions _ T₀ () T₁ hinitial
  obtain ⟨hsame₂, -⟩ := Encoder.addConstructs_ensures _ _ _ (hsame₁.actions.trans hactions) () T₂
    hconstructs
  have hvalues : T₂.initialValuesAt = T₁.initialValuesAt :=
    Encoder.addConstructs_keeps _ Task.initialValuesAt_ignoresDomains (fun _ _ => rfl)
      (fun _ _ => rfl) (fun _ _ _ _ => rfl) (fun _ _ => rfl) _ _ T₁ () T₂ hconstructs
  have hnumbers : T₂.numericVars = T₁.numericVars :=
    Encoder.addConstructs_keeps _ (fun _ _ _ _ => rfl) (fun _ _ => rfl)
      (fun _ _ => rfl) (fun _ _ _ _ => rfl) (fun _ _ => rfl) _ _ T₁ () T₂ hconstructs
  obtain ⟨htables, hstart⟩ := derive_initialState o.keepStatic T₂ () T hderive
  obtain ⟨hvalues', hrest⟩ := Prod.mk.inj htables
  obtain ⟨hvars, hnumericVars⟩ := Prod.mk.inj hrest
  have hsame₃ : T₂.KeepsTables T := .of_eq hvalues' hvars
  have hsame : T₀.SameTables T :=
    ((hsame₁.toKeepsTables.trans hsame₂).trans hsame₃).toSameTables
  refine ⟨rfl, hplacement.congr hsame.values hsame.size fun _ f _ => hsame.boolean f.var,
    fun v w f g hf hg hvar => ?_, ⟨hkinds.numeric, fun v n hn => ?_, hkinds.finite⟩,
    (place_separates t o _ _ _ p T₀ hplace).1, fun v hv => ?_, fun hnames v var hv => ?_, ?_,
    hstart⟩
  · exact (hshares.shared v w f g hf hg hvar).imp_right (hover.contains_iff v w).mpr
  · rw [hnumericVars, hnumbers, hsize]
    exact hkinds.numeric_lt v n hn
  · have hmarked := (Mutex.isMarked_propositions ht v).mpr hv
    obtain ⟨f, hf⟩ := place_single t o _ _ _ p T₀ hplace v hmarked
      (Mutex.size_propositions t ▸ Mutex.lt_size_of_isMarked hmarked)
    exact ⟨f, by rw [Placement.fact?, hf]; rfl⟩
  · rw [hsame.boolean]
    exact (place_shared hnames o hover _ p T₀ hplace v var hv).isBooleanAt
  · refine (h₁.of_sameTables hsame₂.toSameTables hvalues hnumbers).of_sameTables
      hsame₃.toSameTables ?_ hnumericVars
    funext i
    rw [Task.initialValuesAt, Task.initialValuesAt, hvars]

end TemporalPlanning.Encoding
