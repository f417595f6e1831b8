import TemporalPlanning.FiniteDomain.Cost
import TemporalPlanning.Proofs.Comparison
import TemporalPlanning.Proofs.FiniteDomain.Frames
import TemporalPlanning.Proofs.FiniteDomain.Tables
/-!
Initial values of the variables of a finite-domain task.

While initial values are entered, a variable receives values at the end of its list, and its domain
only gains the value for none of the others. `Task.Receives` says which values every variable
receives; updates in a row give theirs one after the other. A numeric variable keeps the first
number for a time, so what counts of it is the number at time zero.
-/
set_option autoImplicit false

namespace TemporalPlanning.FiniteDomain

/-! ## Values at time zero -/

section AtStart

variable {α : Type} {l l' : List (Float × α)} {a : α}

theorem valueAtStart_append :
    valueAtStart (l ++ l') = (valueAtStart l).or (valueAtStart l') := by
  unfold valueAtStart
  rw [List.find?_append]
  cases l.find? fun entry => entry.1 == 0.0 <;> rfl

theorem exists_mem_of_valueAtStart (h : valueAtStart l = some a) :
    ∃ time, (time, a) ∈ l ∧ (time == 0.0) = true := by
  obtain ⟨entry, hfind, rfl⟩ := Option.map_eq_some_iff.mp h
  have htime := List.find?_some hfind
  exact ⟨entry.1, List.mem_of_find?_eq_some hfind, htime⟩

theorem valueAtStart_eq_none_iff :
    valueAtStart l = none ↔ ∀ entry ∈ l, (entry.1 == 0.0) = false := by
  rw [valueAtStart, Option.map_eq_none_iff, List.find?_eq_none]
  exact forall₂_congr fun entry _ => Bool.eq_false_iff.symm

/-- A value at time zero counts if all values at time zero agree with it. -/
theorem valueAtStart_of_mem {time : Float} (hmem : (time, a) ∈ l) (htime : (time == 0.0) = true)
    (hunique : ∀ entry ∈ l, (entry.1 == 0.0) = true → entry.2 = a) : valueAtStart l = some a := by
  cases h : valueAtStart l with
  | none =>
    have hfalse := valueAtStart_eq_none_iff.mp h _ hmem
    rw [htime] at hfalse
    cases hfalse
  | some b =>
    obtain ⟨time', hmem', htime'⟩ := exists_mem_of_valueAtStart h
    rw [← hunique _ hmem' htime']

end AtStart

/-! ## Entering initial values -/

section Entering

variable {v v' : Variable} {value : ValueId} {time : Float}

theorem Variable.initialValues_of_holds (h : v.addInitialValue value true time = .ok v') :
    v'.initialValues = v.initialValues ++ [(time, value)] := by
  dsimp only [addInitialValue] at h
  cases hhas : v.hasValue value
  · rw [hhas] at h
    cases h
  · rw [hhas] at h
    cases h
    rfl

theorem Variable.initialValues_of_not_holds (hboolean : v.isBoolean = true)
    (h : v.addInitialValue .truth false time = .ok v') :
    v'.initialValues = v.initialValues ++ [(time, .falsity)] := by
  obtain ⟨index, name, domain, initialValues⟩ := v
  have hdomain : domain = [.falsity, .truth] := beq_iff_eq.mp hboolean
  subst hdomain
  cases h
  rfl

/-- The first number for a time is kept. -/
theorem NumericVariable.valueAtStart_of_addInitialValue {n n' : NumericVariable} {x : Float}
    (h : n.addInitialValue x time = .ok n') : valueAtStart n'.initialValues =
      (valueAtStart n.initialValues).or (if time == 0.0 then some x else none) := by
  unfold addInitialValue at h
  split at h
  next entry known hfind =>
    split at h
    · cases h
      split
      next htime =>
        -- there is a number for this time already, so there is one for time zero
        have hsame := List.find?_some hfind
        have hknown : (entry == 0.0) = true := BEq.trans hsame htime
        cases hstart : valueAtStart n.initialValues with
        | some y => rfl
        | none =>
          have hfalse := valueAtStart_eq_none_iff.mp hstart _ (List.mem_of_find?_eq_some hfind)
          rw [hknown] at hfalse
          cases hfalse
      · rw [Option.or_none]
    · cases h
  · cases h
    rw [valueAtStart_append]
    congr 1
    rw [valueAtStart, List.find?_singleton]
    split <;> rfl

end Entering

/-! ## What variables receive -/

namespace Task

variable {t t' t'' : Task}

/-- The initial values of the variable at a position. -/
def initialValuesAt (t : Task) (var : Nat) : List (Float × ValueId) :=
  (t.vars[var]?.map (·.initialValues)).getD []

/-- The tables stay the same, and variables receive initial values. -/
structure Receives (t t' : Task) (given : Nat → List (Float × ValueId)) : Prop
    extends t.SameTables t' where
  received : ∀ i, i < t.vars.size → t'.initialValuesAt i = t.initialValuesAt i ++ given i

theorem Receives.refl (t : Task) : t.Receives t fun _ => [] :=
  ⟨.refl t, fun _ _ => (List.append_nil _).symm⟩

theorem Receives.of_eq (hvalues : t'.values = t.values) (hvars : t'.vars = t.vars) :
    t.Receives t' fun _ => [] := by
  refine ⟨(KeepsTables.of_eq hvalues hvars).toSameTables, fun i _ => ?_⟩
  rw [initialValuesAt, initialValuesAt, hvars, List.append_nil]

theorem Receives.trans {given given' : Nat → List (Float × ValueId)} (h : t.Receives t' given)
    (h' : t'.Receives t'' given') : t.Receives t'' fun i => given i ++ given' i := by
  refine ⟨h.toSameTables.trans h'.toSameTables, fun i hi => ?_⟩
  rw [h'.received i (h.size ▸ hi), h.received i hi, List.append_assoc]

theorem Receives.congr {given given' : Nat → List (Float × ValueId)} (h : t.Receives t' given)
    (heq : ∀ i, given i = given' i) : t.Receives t' given' :=
  ⟨h.toSameTables, fun i hi => heq i ▸ h.received i hi⟩

theorem initialValuesAt_ignoresDomains : IgnoresDomains initialValuesAt := by
  intro t var f hf
  funext i
  unfold initialValuesAt
  rw [Array.getElem?_modify]
  split
  · rw [Option.map_map]
    simp only [Function.comp_def, hf]
  · rfl

/-- Variables without initial values do not matter. -/
theorem initialValuesAt_ignoresPlacing : IgnoresPlacing initialValuesAt := by
  refine ⟨⟨initialValuesAt_ignoresDomains, fun _ _ => rfl, fun t v hv => ?_⟩, fun _ _ _ => rfl⟩
  funext i
  unfold initialValuesAt
  rw [Array.getElem?_push]
  split
  next hi =>
    rw [Array.getElem?_eq_none (Nat.le_of_eq hi.symm)]
    exact hv
  · rfl

/-- The number at time zero of the numeric variable at a position. -/
def numberAtStart? (t : Task) (var : Nat) : Option Float :=
  t.numericVars[var]?.bind fun v => valueAtStart v.initialValues

/-- Numeric variables without initial values do not matter. -/
theorem numberAtStart?_ignoresPlacing : IgnoresPlacing numberAtStart? := by
  refine ⟨⟨fun _ _ _ _ => rfl, fun _ _ => rfl, fun _ _ _ => rfl⟩, fun t v hv => ?_⟩
  funext i
  unfold numberAtStart?
  rw [Array.getElem?_push]
  split
  next hi =>
    rw [Array.getElem?_eq_none (Nat.le_of_eq hi.symm), Option.bind_some, hv]
    rfl
  · rfl

/-- Numeric variables that have no number at time zero receive one. -/
structure ReceivesNumbers (t t' : Task) (given : Nat → Option Float) : Prop where
  size : t'.numericVars.size = t.numericVars.size
  received : ∀ i, i < t.numericVars.size →
    t'.numberAtStart? i = (t.numberAtStart? i).or (given i)

theorem ReceivesNumbers.of_eq (h : t'.numericVars = t.numericVars) :
    t.ReceivesNumbers t' fun _ => none := by
  refine ⟨congrArg Array.size h, fun i _ => ?_⟩
  rw [numberAtStart?, numberAtStart?, h, Option.or_none]

theorem ReceivesNumbers.trans {given given' : Nat → Option Float}
    (h : t.ReceivesNumbers t' given) (h' : t'.ReceivesNumbers t'' given') :
    t.ReceivesNumbers t'' fun i => (given i).or (given' i) := by
  refine ⟨h'.size.trans h.size, fun i hi => ?_⟩
  rw [h'.received i (h.size ▸ hi), h.received i hi, Option.or_assoc]

theorem ReceivesNumbers.congr {given given' : Nat → Option Float}
    (h : t.ReceivesNumbers t' given) (heq : ∀ i, given i = given' i) :
    t.ReceivesNumbers t' given' :=
  ⟨h.size, fun i hi => heq i ▸ h.received i hi⟩

end Task

section Updates

variable {t : Task} {var : Nat}

theorem updateVariable_receives {f : Variable → Except Error Variable}
    (given : List (Float × ValueId))
    (h : ∀ v v', t.vars[var]? = some v → f v = .ok v' →
      v.SameKind v' ∧ v'.initialValues = v.initialValues ++ given) :
    (updateVariable var f).Ensures t fun _ t' =>
      t.Receives t' fun i => if var = i then given else [] := by
  refine Update.ensures_bind.mpr (Update.ensures_get.mpr ?_)
  split
  next v hv =>
    refine Update.ensures_bind.mpr (Update.ensures_lift.mpr fun v' hv' => ?_)
    obtain ⟨hkind, hvalues⟩ := h v v' hv hv'
    refine Update.ensures_modify.mpr ⟨⟨rfl, Array.size_modify, isBooleanAt_modify t var _ ?_⟩,
      fun i _ => ?_⟩
    · intro w hw
      rw [hv] at hw
      cases hw
      exact hkind
    · unfold Task.initialValuesAt
      rw [Array.getElem?_modify]
      split
      next heq =>
        rw [← heq, hv]
        exact hvalues
      · rw [List.append_nil]
  next hnone =>
    -- there is no variable that could receive anything
    refine Update.ensures_pure.mpr ⟨.refl t, fun i hi => ?_⟩
    have hne : var ≠ i := fun heq => by
      rw [heq, Array.getElem?_eq_getElem hi] at hnone
      exact hnone _ rfl
    rw [if_neg hne, List.append_nil]

theorem updateNumericVariable_receives (time x : Float) :
    (updateNumericVariable var fun n => n.addInitialValue x time).Ensures t fun _ t' =>
      t.ReceivesNumbers t' fun i => if var = i ∧ (time == 0.0) = true then some x else none := by
  refine Update.ensures_bind.mpr (Update.ensures_get.mpr ?_)
  split
  next n hn =>
    refine Update.ensures_bind.mpr (Update.ensures_lift.mpr fun n' hn' => ?_)
    refine Update.ensures_modify.mpr ⟨Array.size_modify, fun i _ => ?_⟩
    unfold Task.numberAtStart?
    rw [Array.getElem?_modify]
    by_cases heq : var = i
    · subst heq
      rw [if_pos rfl, hn, Option.map_some, Option.bind_some, Option.bind_some,
        NumericVariable.valueAtStart_of_addInitialValue hn']
      simp only [true_and]
    · rw [if_neg heq, if_neg fun h => heq h.1, Option.or_none]
  next hnone =>
    refine Update.ensures_pure.mpr ⟨rfl, fun i hi => ?_⟩
    have hne : var ≠ i := fun heq => by
      rw [heq, Array.getElem?_eq_getElem hi] at hnone
      exact hnone _ rfl
    rw [if_neg fun h => hne h.1, Option.or_none]

variable {α : Type} {f : α → Update PUnit}

/-- What the updates of a list give is received in the order of the list, if each of them finds
that its element is as it should be. -/
theorem forM_receives {given : α → Nat → List (Float × ValueId)} {P : α → Prop} {l : List α}
    (h : ∀ a ∈ l, ∀ t', t.SameTables t' →
      (f a).Ensures t' fun _ t'' => t'.Receives t'' (given a) ∧ P a) :
    Update.Ensures (l.forM f) t fun _ t' =>
      (t.Receives t' fun i => l.flatMap (given · i)) ∧ ∀ a ∈ l, P a := by
  induction l generalizing t with
  | nil => exact Update.ensures_pure.mpr ⟨.refl t, fun a ha => by cases ha⟩
  | cons a l ih =>
    refine Update.ensures_bind.mpr ((h a List.mem_cons_self t (.refl t)).mono ?_)
    rintro _ t₁ ⟨h₁, ha⟩
    refine (ih fun b hb t' ht' => h b (List.mem_cons_of_mem _ hb) t'
      (h₁.toSameTables.trans ht')).mono fun _ t₂ ⟨h₂, hl⟩ => ?_
    exact ⟨h₁.trans h₂, List.forall_mem_cons.mpr ⟨ha, hl⟩⟩

/-- The first number that the updates of a list give counts. -/
theorem forM_receivesNumbers {given : α → Nat → Option Float} {l : List α}
    (h : ∀ a ∈ l, ∀ t', (f a).Ensures t' fun _ t'' => t'.ReceivesNumbers t'' (given a)) :
    Update.Ensures (l.forM f) t fun _ t' =>
      t.ReceivesNumbers t' fun i => l.findSome? (given · i) := by
  induction l generalizing t with
  | nil => exact Update.ensures_pure.mpr (.of_eq rfl)
  | cons a l ih =>
    refine Update.ensures_bind.mpr ((h a List.mem_cons_self t).mono fun _ t₁ h₁ => ?_)
    refine (ih fun b hb => h b (List.mem_cons_of_mem _ hb)).mono fun _ t₂ h₂ => ?_
    refine (h₁.trans h₂).congr fun i => ?_
    rw [List.findSome?_cons]
    cases given a i <;> rfl

end Updates

/-! ## The initial state -/

namespace Task

/-- The values and variables of a task. -/
def tables (t : Task) : Registry String Value Value.name × Array Variable × Array NumericVariable :=
  (t.values, t.vars, t.numericVars)

/-- The initial state consists of the values and numbers at time zero. -/
structure HasInitialState (t : Task) : Prop where
  values : t.initialState = t.vars.map Variable.initialValue?
  numbers : t.numericInitialState = t.numericVars.map NumericVariable.initialValue

end Task

/-- Computing costs does not change the initial state, once it is there. -/
theorem computeCosts_initialState (keepStatic : Bool) {t : Task} (h : t.HasInitialState) :
    (computeCosts keepStatic).Ensures t fun _ t' => t'.tables = t.tables ∧ t'.HasInitialState := by
  refine Update.ensures_bind.mpr (Update.ensures_modify.mpr ?_)
  refine Update.ensures_bind.mpr (Update.ensures_modify.mpr ?_)
  refine Update.ensures_bind.mpr (Update.ensures_get.mpr ?_)
  refine Update.ensures_bind.mpr (Update.ensures_lift.mpr fun costs _ => ?_)
  refine Update.ensures_modify.mpr ?_
  dsimp only
  split
  · exact ⟨rfl, h.values, h.numbers⟩
  · exact ⟨rfl, rfl, rfl⟩

end TemporalPlanning.FiniteDomain
