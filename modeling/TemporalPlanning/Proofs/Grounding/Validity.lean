import Mathlib.Data.List.Nodup
import Mathlib.Data.List.Perm.Basic
import TemporalPlanning.Grounding.Statics
import TemporalPlanning.Proofs.Grounding.Matching
import TemporalPlanning.Proofs.Grounding.Steps
/-!
What validation guarantees.

In a valid problem every function is applied to as many terms as it has parameters, terms are
parameters of the operator or objects of the table, and the same holds of facts. So whatever can be
reached is sorted: a function of the table is applied to objects of the table, as many as it has
parameters, and gets an object of the table. There are only `valueBound` sorted values.
-/
set_option autoImplicit false

namespace TemporalPlanning.Grounding

open Lifted

variable {α : Type}

/-! ## Checks -/

theorem require_eq_ok {b : Bool} {d : Defect} : require b d = .ok () ↔ b = true := by
  cases b
  · exact ⟨fun h => (by cases h), fun h => (by cases h)⟩
  · exact ⟨fun _ => rfl, fun _ => rfl⟩

theorem check_bind_eq_ok {x y : Check} : (x >>= fun _ => y) = .ok () ↔ x = .ok () ∧ y = .ok () := by
  rw [except_bind_eq_ok]
  exact ⟨fun ⟨_, hx, hy⟩ => ⟨hx, hy⟩, fun ⟨hx, hy⟩ => ⟨(), hx, hy⟩⟩

theorem check_forM_eq_ok {l : List α} {f : α → Check} (h : l.forM f = .ok ()) :
    ∀ a ∈ l, f a = .ok () := by
  induction l with
  | nil =>
    intro a ha
    cases ha
  | cons b l ih =>
    obtain ⟨hb, hl⟩ := check_bind_eq_ok.mp (show (f b >>= fun _ => l.forM f) = .ok () from h)
    intro a ha
    rcases List.mem_cons.mp ha with rfl | ha
    · exact hb
    · exact ih hl a ha

theorem mapError_eq_ok {ε ε' : Type} {f : ε → ε'} {x : Except ε α} {a : α}
    (h : x.mapError f = .ok a) : x = .ok a := by
  cases x with
  | error e => cases h
  | ok b =>
    cases h
    rfl

/-! ## Sound constructs -/

section Sound

variable (task : Lifted.Task) (bound : Nat)

/-- A term is a parameter below the bound or an object of the table. -/
def IsSoundTerm : Term → Prop
  | .param i => i < bound
  | .object o => o.index < task.objects.size

/-- A function of the table is applied to as many sound terms as it has parameters. -/
def IsSoundLiteral (l : Literal) : Prop :=
  (∃ f, task.functions[l.function.index]? = some f ∧ f.parameters.length = l.arguments.length) ∧
    ∀ t ∈ l.arguments, IsSoundTerm task bound t

/-- The literal conditions and effects of an operator are sound. -/
structure IsSoundOperator (op : Operator) : Prop where
  conditions : ∀ c ∈ Instance.preconditions op,
    IsSoundLiteral task op.parameters.length c.literal ∧
      IsSoundTerm task op.parameters.length c.value
  effects : ∀ c ∈ op.atStart.effects ++ op.atEnd.effects,
    IsSoundLiteral task op.parameters.length c.literal ∧
      IsSoundTerm task op.parameters.length c.value
  assignments : ∀ e ∈ op.atStart.numericEffects ++ op.atEnd.numericEffects, ∀ t,
    e.expression = .atom (.term t) → IsSoundLiteral task op.parameters.length e.fluent ∧
      IsSoundTerm task op.parameters.length t

variable {task bound} {context : String}

theorem isSoundTerm_of_check {t : Term} (h : task.checkTerm context bound t = .ok ()) :
    IsSoundTerm task bound t := by
  cases t with
  | param i =>
    have hi : i < bound := of_decide_eq_true (require_eq_ok.mp h)
    exact hi
  | object o =>
    have ho : o.index < task.objects.size := of_decide_eq_true (require_eq_ok.mp h)
    exact ho

theorem exists_of_checkFunction {f : FunctionId} {arity : Nat}
    (h : task.checkFunction context f arity = .ok ()) :
    ∃ entry, task.functions[f.index]? = some entry ∧ entry.parameters.length = arity := by
  unfold Task.checkFunction at h
  split at h
  · cases h
  next entry hentry => exact ⟨entry, hentry, of_decide_eq_true (require_eq_ok.mp h)⟩

theorem isSoundLiteral_of_check {l : Literal} (h : task.checkLiteral context bound l = .ok ()) :
    IsSoundLiteral task bound l := by
  obtain ⟨hfunction, harguments⟩ := check_bind_eq_ok.mp h
  exact ⟨exists_of_checkFunction hfunction,
    fun t ht => isSoundTerm_of_check (check_forM_eq_ok harguments t ht)⟩

theorem isSound_of_checkFluent {c : Fluent} (h : task.checkFluent context bound c = .ok ()) :
    IsSoundLiteral task bound c.literal ∧ IsSoundTerm task bound c.value := by
  obtain ⟨hliteral, hvalue⟩ := check_bind_eq_ok.mp h
  exact ⟨isSoundLiteral_of_check hliteral, isSoundTerm_of_check hvalue⟩

/-- What a check of a happening guarantees. -/
theorem isSound_of_checkHappening {h : Happening}
    (hcheck : task.checkHappening context bound h = .ok ()) :
    (∀ c ∈ h.conditions, IsSoundLiteral task bound c.literal ∧ IsSoundTerm task bound c.value) ∧
    (∀ c ∈ h.effects, IsSoundLiteral task bound c.literal ∧ IsSoundTerm task bound c.value) ∧
    ∀ e ∈ h.numericEffects, ∀ t, e.expression = .atom (.term t) →
      IsSoundLiteral task bound e.fluent ∧ IsSoundTerm task bound t := by
  obtain ⟨hconditions, hcheck⟩ := check_bind_eq_ok.mp hcheck
  obtain ⟨heffects, hcheck⟩ := check_bind_eq_ok.mp hcheck
  obtain ⟨-, hnumeric⟩ := check_bind_eq_ok.mp hcheck
  refine ⟨fun c hc => isSound_of_checkFluent (check_forM_eq_ok hconditions c hc),
    fun c hc => isSound_of_checkFluent (check_forM_eq_ok heffects c hc), fun e he t ht => ?_⟩
  obtain ⟨hliteral, hexpression⟩ := check_bind_eq_ok.mp (check_forM_eq_ok hnumeric e he)
  rw [ht] at hexpression
  exact ⟨isSoundLiteral_of_check hliteral, isSoundTerm_of_check hexpression⟩

theorem isSoundOperator_of_check {op : Operator} (h : task.checkOperator op = .ok ()) :
    IsSoundOperator task op := by
  obtain ⟨-, h⟩ := check_bind_eq_ok.mp h
  obtain ⟨-, h⟩ := check_bind_eq_ok.mp h
  obtain ⟨hstart, h⟩ := check_bind_eq_ok.mp h
  obtain ⟨hend, h⟩ := check_bind_eq_ok.mp h
  obtain ⟨hinvariants, -⟩ := check_bind_eq_ok.mp h
  obtain ⟨hstartConditions, hstartEffects, hstartChanges⟩ := isSound_of_checkHappening hstart
  obtain ⟨-, hendEffects, hendChanges⟩ := isSound_of_checkHappening hend
  refine ⟨fun c hc => ?_, fun c hc => ?_, fun e he => ?_⟩
  · rcases List.mem_append.mp hc with hc | hc
    · exact hstartConditions c hc
    · exact isSound_of_checkFluent (check_forM_eq_ok hinvariants c hc)
  · rcases List.mem_append.mp hc with hc | hc
    · exact hstartEffects c hc
    · exact hendEffects c hc
  · rcases List.mem_append.mp he with he | he
    · exact hstartChanges e he
    · exact hendChanges e he

end Sound

/-! ## Valid problems -/

/-- A function of the table is applied to objects of the table, as many as it has parameters, and
gets an object of the table. -/
structure IsSorted (task : Lifted.Task) (v : ReachedValue) : Prop where
  function : ∃ f, task.functions[v.function.index]? = some f ∧
    f.parameters.length = v.arguments.length
  arguments : ∀ o ∈ v.arguments, o.index < task.objects.size
  value : v.value.index < task.objects.size

section Valid

variable {p : Problem} (hvalid : p.validate = .ok ())
include hvalid

/-- The checks of a valid problem. -/
theorem checks_of_valid : p.task.checkReserved = .ok () ∧
    (∀ fact ∈ p.task.init, p.task.checkFact fact = .ok ()) ∧
    (∀ c ∈ p.task.constraints, p.task.checkConstraint 0 c = .ok ()) ∧
    ∀ op ∈ p.operators, p.task.checkOperator op = .ok () := by
  have h := mapError_eq_ok hvalid
  obtain ⟨hreserved, h⟩ := check_bind_eq_ok.mp h
  obtain ⟨-, h⟩ := check_bind_eq_ok.mp h
  obtain ⟨hinit, h⟩ := check_bind_eq_ok.mp h
  obtain ⟨hconstraints, h⟩ := check_bind_eq_ok.mp h
  refine ⟨hreserved, check_forM_eq_ok hinit, check_forM_eq_ok hconstraints, ?_⟩
  -- the operators are checked last, after the metric if there is one
  have hoperators : p.operators.forM p.task.checkOperator = .ok () := by
    dsimp only at h
    split at h
    · exact (check_bind_eq_ok.mp h).2
    · exact h
  exact check_forM_eq_ok hoperators

theorem isSoundOperator_of_mem {op : Operator} (hop : op ∈ p.operators) :
    IsSoundOperator p.task op :=
  isSoundOperator_of_check ((checks_of_valid hvalid).2.2.2 op hop)

theorem isSorted_of_isInitialValue {v : ReachedValue} (hv : IsInitialValue p v) :
    IsSorted p.task v := by
  obtain ⟨fact, hfact, hvalue, hf, has⟩ := hv
  obtain ⟨hfunction, hcheck⟩ := check_bind_eq_ok.mp ((checks_of_valid hvalid).2.1 fact hfact)
  obtain ⟨harguments, hcheck⟩ := check_bind_eq_ok.mp hcheck
  rw [hvalue] at hcheck
  obtain ⟨hobject, -⟩ := check_bind_eq_ok.mp hcheck
  rw [hf, has] at hfunction
  rw [has] at harguments
  exact ⟨exists_of_checkFunction hfunction,
    fun o ho => of_decide_eq_true (require_eq_ok.mp (check_forM_eq_ok harguments o ho)),
    of_decide_eq_true (require_eq_ok.mp hobject)⟩

/-- The objects that stand for falsity and truth exist. -/
theorem two_le_size_objects : 2 ≤ p.task.objects.size := by
  obtain ⟨-, hobjects⟩ := check_bind_eq_ok.mp (checks_of_valid hvalid).1
  have htruth := beq_iff_eq.mp (Bool.and_eq_true_iff.mp (require_eq_ok.mp hobjects)).2
  obtain ⟨entry, hentry, -⟩ := Option.map_eq_some_iff.mp htruth
  exact (Array.getElem?_eq_some_iff.mp hentry).1

/-- A function that is not numeric has objects as its values in the initial state. -/
theorem exists_object_of_fact {fact : Fact} (hfact : fact ∈ p.task.init)
    (hf : p.task.isNumeric fact.function = false) : ∃ o, fact.value = .object o := by
  obtain ⟨-, hcheck⟩ := check_bind_eq_ok.mp ((checks_of_valid hvalid).2.1 fact hfact)
  obtain ⟨-, hcheck⟩ := check_bind_eq_ok.mp hcheck
  cases hvalue : fact.value with
  | object o => exact ⟨o, rfl⟩
  | number x =>
    rw [hvalue] at hcheck
    have hnumeric : p.task.isNumeric fact.function = true := require_eq_ok.mp hcheck
    rw [hf] at hnumeric
    cases hnumeric

end Valid

section Values

variable {p : Problem} {op : Operator} {as : List ObjectId}

/-- Admitted objects are in the table. -/
theorem lt_size_of_admits {types : List TypeId} {o : ObjectId}
    (h : (Setting.ofTask p.task).admits types o = true) : o.index < p.task.objects.size := by
  have hmem := mem_objectsOf.mpr h
  rw [Setting.objectsOf, Task.objectsOf] at hmem
  obtain ⟨i, hi, rfl⟩ := List.mem_map.mp (List.mem_filter.mp hmem).1
  exact List.mem_range.mp hi

theorem lt_size_of_denote (has : Instance.IsAdmissible (Setting.ofTask p.task) op as) {t : Term}
    (ht : IsSoundTerm p.task op.parameters.length t) :
    (denote as t).index < p.task.objects.size := by
  cases t with
  | object o => exact ht
  | param i =>
    have hi : i < op.parameters.length := ht
    have hi' : i < as.length := has.length_eq ▸ hi
    rw [(denote_param has.length_eq hi).mpr (List.getElem?_eq_getElem hi')]
    exact lt_size_of_admits (admits_of_getElem? has (List.getElem?_eq_getElem hi)
      (List.getElem?_eq_getElem hi'))

/-- Sound terms denote sorted values. -/
theorem isSorted_of_isSound (has : Instance.IsAdmissible (Setting.ofTask p.task) op as)
    {l : Literal} {t : Term} (hl : IsSoundLiteral p.task op.parameters.length l)
    (ht : IsSoundTerm p.task op.parameters.length t) :
    IsSorted p.task ⟨l.function, l.arguments.map (denote as), denote as t⟩ := by
  obtain ⟨⟨f, hf, hlen⟩, harguments⟩ := hl
  refine ⟨⟨f, hf, hlen.trans (List.length_map _).symm⟩, fun o ho => ?_, lt_size_of_denote has ht⟩
  obtain ⟨t', ht', rfl⟩ := List.mem_map.mp ho
  exact lt_size_of_denote has (harguments t' ht')

theorem exists_of_assignedValue {e : NumericEffect} {v : ReachedValue}
    (h : assignedValue as e = some v) : ∃ t, e.expression = .atom (.term t) ∧
      v = ⟨e.fluent.function, e.fluent.arguments.map (denote as), denote as t⟩ := by
  unfold assignedValue at h
  split at h
  next t _ hexpression =>
    cases h
    exact ⟨t, hexpression, rfl⟩
  · cases h

theorem isSorted_of_mem_changes (hop : IsSoundOperator p.task op)
    (has : Instance.IsAdmissible (Setting.ofTask p.task) op as) {v : ReachedValue}
    (hv : v ∈ Instance.changes op as) : IsSorted p.task v := by
  have hliteral : ∀ c ∈ op.atStart.effects ++ op.atEnd.effects,
      IsSorted p.task (instanceOf as c) := fun c hc =>
    isSorted_of_isSound has (hop.effects c hc).1 (hop.effects c hc).2
  have hnumeric : ∀ e ∈ op.atStart.numericEffects ++ op.atEnd.numericEffects, ∀ w,
      assignedValue as e = some w → IsSorted p.task w := by
    intro e he w hw
    obtain ⟨t, ht, rfl⟩ := exists_of_assignedValue hw
    obtain ⟨hl, ht'⟩ := hop.assignments e he t ht
    exact isSorted_of_isSound has hl ht'
  -- literal effects and assignments, at start and at end
  simp only [Instance.changes, changesOf, List.mem_append, List.mem_map, List.mem_filterMap] at hv
  rcases hv with (⟨c, hc, rfl⟩ | ⟨e, he, hw⟩) | (⟨c, hc, rfl⟩ | ⟨e, he, hw⟩)
  · exact hliteral c (List.mem_append_left _ hc)
  · exact hnumeric e (List.mem_append_left _ he) v hw
  · exact hliteral c (List.mem_append_right _ hc)
  · exact hnumeric e (List.mem_append_right _ he) v hw

/-- **Reachable values are sorted.** -/
theorem isSorted_of_closure (hvalid : p.validate = .ok ()) {k : Nat} {v : ReachedValue}
    (hv : closure p k v) : IsSorted p.task v := by
  induction k with
  | zero => exact isSorted_of_isInitialValue hvalid hv
  | succ k ih =>
    rcases hv with hv | ⟨op, hop, as, henabled, -, hmem⟩
    · exact ih hv
    · exact isSorted_of_mem_changes (isSoundOperator_of_mem hvalid hop) henabled.admissible hmem

end Values

/-! ## The number of sorted values -/

/-- All lists of a length over some elements. -/
def listsOf (l : List α) : Nat → List (List α)
  | 0 => [[]]
  | n + 1 => l.flatMap fun a => (listsOf l n).map (a :: ·)

theorem length_listsOf (l : List α) (n : Nat) : (listsOf l n).length = Nat.pow l.length n := by
  induction n with
  | zero => rfl
  | succ n ih =>
    rw [listsOf, List.length_flatMap]
    simp only [List.length_map, ih, List.map_const', List.sum_replicate_nat]
    exact Nat.mul_comm _ _

theorem mem_listsOf {l as : List α} (h : ∀ a ∈ as, a ∈ l) : as ∈ listsOf l as.length := by
  induction as with
  | nil => exact List.mem_singleton_self _
  | cons a as ih =>
    obtain ⟨ha, has⟩ := List.forall_mem_cons.mp h
    exact List.mem_flatMap.mpr ⟨a, ha, List.mem_map_of_mem (ih has)⟩

/-- A value as the position of its function and a list of objects, the arguments and the value. -/
def valueKey (v : ReachedValue) : Nat × List ObjectId :=
  (v.function.index, v.arguments ++ [v.value])

theorem valueKey_injective : Function.Injective valueKey := by
  rintro ⟨⟨f⟩, as, o⟩ ⟨⟨g⟩, bs, o'⟩ h
  obtain ⟨hf, hlist⟩ := Prod.mk.injEq .. ▸ h
  obtain ⟨has, ho⟩ := List.append_inj' hlist rfl
  cases hf
  cases has
  cases ho
  rfl

/-- The keys of all sorted values. -/
def sortedKeys (task : Lifted.Task) : List (Nat × List ObjectId) :=
  task.functions.toList.zipIdx.flatMap fun (f, i) =>
    (listsOf ((List.range task.objects.size).map ObjectId.mk) (f.parameters.length + 1)).map (i, ·)

theorem mem_sortedKeys {task : Lifted.Task} {v : ReachedValue} (h : IsSorted task v) :
    valueKey v ∈ sortedKeys task := by
  obtain ⟨f, hf, hlen⟩ := h.function
  have hobject : ∀ o : ObjectId, o.index < task.objects.size →
      o ∈ (List.range task.objects.size).map ObjectId.mk := fun o ho =>
    List.mem_map.mpr ⟨o.index, List.mem_range.mpr ho, rfl⟩
  refine List.mem_flatMap.mpr ⟨(f, v.function.index), ?_, ?_⟩
  · rw [List.mem_zipIdx_iff_getElem?, Array.getElem?_toList]
    exact hf
  · refine List.mem_map_of_mem ?_
    have hlength : f.parameters.length + 1 = (v.arguments ++ [v.value]).length := by
      rw [List.length_append, hlen]
      rfl
    rw [hlength]
    refine mem_listsOf fun o ho => hobject o ?_
    rcases List.mem_append.mp ho with ho | ho
    · exact h.arguments o ho
    · rw [List.mem_singleton.mp ho]
      exact h.value

theorem length_sortedKeys (task : Lifted.Task) :
    (sortedKeys task).length = valueBound task := by
  have hfold : ∀ (l : List FunctionEntry) (n k : Nat),
      l.foldl (fun bound f => bound + Nat.pow task.objects.size (f.parameters.length + 1)) n =
        n + ((l.zipIdx k).flatMap fun (f, i) =>
          (listsOf ((List.range task.objects.size).map ObjectId.mk)
            (f.parameters.length + 1)).map (i, ·)).length := by
    -- the positions only tell the keys apart, so they are arbitrary
    intro l
    induction l with
    | nil => exact fun _ _ => rfl
    | cons f l ih =>
      intro n k
      rw [List.foldl_cons, ih _ (k + 1), List.zipIdx_cons, List.flatMap_cons, List.length_append,
        List.length_map, length_listsOf, List.length_map, List.length_range, Nat.add_assoc]
  rw [valueBound, hfold _ 0 0, Nat.zero_add]
  rfl

/-- **There are at most `valueBound` sorted values.** -/
theorem length_le_valueBound {task : Lifted.Task} {vs : List ReachedValue} (hnodup : vs.Nodup)
    (hsorted : ∀ v ∈ vs, IsSorted task v) : vs.length ≤ valueBound task := by
  have hsub : vs.map valueKey ⊆ sortedKeys task := fun k hk => by
    obtain ⟨v, hv, rfl⟩ := List.mem_map.mp hk
    exact mem_sortedKeys (hsorted v hv)
  have hle := (List.subperm_of_subset (hnodup.map valueKey_injective) hsub).length_le
  rwa [List.length_map, length_sortedKeys] at hle

end TemporalPlanning.Grounding
