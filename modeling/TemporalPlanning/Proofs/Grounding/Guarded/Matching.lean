import TemporalPlanning.Proofs.Grounding.Guarded.Types
import TemporalPlanning.Proofs.Grounding.ScopedActions
/-!
Guarded matching.

Matching reads the types of the objects that it binds, the parameters that it binds them to, the
objects that remaining parameters range over, and what is known of the functions of conditions and
values. For the operators of a valid problem and values that are about its functions and objects all
of it is there, and guarded matching finds what matching finds.
-/
set_option autoImplicit false

namespace TemporalPlanning.Grounding

open Lifted

namespace Guarded

/-! ## Definitions -/

section Definitions

variable (setting : Setting) (parameters : List Parameter)

/-- Extends bindings so that a term denotes an object. -/
def bindTerm (bindings : Bindings) : Term × ObjectId → OptionT Guarded Bindings
  | (.object constant, object) => if constant = object then return bindings else failure
  | (.param i, object) =>
    match bindings[i]? with
    | none => failure
    | some (some bound) => if bound = object then return bindings else failure
    | some none => do
      let parameter ← (read .parameters parameters.toArray i : Guarded _)
      if ← (admits setting parameter.types object : Guarded _) then
        return bindings.set i (some object)
      else failure

/-- Extends bindings so that a condition reads as a reached value of the same function. -/
def bindFluent (condition : Fluent) (reached : ReachedValue) (bindings : Bindings) :
    OptionT Guarded Bindings :=
  if condition.literal.arguments.length = reached.arguments.length then
    (condition.literal.arguments.zip reached.arguments ++ [(condition.value, reached.value)]).foldlM
      (bindTerm setting parameters) bindings
  else failure

/-- The bindings in which a condition reads as one of some values. -/
def bindValues (condition : Fluent) (bindings : Bindings) :
    List ReachedValue → Guarded (List Bindings)
  | [] => return []
  | value :: values => do
    let extended ← (bindFluent setting parameters condition value bindings).run
    let rest ← bindValues condition bindings values
    return extended.toList ++ rest

/-- All ways to extend bindings so that each condition reads as one of the values next to it. -/
def extensions : List (Fluent × List ReachedValue) → Bindings → Guarded (List Bindings)
  | [], bindings => return [bindings]
  | (condition, values) :: rest, bindings => do
    let extended ← bindValues setting parameters condition bindings values
    return (← extended.mapM (extensions rest)).flatten

variable (task : Lifted.Task)

/-- The values of a function. They are kept in a table by function. -/
def valuesOf (function : FunctionId) (values : List ReachedValue) :
    Guarded (List ReachedValue) := do
  let _ ← read .functions task.functions function.index
  return values.filter fun v => v.function == function

/-- The conditions other than the triggering one that have to be completed, each with the allowed
values of its function. -/
def toComplete (s : Schema) (trigger : Nat) (allowed : List ReachedValue) :
    Guarded (List (Fluent × List ReachedValue)) :=
  (s.preconditions.zipIdx.filter fun (c, i) => i != trigger && !isNegated c).mapM fun (c, _) =>
    return (c, ← valuesOf task c.literal.function allowed)

/-- All ways to bind the parameters from a position on that are not bound yet. -/
def completions (candidates : List (List ObjectId)) :
    Nat → Bindings → Guarded (List (List ObjectId))
  | _, [] => return [[]]
  | i, some object :: bindings => do
    return (← completions candidates (i + 1) bindings).map (object :: ·)
  | i, none :: bindings => do
    let objects ← read .candidates candidates.toArray i
    let rest ← completions candidates (i + 1) bindings
    return objects.flatMap fun object => rest.map (object :: ·)

/-- The arguments of all instances of an operator that extend the bindings of a trigger. -/
def completeMatch (s : Schema) (trigger : Nat) (allowed : List ReachedValue)
    (bindings : Bindings) : Guarded (List (List ObjectId)) := do
  let conditions ← toComplete setting.task s trigger allowed
  let extended ← extensions setting s.operator.parameters conditions bindings
  return (← extended.mapM (completions s.candidates 0)).flatten

/-- The arguments of all instances of an operator in which a condition reads as a value. -/
def instancesAt (s : Schema) (value : ReachedValue) (allowed : List ReachedValue) :
    Fluent × Nat → Guarded (List (List ObjectId))
  | (condition, i) => do
    if condition.literal.function = value.function then
      match ← (bindFluent setting s.operator.parameters condition value s.unbound).run with
      | none => return []
      | some bindings => completeMatch setting s i allowed bindings
    else return []

/-- The arguments of all instances of an operator that a value triggers. Operators are kept in a
table by the functions of their conditions. -/
def instancesOf (s : Schema) (value : ReachedValue) (allowed : List ReachedValue) :
    Guarded (List (List ObjectId)) := do
  let _ ← read .functions setting.task.functions value.function.index
  return (← s.preconditions.zipIdx.mapM (instancesAt setting s value allowed)).flatten

/-- An operator prepared for matching. It is entered into the table by the functions of its
conditions. -/
def schemaOf (index : Nat) (operator : Operator) : Guarded Schema := do
  let candidates ← operator.parameters.mapM fun p => objectsOf setting p.types
  let s : Schema := ⟨index, operator, candidates⟩
  s.preconditions.forM fun c =>
    discard (read .functions setting.task.functions c.literal.function.index)
  return s

/-- The operators of a problem prepared for matching. -/
def schemasOf (operators : List Operator) : Guarded (List Schema) :=
  operators.zipIdx.mapM fun (op, i) => schemaOf setting i op

end Definitions

/-! ## Binding -/

section Binding

variable {task : Lifted.Task} (htypes : task.HasClosedTypes) {parameters : List Parameter}
  (hparameters : ∀ p ∈ parameters, task.HasTypes p.types) {b : Bindings}
include htypes hparameters

/-- The parameters of the operator have a place in the bindings, and the object has one in the
table, so every position that is read is there. -/
theorem bindTerm_eq_ok (hb : Fits (Setting.ofTask task) parameters b) {t : Term} {o : ObjectId}
    (ho : o.index < task.objects.size) :
    (bindTerm (Setting.ofTask task) parameters b (t, o)).run =
      .ok (Grounding.bindTerm (Setting.ofTask task) parameters b (t, o)) := by
  cases t with
  | object constant =>
    rw [bindTerm, Grounding.bindTerm]
    split <;> rfl
  | param i =>
    rw [bindTerm, Grounding.bindTerm]
    cases hbound : b[i]? with
    | none => rfl
    | some bound =>
      cases bound with
      | some constant =>
        dsimp only
        split <;> rfl
      | none =>
        -- there are as many bindings as parameters
        have hi : i < parameters.length := by
          rw [hb.length_eq]
          exact (List.getElem?_eq_some_iff.mp hbound).1
        have hparameter := List.getElem?_eq_getElem hi
        dsimp only
        rw [hparameter, run_bind_of_eq_ok (read_eq_ok (List.getElem?_toArray.trans hparameter)),
          run_bind_of_eq_ok (admits_eq_ok htypes (hparameters _ (List.getElem_mem hi)) ho)]
        dsimp only
        split <;> rfl

theorem foldlM_bindTerm_eq_ok (hb : Fits (Setting.ofTask task) parameters b)
    {l : List (Term × ObjectId)} (hl : ∀ x ∈ l, x.2.index < task.objects.size) :
    (l.foldlM (bindTerm (Setting.ofTask task) parameters) b).run =
      .ok (l.foldlM (Grounding.bindTerm (Setting.ofTask task) parameters) b) := by
  induction l generalizing b with
  | nil => rfl
  | cons x l ih =>
    obtain ⟨hx, hl⟩ := List.forall_mem_cons.mp hl
    rw [List.foldlM_cons, List.foldlM_cons, OptionT.run_bind,
      bindTerm_eq_ok htypes hparameters hb hx]
    cases hbound : Grounding.bindTerm (Setting.ofTask task) parameters b x with
    | none => rfl
    | some b' => exact ih (hb.bindTerm hbound) hl

/-- All arguments of a value are objects of the task, and so is the value itself. -/
theorem bindFluent_eq_ok (hb : Fits (Setting.ofTask task) parameters b) (c : Fluent)
    {v : ReachedValue} (harguments : ∀ o ∈ v.arguments, o.index < task.objects.size)
    (hvalue : v.value.index < task.objects.size) :
    (bindFluent (Setting.ofTask task) parameters c v b).run =
      .ok (Grounding.bindFluent (Setting.ofTask task) parameters c v b) := by
  unfold bindFluent Grounding.bindFluent
  split
  · refine foldlM_bindTerm_eq_ok htypes hparameters hb fun x hx => ?_
    rcases List.mem_append.mp hx with hx | hx
    · exact harguments x.2 (List.of_mem_zip hx).2
    · rw [List.mem_singleton.mp hx]
      exact hvalue
  · rfl

theorem bindValues_eq_ok (hb : Fits (Setting.ofTask task) parameters b) (c : Fluent)
    {vs : List ReachedValue} (hvs : ∀ v ∈ vs, IsSorted task v) :
    bindValues (Setting.ofTask task) parameters c b vs =
      .ok (vs.filterMap fun v => Grounding.bindFluent (Setting.ofTask task) parameters c v b) := by
  induction vs with
  | nil => rfl
  | cons v vs ih =>
    obtain ⟨hv, hvs⟩ := List.forall_mem_cons.mp hvs
    rw [bindValues, bindFluent_eq_ok htypes hparameters hb c hv.arguments hv.value,
      ih hvs, List.filterMap_cons]
    cases Grounding.bindFluent (Setting.ofTask task) parameters c v b <;> rfl

/-- Bindings stay as long as there are parameters while conditions are matched, so the rest of the
conditions can be matched from each of them. -/
theorem extensions_eq_ok {l : List (Fluent × List ReachedValue)}
    (hl : ∀ x ∈ l, ∀ v ∈ x.2, IsSorted task v) (hb : Fits (Setting.ofTask task) parameters b) :
    extensions (Setting.ofTask task) parameters l b =
      .ok (Grounding.extensions (Setting.ofTask task) parameters l b) := by
  induction l generalizing b with
  | nil => rfl
  | cons x l ih =>
    obtain ⟨c, vs⟩ := x
    obtain ⟨hx, hl⟩ := List.forall_mem_cons.mp hl
    -- every binding that the first condition allows still fits the parameters
    have hrest : ∀ b' ∈ vs.filterMap fun v =>
        Grounding.bindFluent (Setting.ofTask task) parameters c v b,
        extensions (Setting.ofTask task) parameters l b' =
          .ok (Grounding.extensions (Setting.ofTask task) parameters l b') := by
      intro b' hb'
      obtain ⟨v, -, hbound⟩ := List.mem_filterMap.mp hb'
      exact ih hl (hb.bindFluent hbound)
    rw [extensions, bindValues_eq_ok htypes hparameters hb c hx, Grounding.extensions,
      List.flatMap_def]
    exact congrArg (· >>= fun parts => pure parts.flatten) (mapM_eq_ok hrest)

end Binding

/-- The objects of a parameter are read at its position, so the bindings that are left start at the
position that has been reached. -/
theorem completions_eq_ok {candidates : List (List ObjectId)} {i : Nat} {b : Bindings}
    (h : i + b.length = candidates.length) :
    completions candidates i b = .ok (Grounding.completions b (candidates.drop i)) := by
  induction b generalizing i with
  | nil => rfl
  | cons bound b ih =>
    rw [List.length_cons] at h
    have hi : i < candidates.length := by omega
    have hrest := ih (i := i + 1) (by omega)
    rw [List.drop_eq_getElem_cons hi]
    cases bound with
    | some o =>
      rw [completions, hrest]
      rfl
    | none =>
      rw [completions, hrest,
        read_eq_ok (List.getElem?_toArray.trans (List.getElem?_eq_getElem hi))]
      rfl

/-! ## Operators -/

section Operators

variable {task : Lifted.Task} {op : Operator}

/-- What matching reads of an operator is in the tables. -/
structure IsMatchable (task : Lifted.Task) (op : Operator) : Prop where
  parameters : ∀ p ∈ op.parameters, task.HasTypes p.types
  functions : ∀ c ∈ Instance.preconditions op, c.literal.function.index < task.functions.size

/-- The functions of all conditions are in the table, so what is known of them can be read. -/
theorem toComplete_eq_ok (hop : IsMatchable task op) (index trigger : Nat)
    (allowed : List ReachedValue) :
    toComplete task (Schema.ofOperator (Setting.ofTask task) index op) trigger allowed =
      .ok (Grounding.toComplete (Schema.ofOperator (Setting.ofTask task) index op) trigger
        allowed) := by
  refine mapM_eq_ok fun x hx => ?_
  obtain ⟨c, i⟩ := x
  have hc := List.fst_mem_of_mem_zipIdx (List.mem_filter.mp hx).1
  obtain ⟨_, -, hread⟩ := exists_read_eq_ok .functions (hop.functions c hc)
  show (valuesOf task c.literal.function allowed >>= fun vs => pure (c, vs)) = _
  rw [valuesOf, hread]
  rfl

variable (htypes : task.HasClosedTypes) (hop : IsMatchable task op)
include htypes hop

/-- **A match is completed** as without guards: by extending it to the other conditions and then by
choosing objects for the parameters that are still unbound. -/
theorem completeMatch_eq_ok (index trigger : Nat) {allowed : List ReachedValue} {b : Bindings}
    (hallowed : ∀ w ∈ allowed, IsSorted task w)
    (hb : Fits (Setting.ofTask task) op.parameters b) :
    completeMatch (Setting.ofTask task) (Schema.ofOperator (Setting.ofTask task) index op) trigger
        allowed b =
      .ok ((Grounding.extensions (Setting.ofTask task) op.parameters (Grounding.toComplete
        (Schema.ofOperator (Setting.ofTask task) index op) trigger allowed) b).flatMap fun b =>
          Grounding.completions b
            (Schema.ofOperator (Setting.ofTask task) index op).candidates) := by
  set s := Schema.ofOperator (Setting.ofTask task) index op with hs
  have hsorted : ∀ x ∈ Grounding.toComplete s trigger allowed, ∀ w ∈ x.2, IsSorted task w := by
    rintro ⟨d, ws⟩ hx w hw
    obtain ⟨-, -, -, -, rfl⟩ := mem_toComplete.mp hx
    exact hallowed w (List.mem_filter.mp hw).1
  have hcompletions : ∀ b' ∈ Grounding.extensions (Setting.ofTask task) op.parameters
      (Grounding.toComplete s trigger allowed) b,
      completions s.candidates 0 b' = .ok (Grounding.completions b' s.candidates) := by
    -- as many parameters are bound, or not, as there are lists of candidates
    intro b' hb'
    refine completions_eq_ok ?_
    rw [Nat.zero_add, ← (hb.extensions hb').length_eq]
    exact (List.length_map _).symm
  have hcomplete : toComplete (Setting.ofTask task).task s trigger allowed =
      .ok (Grounding.toComplete s trigger allowed) := toComplete_eq_ok hop index trigger allowed
  have hextensions : extensions (Setting.ofTask task) s.operator.parameters
      (Grounding.toComplete s trigger allowed) b = .ok (Grounding.extensions (Setting.ofTask task)
        op.parameters (Grounding.toComplete s trigger allowed) b) :=
    extensions_eq_ok htypes hop.parameters hsorted hb
  rw [completeMatch, List.flatMap_def]
  exact bind_of_eq_ok hcomplete (bind_of_eq_ok hextensions
    (bind_of_eq_ok (mapM_eq_ok hcompletions) rfl))

/-- **All instances that a value triggers** are found by reading what is there. -/
theorem instancesOf_eq_ok (index : Nat) {v : ReachedValue} {allowed : List ReachedValue}
    (hv : IsSorted task v) (hallowed : ∀ w ∈ allowed, IsSorted task w) :
    instancesOf (Setting.ofTask task) (Schema.ofOperator (Setting.ofTask task) index op) v
        allowed =
      .ok (Grounding.instancesOf (Setting.ofTask task)
        (Schema.ofOperator (Setting.ofTask task) index op) v allowed) := by
  obtain ⟨f, hf, -⟩ := hv.function
  have hread : read .functions (Setting.ofTask task).task.functions v.function.index = .ok f :=
    read_eq_ok hf
  rw [instancesOf, Grounding.instancesOf, List.flatMap_def]
  refine bind_of_eq_ok hread (bind_of_eq_ok (mapM_eq_ok fun x _ => ?_) rfl)
  obtain ⟨c, i⟩ := x
  rw [instancesAt]
  dsimp only
  split
  · set s := Schema.ofOperator (Setting.ofTask task) index op with hs
    have hunbound : Fits (Setting.ofTask task) s.operator.parameters s.unbound := fits_unbound
    have hparameters : ∀ p ∈ s.operator.parameters, task.HasTypes p.types := hop.parameters
    refine bind_of_eq_ok
      (bindFluent_eq_ok htypes hparameters hunbound c hv.arguments hv.value) ?_
    cases hbound : Grounding.bindFluent (Setting.ofTask task) s.operator.parameters c v
        s.unbound with
    | none => rfl
    | some b => exact completeMatch_eq_ok htypes hop index i hallowed (hunbound.bindFluent hbound)
  · rfl

/-- An operator is prepared for matching by reading the types of its parameters and the functions of
its conditions. -/
theorem schemaOf_eq_ok (index : Nat) : schemaOf (Setting.ofTask task) index op =
    .ok (Schema.ofOperator (Setting.ofTask task) index op) := by
  have hcandidates : ∀ p ∈ op.parameters, objectsOf (Setting.ofTask task) p.types =
      .ok ((Setting.ofTask task).objectsOf p.types) := fun p hp =>
    objectsOf_eq_ok htypes (hop.parameters p hp)
  rw [schemaOf, mapM_eq_ok hcandidates]
  refine congrArg (· >>= fun _ => pure _) (forM_eq_ok fun c hc => ?_)
  obtain ⟨_, -, hread⟩ := exists_read_eq_ok .functions (hop.functions c hc)
  show discard (read .functions task.functions c.literal.function.index) = _
  rw [hread]
  rfl

end Operators

theorem schemasOf_eq_ok {task : Lifted.Task} (htypes : task.HasClosedTypes)
    {operators : List Operator} (hops : ∀ op ∈ operators, IsMatchable task op) :
    schemasOf (Setting.ofTask task) operators =
      .ok (Grounding.schemasOf (Setting.ofTask task) operators) := by
  refine mapM_eq_ok fun x hx => ?_
  obtain ⟨op, i⟩ := x
  exact schemaOf_eq_ok htypes (hops op (List.fst_mem_of_mem_zipIdx hx)) i

/-- Operators of valid problems refer to types and functions of the tables. -/
theorem isMatchable_of_valid {p : Lifted.Problem} (hvalid : p.validate = .ok ()) {op : Operator}
    (hop : op ∈ p.operators) : IsMatchable p.task op := by
  obtain ⟨hparameters, -⟩ := check_bind_eq_ok.mp ((checks_of_valid hvalid).2.2.2 op hop)
  refine ⟨fun q hq => hasTypes_of_check (check_forM_eq_ok hparameters q hq), fun c hc => ?_⟩
  obtain ⟨f, hf, -⟩ := ((isSoundOperator_of_mem hvalid hop).conditions c hc).1.1
  exact (Array.getElem?_eq_some_iff.mp hf).1

end Guarded

end TemporalPlanning.Grounding
