import TemporalPlanning.Proofs.Grounding.Resolution
import TemporalPlanning.Proofs.Grounding.Scope
/-!
Functions applied to terms, with the parameters of quantifiers left symbolic.

While a goal is grounded, the parameters of its quantifiers are numbered from the first one that is
not bound. So they denote what the original terms denote once objects for them are appended to those
that are bound. A function that depends on no such parameter gets its variable at once, and any
other one is looked up when its quantifiers are eliminated. By then more variables may exist:
whatever is established of the result of a step remains true in all later states.
-/
set_option autoImplicit false

namespace TemporalPlanning.Grounding

open Grounded

/-! ## Steps that succeed -/

section Establishes

variable {α β : Type} {task : Lifted.Task}

/-- A step succeeds, and its result has a property from then on, whatever else is created for the
task. -/
def Step.Establishes (x : Step α) (task : Lifted.Task) (s : State) (P : State → α → Prop) : Prop :=
  ∃ a s', x.run s = .ok (a, s') ∧ s.CreatesFor task s' ∧
    ∀ s'', s'.CreatesFor task s'' → s''.IsTyped task → P s'' a

namespace Step

variable {s : State} {P : State → α → Prop} {Q : State → β → Prop}

/-- What is established must hold in all later states, not only in the one in which the step ends.
-/
theorem establishes_pure {a : α} (h : ∀ s', s'.IsTyped task → P s' a) :
    Establishes (pure a) task s P :=
  ⟨a, s, rfl, .refl task s, fun s' _ htyped => h s' htyped⟩

theorem Establishes.mono {x : Step α} {R : State → α → Prop} (hx : x.Establishes task s P)
    (h : ∀ s' a, P s' a → R s' a) : x.Establishes task s R := by
  obtain ⟨a, s', hrun, hcreates, ha⟩ := hx
  exact ⟨a, s', hrun, hcreates, fun s'' hlater htyped => h s'' a (ha s'' hlater htyped)⟩

/-- What the first step has established is still there when the second one ends. -/
theorem Establishes.bind {x : Step α} {f : α → Step β} (hx : x.Establishes task s P)
    (hf : ∀ a s', (f a).Establishes task s' fun s'' b => P s'' a → Q s'' b) :
    Establishes (x >>= f) task s Q := by
  obtain ⟨a, s₁, hrun, h₁, ha⟩ := hx
  obtain ⟨b, s₂, hrun', h₂, hb⟩ := hf a s₁
  refine ⟨b, s₂, ?_, h₁.trans h₂, fun s₃ h₃ htyped => ?_⟩
  · rw [StateT.run_bind, hrun]
    exact hrun'
  · exact hb s₃ h₃ htyped (ha s₃ (h₂.trans h₃) htyped)

theorem Establishes.map {x : Step α} {f : α → β} (hx : x.Establishes task s P)
    (hf : ∀ s' a, P s' a → Q s' (f a)) : Establishes (f <$> x) task s Q := by
  rw [map_eq_pure_bind]
  exact hx.bind fun a s' => establishes_pure fun s'' _ ha => hf s'' a ha

/-- So the results for a list may be established one after the other. -/
theorem establishes_mapM {f : α → Step β} {R : State → α → β → Prop} {as : List α}
    (h : ∀ a ∈ as, ∀ s, (f a).Establishes task s fun s' b => R s' a b) (s : State) :
    Establishes (as.mapM f) task s fun s' bs => List.Forall₂ (R s') as bs := by
  induction as generalizing s with
  | nil => exact establishes_pure fun s' _ => .nil
  | cons a as ih =>
    obtain ⟨ha, has⟩ := List.forall_mem_cons.mp h
    rw [List.mapM_cons]
    exact (ha s).bind fun b s₁ => (ih has s₁).bind fun bs s₂ =>
      establishes_pure fun s' _ hbs hb => .cons hb hbs

end Step

/-- A name that has been given stays. -/
theorem variableOf_establishes (f : FunctionId) (as : List ObjectId) (s : State) :
    (variableOf task f as).Establishes task s fun s' v => s'.Names v f as := by
  have hrun : ∃ a, (variableOf task f as).run s = .ok a := ⟨_, rfl⟩
  obtain ⟨⟨v, s'⟩, hrun⟩ := hrun
  obtain ⟨hcreates, hnames⟩ := variableOf_ensures task f as s v s' hrun
  exact ⟨v, s', hrun, hcreates, fun s'' hlater _ => hnames.mono hlater.toCreates⟩

end Establishes

/-! ## Terms -/

section Terms

/-- A term is an object or one of the first parameters. -/
def IsBound (bound : Nat) : Lifted.Term → Prop
  | .param i => i < bound
  | .object _ => True

variable {task : Lifted.Task} {context : String} {arguments bindings : List ObjectId}

theorem isBound_of_check {bound : Nat} {t : Lifted.Term}
    (h : task.checkTerm context bound t = .ok ()) : IsBound bound t := by
  cases t with
  | object o => trivial
  | param i => exact isSoundTerm_of_check h

theorem isBound_of_checkLiteral {bound : Nat} {l : Lifted.Literal}
    (h : task.checkLiteral context bound l = .ok ()) : ∀ t ∈ l.arguments, IsBound bound t :=
  fun t ht => isBound_of_check (check_forM_eq_ok (check_bind_eq_ok.mp h).2 t ht)

/-- Parameters that are not bound yet are counted from the first one. -/
theorem resolve_partialTerm {t : Lifted.Term} (h : IsBound (arguments ++ bindings).length t) :
    resolve bindings (partialTerm arguments t) = .ok (denote (arguments ++ bindings) t) := by
  cases t with
  | object o => rfl
  | param i =>
    have hi : i < (arguments ++ bindings).length := h
    rw [List.length_append] at hi
    rw [partialTerm, denote]
    split
    -- a parameter of the operator has become an object
    next o ho =>
      have hlt := (List.getElem?_eq_some_iff.mp ho).1
      rw [List.getElem?_append_left hlt, ho]
      rfl
    -- a quantified one is counted from the first that is not bound
    next hnone =>
      have hle := List.getElem?_eq_none_iff.mp hnone
      have hlt : i - arguments.length < bindings.length := by omega
      rw [List.getElem?_append_right hle, resolve, List.getElem?_eq_getElem hlt]
      rfl

/-- The same for the arguments of a function. -/
theorem resolve_partialTerms {ts : List Lifted.Term}
    (h : ∀ t ∈ ts, IsBound (arguments ++ bindings).length t) :
    (ts.map (partialTerm arguments)).mapM (resolve bindings) =
      .ok (ts.map (denote (arguments ++ bindings))) := by
  induction ts with
  | nil => rfl
  | cons t ts ih =>
    obtain ⟨ht, hts⟩ := List.forall_mem_cons.mp h
    rw [List.map_cons, List.mapM_cons, resolve_partialTerm ht, ih hts]
    rfl

/-- A term that is an object already denotes it, whatever else is bound. -/
theorem denote_of_partialTerm {t : Lifted.Term} {o : ObjectId}
    (h : partialTerm arguments t = .object o) (bindings : List ObjectId) :
    denote (arguments ++ bindings) t = o := by
  cases t with
  | object o' =>
    cases h
    rfl
  | param i =>
    rw [partialTerm] at h
    split at h
    next o' ho' =>
      cases h
      rw [denote, List.getElem?_append_left (List.getElem?_eq_some_iff.mp ho').1, ho']
      rfl
    · cases h

/-- If all arguments of a function are objects already, no quantified parameter is among them. -/
theorem denote_of_partialTerms {ts : List Lifted.Term} {objects : List ObjectId}
    (h : (ts.map (partialTerm arguments)).mapM PartialTerm.object? = some objects)
    (bindings : List ObjectId) : ts.map (denote (arguments ++ bindings)) = objects := by
  induction ts generalizing objects with
  | nil =>
    cases h
    rfl
  | cons t ts ih =>
    rw [List.map_cons, List.mapM_cons] at h
    obtain ⟨o, ho, h⟩ := Option.bind_eq_some_iff.mp h
    obtain ⟨os, hos, h⟩ := Option.bind_eq_some_iff.mp h
    cases h
    rw [List.map_cons, ih hos]
    -- what is no object is a parameter of a quantifier
    cases hterm : partialTerm arguments t with
    | object o' =>
      rw [hterm] at ho
      cases ho
      rw [denote_of_partialTerm hterm]
    | quantified i =>
      rw [hterm] at ho
      cases ho

end Terms

/-! ## Functions with values -/

/-- A function applied to terms has the value of a term, or has another one. -/
def FluentHolds (y : Lifted.Situation) (objects : List ObjectId) (l : Lifted.Literal)
    (t : Lifted.Term) (equal : Bool) : Prop :=
  ∃ o, y.objects (l.applied objects) = some o ∧ (o = denote objects t ↔ equal = true)

section Fluents

variable {task : Lifted.Task} {arguments bindings objects : List ObjectId}
  {vars : VariableTable} {y : Grounded.Situation Float} {l : Lifted.Literal} {t : Lifted.Term}
  {equal : Bool}

theorem fluentHolds_object_iff {y : Lifted.Situation} {o : ObjectId} :
    FluentHolds y objects l (.object o) true ↔ y.objects (l.applied objects) = some o := by
  simp [FluentHolds, denote]

/-- Through its variable, a function has the value of the variable. -/
theorem situation_of_var? {f : FunctionId} {as : List ObjectId} {v : VarId}
    (h : vars.var? f as = some v) : (vars.situation task y).objects (f, as) = y.objects v ∧
      (vars.situation task y).numbers (f, as) = y.numbers v := by
  unfold VariableTable.situation
  dsimp only
  rw [h]
  exact ⟨rfl, rfl⟩

/-- A predicate without a variable is false: nothing ever makes it true. -/
theorem situation_of_var?_eq_none {f : FunctionId} {as : List ObjectId}
    (h : vars.var? f as = none) (hf : task.isPredicate f = true) :
    (vars.situation task y).objects (f, as) = some .falsity := by
  unfold VariableTable.situation
  dsimp only
  rw [h]
  exact if_pos hf

/-- So a goal about the variable says the same as one about the function. -/
theorem fluent_expresses {v : VarId}
    (h : vars.var? l.function (l.arguments.map (denote objects)) = some v) :
    (Goal.fluent v (denote objects t) equal).Expresses fun x time =>
      FluentHolds (vars.situation task (x time)) objects l t equal :=
  Goal.expresses_fluent fun x time => by
    rw [FluentHolds, Lifted.Literal.applied, (situation_of_var? h).1]

/-- A predicate without a variable is false, and only that. -/
theorem constant_expresses (h : vars.var? l.function (l.arguments.map (denote objects)) = none)
    (hl : task.isPredicate l.function = true) :
    (Goal.constant ((denote objects t == .falsity) == equal)).Expresses fun x time =>
      FluentHolds (vars.situation task (x time)) objects l t equal :=
  Goal.expresses_constant fun x time => by
    rw [FluentHolds, Lifted.Literal.applied, situation_of_var?_eq_none h hl]
    simp only [Option.some.injEq, exists_eq_left', beq_iff_eq]
    rw [@eq_comm _ ObjectId.falsity]
    cases equal <;> simp

/-- **A function with a value is resolved** once objects for the quantified parameters are known: by
its variable, or by the constant that it has without one. -/
theorem instantiateFluent_resolves
    (hliteral : ∀ t ∈ l.arguments, IsBound (arguments ++ bindings).length t)
    (hterm : IsBound (arguments ++ bindings).length t)
    (hvariable : l.HasVariable task vars (arguments ++ bindings)) :
    Resolves
      (instantiateFluent (Setting.ofTask task) vars bindings l.function
        (l.arguments.map (partialTerm arguments)) (partialTerm arguments t) equal)
      fun x time =>
        FluentHolds (vars.situation task (x time)) (arguments ++ bindings) l t equal := by
  refine resolves_bind (resolve_partialTerms hliteral) ?_
  refine resolves_bind (resolve_partialTerm hterm) ?_
  split
  next v hv => exact ⟨_, rfl, fluent_expresses hv⟩
  next hnone =>
    -- only predicates need not have variables
    have hpredicate : task.isPredicate l.function = true := by
      refine hvariable.resolve_right fun hexists => ?_
      obtain ⟨v, hv⟩ := hexists
      rw [hnone] at hv
      cases hv
    have hsetting : (Setting.ofTask task).task.isPredicate l.function = true := hpredicate
    rw [if_pos hsetting]
    exact ⟨_, rfl, constant_expresses hnone hpredicate⟩

end Fluents

/-! ## Instances -/

section Renders

variable (task : Lifted.Task) (arguments : List ObjectId)

/-- The instances of a goal express `P`, for all objects of its quantifiers for which `C` holds of
all objects that are bound. -/
def Renders (C : VariableTable → List ObjectId → Prop)
    (P : Lifted.Situations → TimePoint → List ObjectId → Prop) (s : State) (g : Goal) : Prop :=
  ∀ bindings, C s.vars (arguments ++ bindings) →
    Resolves (instantiate (Setting.ofTask task) s.vars bindings g) fun x time =>
      P (fun t => s.vars.situation task (x t)) time (arguments ++ bindings)

variable {task arguments} {C D : VariableTable → List ObjectId → Prop}
  {P Q : Lifted.Situations → TimePoint → List ObjectId → Prop} {s : State} {g : Goal}

theorem Renders.congr (h : Renders task arguments C P s g)
    (hC : ∀ vars objects, D vars objects → C vars objects)
    (hP : ∀ x time objects, P x time objects ↔ Q x time objects) :
    Renders task arguments D Q s g := fun bindings hbindings =>
  (h bindings (hC _ _ hbindings)).congr fun _ time => hP _ time _

end Renders

section Fluents

variable {task : Lifted.Task} {arguments : List ObjectId}

/-- **Grounding a function with a value** renders it for all objects that the quantified parameters
may stand for later. -/
theorem fluentGoal_establishes (l : Lifted.Literal) (t : Lifted.Term) (equal : Bool) (s : State) :
    (fluentGoal task arguments l t equal).Establishes task s
      (Renders task arguments
        (fun vars objects => (∀ t ∈ l.arguments, IsBound objects.length t) ∧
          IsBound objects.length t ∧ l.HasVariable task vars objects)
        fun x time objects => FluentHolds (x time) objects l t equal) := by
  unfold fluentGoal
  dsimp only
  split
  next objects o hobjects ho =>
    -- nothing depends on quantifiers
    refine (variableOf_establishes _ _ s).bind fun v s₁ => Step.establishes_pure fun s' _ hv => ?_
    intro bindings _
    rw [instantiate, ← denote_of_partialTerm ho bindings]
    refine ⟨_, rfl, fluent_expresses ?_⟩
    rw [denote_of_partialTerms hobjects]
    exact find?_eq_some_of_names hv
  next =>
    refine Step.establishes_pure fun s' _ bindings hready => ?_
    obtain ⟨hliteral, hterm, hvariable⟩ := hready
    rw [instantiate]
    exact instantiateFluent_resolves hliteral hterm hvariable

end Fluents

end TemporalPlanning.Grounding
