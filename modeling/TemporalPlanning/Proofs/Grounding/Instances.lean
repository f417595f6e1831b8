import TemporalPlanning.Proofs.Grounding.Closure
import TemporalPlanning.Proofs.Grounding.Goals
/-!
What the instance of an operator looks like.

Grounding an operator for its arguments creates the variables of its conditions and effects and
reads off what `Instance.changes` says: the literal effects of the action ask for these values. It
comes to nothing only if the instance is discarded, provided that whatever its numeric parts read or
write exists. Every part is grounded in a later state than the one before it; `State.Reads` is
stable under the creation of variables, so what is known of a part remains true.
-/
set_option autoImplicit false

namespace TemporalPlanning.Grounding

open Grounded

/-! ## Terms -/

section Terms

variable {arguments : List ObjectId}

/-- A term that can be bound is bound to what it denotes. -/
theorem bind_eq_ok {t : Lifted.Term} {o : ObjectId} (h : bind arguments t = .ok o) :
    denote arguments t = o := by
  cases t with
  | object c =>
    cases h
    rfl
  | param i =>
    rw [bind] at h
    rw [denote]
    cases hi : arguments[i]? with
    | none =>
      rw [hi] at h
      cases h
    | some b =>
      rw [hi] at h
      cases h
      rfl

theorem bindAll_eq_ok {ts : List Lifted.Term} {os : List ObjectId}
    (h : bindAll arguments ts = .ok os) : ts.map (denote arguments) = os := by
  have hall := except_mapM_eq_ok h
  clear h
  induction hall with
  | nil => rfl
  | cons hhead _ ih => rw [List.map_cons, bind_eq_ok hhead, ih]

/-- Identities that can be read hold if and only if their terms respect them. -/
theorem identitiesHold_eq_ok {is : List Lifted.Identity} {b : Bool}
    (h : identitiesHold arguments is = .ok b) :
    b = true ↔ ∀ i ∈ is, denote arguments i.left = denote arguments i.right ↔ i.equal = true := by
  induction is generalizing b with
  | nil =>
    cases h
    simp
  | cons i is ih =>
    rw [identitiesHold, except_bind_eq_ok] at h
    obtain ⟨l, hl, h⟩ := h
    obtain ⟨r, hr, h⟩ := except_bind_eq_ok.mp h
    rw [List.forall_mem_cons, bind_eq_ok hl, bind_eq_ok hr]
    have hhead : ((l == r) == i.equal) = true ↔ (l = r ↔ i.equal = true) := by
      rw [beq_iff_eq, Bool.eq_iff_iff, beq_iff_eq]
    by_cases hi : ((l == r) == i.equal) = true
    · rw [if_pos hi] at h
      rw [ih h, and_iff_right (hhead.mp hi)]
    · rw [if_neg hi] at h
      cases h
      exact ⟨fun hfalse => (by cases hfalse), fun hall => absurd (hhead.mpr hall.1) hi⟩

end Terms

/-! ## Conditions that ask for values -/

namespace State

variable {s s' : State}

/-- A condition or effect asks for a value. -/
def Reads (s : State) (c : Condition) (v : ReachedValue) : Prop :=
  s.Names c.var v.function v.arguments ∧ c.value = v.value

/-- A list of conditions or effects asks for exactly these values. -/
structure Represents (s : State) (cs : List Condition) (vs : List ReachedValue) : Prop where
  sound : ∀ c ∈ cs, ∃ v ∈ vs, s.Reads c v
  complete : ∀ v ∈ vs, ∃ c ∈ cs, s.Reads c v

/-- The variable of a function applied to terms exists. -/
def HasVariable (s : State) (arguments : List ObjectId) (l : Lifted.Literal) : Prop :=
  ∃ var, s.Names var l.function (l.arguments.map (denote arguments))

theorem Reads.mono {c : Condition} {v : ReachedValue} (hv : s.Reads c v) (h : s.Creates s') :
    s'.Reads c v :=
  ⟨hv.1.mono h, hv.2⟩

theorem HasVariable.mono {arguments : List ObjectId} {l : Lifted.Literal}
    (hl : s.HasVariable arguments l) (h : s.Creates s') : s'.HasVariable arguments l :=
  ⟨hl.choose, hl.choose_spec.mono h⟩

/-- A condition asks for one value. -/
theorem Reads.unique_value {c : Condition} {v w : ReachedValue} (hv : s.Reads c v)
    (hw : s.Reads c w) : v = w := by
  obtain ⟨hf, has⟩ := hv.1.inj hw.1
  exact ReachedValue.ext hf has (hv.2.symm.trans hw.2)

/-- Two conditions that ask for the same are the same, as a function applied to objects has one
variable. -/
theorem Reads.unique_condition {c d : Condition} {v : ReachedValue} (hc : s.Reads c v)
    (hd : s.Reads d v) : c = d := by
  have hvar := hc.1.unique hd.1
  have hval := hc.2.trans hd.2.symm
  cases c
  cases d
  cases hvar
  cases hval
  rfl

/-- Conditions are on one variable if and only if the values are of one function and arguments. -/
theorem Reads.var_eq_iff {c d : Condition} {v w : ReachedValue} (hc : s.Reads c v)
    (hd : s.Reads d w) : c.var = d.var ↔ v.function = w.function ∧ v.arguments = w.arguments := by
  have hnames := hc.1
  constructor
  · intro hvar
    rw [hvar] at hnames
    exact hnames.inj hd.1
  · rintro ⟨hf, has⟩
    rw [hf, has] at hnames
    exact hnames.unique hd.1

namespace Represents

variable {cs ds : List Condition} {vs ws : List ReachedValue}

theorem nil (s : State) : s.Represents [] [] :=
  ⟨fun _ h => (by cases h), fun _ h => (by cases h)⟩

theorem imp (hcs : s.Represents cs vs) (h : ∀ c v, s.Reads c v → s'.Reads c v) :
    s'.Represents cs vs := by
  refine ⟨fun c hc => ?_, fun v hv => ?_⟩
  · obtain ⟨v, hv, hreads⟩ := hcs.sound c hc
    exact ⟨v, hv, h c v hreads⟩
  · obtain ⟨c, hc, hreads⟩ := hcs.complete v hv
    exact ⟨c, hc, h c v hreads⟩

theorem mono (hcs : s.Represents cs vs) (h : s.Creates s') : s'.Represents cs vs :=
  hcs.imp fun _ _ hreads => hreads.mono h

/-- Only the members of the list of values count. -/
theorem congr (hcs : s.Represents cs vs) (h : ∀ v, v ∈ vs ↔ v ∈ ws) : s.Represents cs ws := by
  refine ⟨fun c hc => ?_, fun v hv => hcs.complete v ((h v).mpr hv)⟩
  obtain ⟨v, hv, hreads⟩ := hcs.sound c hc
  exact ⟨v, (h v).mp hv, hreads⟩

theorem append (hcs : s.Represents cs vs) (hds : s.Represents ds ws) :
    s.Represents (cs ++ ds) (vs ++ ws) := by
  refine ⟨fun c hc => ?_, fun v hv => ?_⟩
  · rcases List.mem_append.mp hc with hc | hc
    · obtain ⟨v, hv, hreads⟩ := hcs.sound c hc
      exact ⟨v, List.mem_append_left _ hv, hreads⟩
    · obtain ⟨v, hv, hreads⟩ := hds.sound c hc
      exact ⟨v, List.mem_append_right _ hv, hreads⟩
  · rcases List.mem_append.mp hv with hv | hv
    · obtain ⟨c, hc, hreads⟩ := hcs.complete v hv
      exact ⟨c, List.mem_append_left _ hc, hreads⟩
    · obtain ⟨c, hc, hreads⟩ := hds.complete v hv
      exact ⟨c, List.mem_append_right _ hc, hreads⟩

theorem singleton {c : Condition} {v : ReachedValue} (h : s.Reads c v) : s.Represents [c] [v] := by
  refine ⟨fun d hd => ⟨v, List.mem_singleton_self v, ?_⟩, fun w hw =>
    ⟨c, List.mem_singleton_self c, ?_⟩⟩
  · rw [List.mem_singleton.mp hd]
    exact h
  · rw [List.mem_singleton.mp hw]
    exact h

/-- A condition is listed if what it asks for is. -/
theorem mem_iff (h : s.Represents cs vs) {c : Condition} {v : ReachedValue} (hreads : s.Reads c v) :
    c ∈ cs ↔ v ∈ vs := by
  constructor
  · intro hc
    obtain ⟨w, hw, hreads'⟩ := h.sound c hc
    rw [hreads.unique_value hreads']
    exact hw
  · intro hv
    obtain ⟨d, hd, hreads'⟩ := h.complete v hv
    rw [hreads.unique_condition hreads']
    exact hd

end Represents

end State

variable (task : Lifted.Task) (arguments : List ObjectId)

/-- Grounding a condition creates its variable if need be, and the condition asks for its instance.
-/
theorem groundFluent_ensures (fluent : Lifted.Fluent) (s : State) :
    (groundFluent task arguments fluent).Ensures s fun c s' =>
      s.Creates s' ∧ s'.Reads c (instanceOf arguments fluent) := by
  refine Step.ensures_bind.mpr (Step.ensures_lift.mpr fun os hos => ?_)
  refine Step.ensures_bind.mpr ((variableOf_ensures task _ os s).mono fun var s' hvar => ?_)
  refine Step.ensures_bind.mpr (Step.ensures_lift.mpr fun o ho => Step.ensures_pure.mpr ?_)
  refine ⟨hvar.1.toCreates, ?_, (bind_eq_ok ho).symm⟩
  rw [instanceOf, bindAll_eq_ok hos]
  exact hvar.2

/-! ## Numeric parts -/

section Expressions

open Expression

theorem Expression.foldListM_eq_map {α ν : Type} (leaf : α → ν) (combine : Operation → List ν → ν)
    (es : List (Expression α)) :
    foldListM (m := Id) (fun a => pure (leaf a)) (fun op _ vs => pure (combine op vs)) es =
      es.map (fold leaf combine) := by
  induction es with
  | nil => rfl
  | cons e es ih =>
    rw [foldListM, ih]
    rfl

theorem readsOf_node (op : Operation) (es : List (Expression Lifted.Quantity)) :
    readsOf (.node op es) = es.flatMap readsOf := by
  have hatoms : (Expression.node op es).atoms = (es.map atoms).flatten := by
    unfold atoms
    rw [fold, foldM, Expression.foldListM_eq_map]
    rfl
  rw [readsOf, hatoms, ← List.flatMap_def, List.filterMap_flatMap]
  rfl

end Expressions

/-- Attempts for the elements of a list, none of which comes to nothing. The property `I` of states
that they rely on and the properties that they ensure are stable under the creation of variables. -/
theorem Attempt.yields_mapM {α β : Type} {f : α → Attempt β} {l : List α} {I : State → Prop}
    {P : State → α → β → Prop} (hI : ∀ s s', I s → s.Creates s' → I s')
    (hP : ∀ s s' a b, P s a b → s.Creates s' → P s' a b)
    (h : ∀ a ∈ l, ∀ s, I s → (f a).Yields s fun b s' => s.Creates s' ∧ P s' a b) {s : State}
    (hs : I s) :
    (l.mapM f).Yields s fun bs s' => s.Creates s' ∧ List.Forall₂ (P s') l bs := by
  induction l generalizing s with
  | nil => exact Attempt.yields_pure.mpr ⟨State.Creates.refl s, List.Forall₂.nil⟩
  | cons a l ih =>
    rw [List.mapM_cons]
    refine (h a List.mem_cons_self s hs).bind ?_
    rintro b s' ⟨hcreates, hb⟩
    have hrest := ih (fun a' ha' => h a' (List.mem_cons_of_mem _ ha')) (hI s s' hs hcreates)
    refine hrest.bind ?_
    rintro bs s'' ⟨hcreates', hbs⟩
    exact Attempt.yields_pure.mpr
      ⟨hcreates.trans hcreates', List.Forall₂.cons (hP _ _ _ _ hb hcreates') hbs⟩

/-- If nothing but the creation of variables is of interest, the number of results remains. -/
theorem Attempt.creates_mapM {α β : Type} {f : α → Attempt β} {l : List α} {I : State → Prop}
    (hI : ∀ s s', I s → s.Creates s' → I s')
    (h : ∀ a ∈ l, ∀ s, I s → (f a).Yields s fun _ s' => s.Creates s') {s : State} (hs : I s) :
    (l.mapM f).Yields s fun bs s' => s.Creates s' ∧ bs.length = l.length := by
  have hall : (l.mapM f).Yields s fun bs s' =>
      s.Creates s' ∧ List.Forall₂ (fun _ _ => True) l bs :=
    Attempt.yields_mapM hI (fun _ _ _ _ _ _ => trivial)
      (fun a ha s hs => (h a ha s hs).mono fun _ _ hcreates => ⟨hcreates, trivial⟩) hs
  exact hall.mono fun bs s' hbs => ⟨hbs.1, hbs.2.length_eq.symm⟩

/-- A quantity can be grounded if the variables that it reads exist. -/
theorem groundQuantity_yields {q : Lifted.Quantity} {s : State}
    (h : ∀ l ∈ readsOf (.atom q), s.HasVariable arguments l) :
    (groundQuantity arguments q).Yields s fun _ s' => s.Creates s' := by
  cases q with
  | number x => exact Attempt.yields_pure.mpr (State.Creates.refl s)
  | duration => exact Attempt.yields_pure.mpr (State.Creates.refl s)
  | elapsed => exact Attempt.yields_pure.mpr (State.Creates.refl s)
  | term t =>
    refine (Attempt.yields_lift.mpr fun o _ => State.Creates.refl s).bind fun o s' hs' => ?_
    exact Attempt.yields_pure.mpr hs'
  | fluent l =>
    obtain ⟨var, hvar⟩ := h l (List.mem_singleton_self l)
    refine (Attempt.yields_lift.mpr fun os hos => ⟨rfl, bindAll_eq_ok hos⟩).bind
      (R := fun os s' => s' = s ∧ l.arguments.map (denote arguments) = os) ?_
    rintro os s' ⟨rfl, rfl⟩
    refine (existingVariable_yields hvar).bind ?_
    rintro found s'' ⟨rfl, -⟩
    exact Attempt.yields_pure.mpr (State.Creates.refl _)

mutual

theorem groundExpression_yields : ∀ (e : Expression Lifted.Quantity) {s : State},
    (∀ l ∈ readsOf e, s.HasVariable arguments l) →
      (groundExpression arguments e).Yields s fun _ s' => s.Creates s'
  | .atom q, s, h => by
    show Attempt.Yields (Expression.atom <$> groundQuantity arguments q) s _
    rw [map_eq_pure_bind]
    refine (groundQuantity_yields arguments h).bind fun a s' hs' => ?_
    exact Attempt.yields_pure.mpr hs'
  | .node op es, s, h => by
    -- an operation reads what its operands read
    rw [readsOf_node] at h
    have hes : ∀ e ∈ es, ∀ l ∈ readsOf e, s.HasVariable arguments l :=
      fun e he l hl => h l (List.mem_flatMap.mpr ⟨e, he, hl⟩)
    refine (groundOperands_yields es hes).bind fun operands s' hs' => ?_
    exact Attempt.yields_pure.mpr hs'

theorem groundOperands_yields : ∀ (es : List (Expression Lifted.Quantity)) {s : State},
    (∀ e ∈ es, ∀ l ∈ readsOf e, s.HasVariable arguments l) →
      Attempt.Yields (Expression.foldListM (fun q => Expression.atom <$> groundQuantity arguments q)
        (fun op _ operands => pure (.node op operands)) es) s fun _ s' => s.Creates s'
  | [], s, _ => Attempt.yields_pure.mpr (State.Creates.refl s)
  | e :: es, s, h => by
    rw [Expression.foldListM]
    refine (groundExpression_yields e (h e List.mem_cons_self)).bind fun r s' hs' => ?_
    have hrest : ∀ e' ∈ es, ∀ l ∈ readsOf e', s'.HasVariable arguments l :=
      fun e' he' l hl => (h e' (List.mem_cons_of_mem _ he') l hl).mono hs'
    refine (groundOperands_yields es hrest).bind fun rs s'' hs'' => ?_
    exact Attempt.yields_pure.mpr (hs'.trans hs'')

end

/-- The variables that some expressions read exist. -/
def State.HasOperands (s : State) (es : List (Expression Lifted.Quantity)) : Prop :=
  ∀ e ∈ es, ∀ l ∈ readsOf e, s.HasVariable arguments l

variable {arguments}

theorem State.HasOperands.mono {s s' : State} {es : List (Expression Lifted.Quantity)}
    (hes : s.HasOperands arguments es) (h : s.Creates s') : s'.HasOperands arguments es :=
  fun e he l hl => (hes e he l hl).mono h

theorem groundNumericCondition_yields {c : Lifted.NumericCondition} {s : State}
    (h : s.HasOperands arguments c.operands) :
    (groundNumericCondition arguments c).Yields s fun _ s' => s.Creates s' := by
  have hoperands := Attempt.creates_mapM (I := fun s => s.HasOperands arguments c.operands)
    (fun _ _ hs hcreates => hs.mono hcreates)
    (fun e he s hs => groundExpression_yields arguments e (hs e he)) h
  exact hoperands.bind fun terms s' hs' => Attempt.yields_pure.mpr hs'.1

theorem groundDuration_yields {d : Lifted.DurationBound} {s : State}
    (h : s.HasOperands arguments [d.expression]) :
    (groundDuration arguments d).Yields s fun _ s' => s.Creates s' :=
  (groundExpression_yields arguments d.expression (h _ (List.mem_singleton_self _))).bind
    fun _ _ hs' => Attempt.yields_pure.mpr hs'

variable (arguments) in
/-- What a numeric effect becomes: one that assigns a term is a literal effect, all others are
not. -/
def IsChange (s : State) (e : Lifted.NumericEffect) (r : Condition ⊕ NumericEffect) : Prop :=
  match assignedValue arguments e with
  | some v => ∃ c, r = .inl c ∧ s.Reads c v
  | none => ∃ c, r = .inr c

theorem IsChange.mono {s s' : State} {e : Lifted.NumericEffect} {r : Condition ⊕ NumericEffect}
    (h : IsChange arguments s e r) (hcreates : s.Creates s') : IsChange arguments s' e r := by
  unfold IsChange at h ⊢
  cases hassigned : assignedValue arguments e with
  | none =>
    rw [hassigned] at h
    exact h
  | some v =>
    rw [hassigned] at h
    obtain ⟨c, rfl, hc⟩ := h
    exact ⟨c, rfl, hc.mono hcreates⟩

/-- Whatever is not the assignment of a term asks for no value. -/
theorem assignedValue_eq_none {e : Lifted.NumericEffect}
    (h : ∀ t, e.assignment = .assign → e.expression ≠ .atom (.term t)) :
    assignedValue arguments e = none := by
  unfold assignedValue
  split
  next t hassignment hexpression => exact absurd hexpression (h t hassignment)
  · rfl

/-- An effect can be grounded if its own variable and those that it reads exist. -/
theorem groundNumericEffect_yields {e : Lifted.NumericEffect} {s : State}
    (hvar : s.HasVariable arguments e.fluent) (hreads : s.HasOperands arguments [e.expression]) :
    (groundNumericEffect arguments e).Yields s fun r s' =>
      s.Creates s' ∧ IsChange arguments s' e r := by
  obtain ⟨var, hvar⟩ := hvar
  refine (Attempt.yields_lift.mpr fun os hos => ⟨rfl, bindAll_eq_ok hos⟩).bind
    (R := fun os s' => s' = s ∧ e.fluent.arguments.map (denote arguments) = os) ?_
  rintro os s' ⟨rfl, rfl⟩
  refine (existingVariable_yields hvar).bind ?_
  rintro found s'' ⟨rfl, rfl⟩
  have hexpression := groundExpression_yields arguments e.expression
    (hreads _ (List.mem_singleton_self _))
  split
  -- assigning a term asks for its value, and any other effect for none
  next t hassignment hexpr =>
    refine (Attempt.yields_lift.mpr fun o ho => ⟨rfl, bind_eq_ok ho⟩).bind
      (R := fun o s' => s' = s'' ∧ denote arguments t = o) ?_
    rintro o s' ⟨rfl, rfl⟩
    refine Attempt.yields_pure.mpr ⟨State.Creates.refl _, ?_⟩
    rw [IsChange, assignedValue, hassignment, hexpr]
    exact ⟨_, rfl, hvar, rfl⟩
  next hother =>
    refine hexpression.bind fun expression s' hs' => Attempt.yields_pure.mpr ⟨hs', ?_⟩
    rw [IsChange, assignedValue_eq_none hother]
    exact ⟨_, rfl⟩

/-- The literal effects among numeric effects ask for the assigned values. -/
theorem represents_literalEffects {es : List Lifted.NumericEffect}
    {rs : List (Condition ⊕ NumericEffect)} {s : State}
    (h : List.Forall₂ (IsChange arguments s) es rs) :
    s.Represents (literalEffects rs) (es.filterMap (assignedValue arguments)) := by
  induction h with
  | nil => exact State.Represents.nil s
  | @cons e r es rs hhead _ ih =>
    rw [List.filterMap_cons]
    rw [IsChange] at hhead
    cases hassigned : assignedValue arguments e with
    | none =>
      rw [hassigned] at hhead
      obtain ⟨c, rfl⟩ := hhead
      exact ih
    | some v =>
      rw [hassigned] at hhead
      obtain ⟨c, rfl, hreads⟩ := hhead
      exact (State.Represents.singleton hreads).append ih

variable (arguments)

/-! ## Lists of effects -/

section Contradictions

variable {vs ws : List ReachedValue}

/-- More values do not resolve a contradiction. -/
theorem Contradictory.mono (h : Contradictory vs) (hsub : ∀ v ∈ vs, v ∈ ws) : Contradictory ws := by
  obtain ⟨v, hv, w, hw, hvw⟩ := h
  exact ⟨v, hsub v hv, w, hsub w hw, hvw⟩

/-- A value is compatible with values about other variables. -/
theorem not_contradictory_append_singleton {v : ReachedValue} (h : ¬Contradictory vs)
    (hv : ∀ w ∈ vs, ¬(w.function = v.function ∧ w.arguments = v.arguments)) :
    ¬Contradictory (vs ++ [v]) := by
  rintro ⟨a, ha, b, hb, hf, has, hval⟩
  rcases List.mem_append.mp ha with ha | ha <;> rcases List.mem_append.mp hb with hb | hb
  · exact h ⟨a, ha, b, hb, hf, has, hval⟩
  · rw [List.mem_singleton.mp hb] at hf has
    exact hv a ha ⟨hf, has⟩
  · rw [List.mem_singleton.mp ha] at hf has
    exact hv b hb ⟨hf.symm, has.symm⟩
  · exact hval (by rw [List.mem_singleton.mp ha, List.mem_singleton.mp hb])

/-- Repeating a value that is there adds nothing. -/
theorem mem_append_cons_of_mem {u v : ReachedValue} (hv : v ∈ vs) :
    u ∈ vs ++ ws ↔ u ∈ vs ++ v :: ws := by
  simp only [List.mem_append, List.mem_cons]
  refine ⟨Or.imp_right Or.inr, ?_⟩
  rintro (h | rfl | h)
  · exact Or.inl h
  · exact Or.inl hv
  · exact Or.inr h

end Contradictions

/-- What is asked for is what is asked for one by one. -/
theorem represents_of_forall₂ {s : State} {es : List Condition} {vs : List ReachedValue}
    (h : List.Forall₂ s.Reads es vs) : s.Represents es vs := by
  induction h with
  | nil => exact State.Represents.nil s
  | cons hreads _ ih => exact (State.Represents.singleton hreads).append ih

theorem represents_of_eraseDups {s : State} {es : List Condition} {vs : List ReachedValue}
    (h : List.Forall₂ s.Reads es vs.eraseDups) : s.Represents es vs :=
  (represents_of_forall₂ h).congr fun _ => List.mem_eraseDups

section Repetitions

variable {vs : List ReachedValue} {v : ReachedValue}

/-- What has occurred before is dropped. -/
theorem eraseDups_append_cons_of_mem (hv : v ∈ vs) (ws : List ReachedValue) :
    (vs ++ v :: ws).eraseDups = (vs ++ ws).eraseDups := by
  rw [List.eraseDups_append, List.eraseDups_append, List.cons_removeAll,
    if_neg (by simpa using hv)]

/-- What occurs for the first time is kept, at its position. -/
theorem eraseDups_append_singleton_of_notMem (hv : v ∉ vs) :
    (vs ++ [v]).eraseDups = vs.eraseDups ++ [v] := by
  rw [List.eraseDups_append, List.cons_removeAll, if_pos (by simpa using hv), List.nil_removeAll]
  rfl

end Repetitions

/-- The literal effects of one time point: each value that is asked for is asked for once, in the
order in which the values come first, and only contradictory effects come to nothing. -/
theorem groundEffects_ensures {fluents : List Lifted.Fluent} {grounded : List Condition}
    {vs : List ReachedValue} {s : State} (hgrounded : List.Forall₂ s.Reads grounded vs.eraseDups)
    (hvs : ¬Contradictory vs) :
    (groundEffects task arguments fluents grounded).Ensures s fun es? s' =>
      s.Creates s' ∧ match es? with
        | some es =>
            List.Forall₂ s'.Reads es (vs ++ fluents.map (instanceOf arguments)).eraseDups ∧
              ¬Contradictory (vs ++ fluents.map (instanceOf arguments))
        | none => Contradictory (vs ++ fluents.map (instanceOf arguments)) := by
  induction fluents generalizing grounded vs s with
  | nil =>
    rw [List.map_nil, List.append_nil]
    exact Attempt.ensures_pure.mpr ⟨State.Creates.refl s, hgrounded, hvs⟩
  | cons fluent rest ih =>
    refine Attempt.ensures_bind.mpr (Attempt.ensures_step.mpr ?_)
    refine (groundFluent_ensures task arguments fluent s).mono ?_
    rintro effect s' ⟨hcreates, hreads⟩
    have hgrounded' : List.Forall₂ s'.Reads grounded vs.eraseDups :=
      hgrounded.imp fun _ _ hc => hc.mono hcreates
    have hrepresents := represents_of_eraseDups hgrounded'
    dsimp only
    rw [List.map_cons]
    generalize instanceOf arguments fluent = v at hreads ⊢
    cases hfound : grounded.find? fun other => other.var == effect.var with
    | none =>
      -- the variable is new to the list
      have hnew : ∀ w ∈ vs, ¬(w.function = v.function ∧ w.arguments = v.arguments) := by
        intro w hw hsame
        obtain ⟨c, hc, hcw⟩ := hrepresents.complete w hw
        have hvar : c.var = effect.var := (hcw.var_eq_iff hreads).mpr hsame
        exact List.find?_eq_none.mp hfound c hc (beq_iff_eq.mpr hvar)
      have happend : List.Forall₂ s'.Reads (grounded ++ [effect]) (vs ++ [v]).eraseDups := by
        rw [eraseDups_append_singleton_of_notMem fun hv => hnew v hv ⟨rfl, rfl⟩]
        exact List.rel_append hgrounded' (.cons hreads .nil)
      refine (ih happend (not_contradictory_append_singleton hvs hnew)).mono ?_
      rintro es? s'' ⟨hcreates', hes⟩
      rw [List.append_assoc, List.singleton_append] at hes
      exact ⟨hcreates.trans hcreates', hes⟩
    | some other =>
      have hother : other ∈ grounded := List.mem_of_find?_eq_some hfound
      have hvar : other.var = effect.var := by
        have hpred := List.find?_some hfound
        exact beq_iff_eq.mp hpred
      obtain ⟨w, hw, hwreads⟩ := hrepresents.sound other hother
      obtain ⟨hf, has⟩ := (hwreads.var_eq_iff hreads).mp hvar
      dsimp only
      by_cases hval : other.value = effect.value
      · -- a repetition: nothing is added
        rw [if_pos hval]
        have hwv : w = v :=
          ReachedValue.ext hf has (hwreads.2.symm.trans (hval.trans hreads.2))
        subst hwv
        refine (ih hgrounded' hvs).mono ?_
        rintro es? s'' ⟨hcreates', hes⟩
        refine ⟨hcreates.trans hcreates', ?_⟩
        cases es? with
        | none => exact Contradictory.mono hes fun u hu => (mem_append_cons_of_mem hw).mp hu
        | some es =>
          rw [eraseDups_append_cons_of_mem hw]
          refine ⟨hes.1, fun hcontra => hes.2 ?_⟩
          exact hcontra.mono fun u hu => (mem_append_cons_of_mem hw).mpr hu
      · -- the second value contradicts the first one
        rw [if_neg hval]
        refine Attempt.ensures_failure.mpr ⟨hcreates, w, List.mem_append_left _ hw, v, ?_, hf,
          has, ?_⟩
        · exact List.mem_append_right _ List.mem_cons_self
        · rw [← hwreads.2, ← hreads.2]
          exact hval

/-! ## Instances -/

/-- An action is the instance of an operator for its arguments. -/
structure IsInstance (schema : Schema) (name : String) (s : State) (a : Action) : Prop where
  name_eq : a.name = name
  operator_eq : a.operator = schema.index
  arguments_eq : a.arguments = arguments
  isGoal_eq : a.isGoal = schema.operator.isGoal
  startConditions : List.Forall₂ (fun c d => s.Reads d (instanceOf arguments c))
    schema.operator.atStart.conditions a.startConditions
  invariants : List.Forall₂ (fun c d => s.Reads d (instanceOf arguments c))
    schema.operator.invariants a.invariants
  endConditions : List.Forall₂ (fun c d => s.Reads d (instanceOf arguments c))
    schema.operator.atEnd.conditions a.endConditions
  startEffects : s.Represents a.startEffects (changesOf arguments schema.operator.atStart)
  endEffects : s.Represents a.endEffects (changesOf arguments schema.operator.atEnd)
  startNumericConditions :
    a.startNumericConditions.length = schema.operator.atStart.numericConditions.length
  numericInvariants : a.numericInvariants.length = schema.operator.numericInvariants.length
  endNumericConditions :
    a.endNumericConditions.length = schema.operator.atEnd.numericConditions.length

variable {arguments}

theorem IsInstance.imp {schema : Schema} {name : String} {s s' : State} {a : Action}
    (h : IsInstance arguments schema name s a) (himp : ∀ c v, s.Reads c v → s'.Reads c v) :
    IsInstance arguments schema name s' a where
  name_eq := h.name_eq
  operator_eq := h.operator_eq
  arguments_eq := h.arguments_eq
  isGoal_eq := h.isGoal_eq
  startConditions := h.startConditions.imp fun _ _ => himp _ _
  invariants := h.invariants.imp fun _ _ => himp _ _
  endConditions := h.endConditions.imp fun _ _ => himp _ _
  startEffects := h.startEffects.imp himp
  endEffects := h.endEffects.imp himp
  startNumericConditions := h.startNumericConditions
  numericInvariants := h.numericInvariants
  endNumericConditions := h.endNumericConditions

theorem IsInstance.effects {schema : Schema} {name : String} {s : State} {a : Action}
    (h : IsInstance arguments schema name s a) :
    s.Represents a.effects (Instance.changes schema.operator arguments) :=
  h.startEffects.append h.endEffects

theorem groundFluents_yields (fluents : List Lifted.Fluent) (s : State) :
    Attempt.Yields (fluents.mapM fun c => (groundFluent task arguments c : Step _)) s
      fun cs s' => s.Creates s' ∧
        List.Forall₂ (fun c d => s'.Reads d (instanceOf arguments c)) fluents cs :=
  Attempt.yields_mapM (I := fun _ => True) (P := fun s c d => s.Reads d (instanceOf arguments c))
    (fun _ _ _ _ => trivial) (fun _ _ _ _ hreads hcreates => hreads.mono hcreates)
    (fun c _ s _ => Attempt.yields_step.mpr (groundFluent_ensures task arguments c s)) trivial

theorem groundNumericConditions_yields {cs : List Lifted.NumericCondition} {s : State}
    (h : s.HasOperands arguments (cs.flatMap Lifted.NumericCondition.operands)) :
    Attempt.Yields (cs.mapM (groundNumericCondition arguments)) s
      fun ds s' => s.Creates s' ∧ ds.length = cs.length := by
  refine Attempt.creates_mapM
    (I := fun s => s.HasOperands arguments (cs.flatMap Lifted.NumericCondition.operands))
    (fun _ _ hs hcreates => hs.mono hcreates) (fun c hc s hs => ?_) h
  exact groundNumericCondition_yields fun e he => hs e (List.mem_flatMap.mpr ⟨c, hc, he⟩)

theorem groundNumericEffects_yields {es : List Lifted.NumericEffect} {s : State}
    (hvars : ∀ e ∈ es, s.HasVariable arguments e.fluent)
    (hreads : s.HasOperands arguments (es.map Lifted.NumericEffect.expression)) :
    Attempt.Yields (es.mapM (groundNumericEffect arguments)) s fun rs s' =>
      s.Creates s' ∧
        s'.Represents (literalEffects rs) (es.filterMap (assignedValue arguments)) := by
  have hall := Attempt.yields_mapM
    (I := fun s => (∀ e ∈ es, s.HasVariable arguments e.fluent) ∧
      s.HasOperands arguments (es.map Lifted.NumericEffect.expression))
    (P := IsChange arguments)
    (fun _ _ hs hcreates => ⟨fun e he => (hs.1 e he).mono hcreates, hs.2.mono hcreates⟩)
    (fun _ _ _ _ hr hcreates => hr.mono hcreates)
    (fun e he s hs => groundNumericEffect_yields (hs.1 e he) fun e' he' =>
      hs.2 e' (List.mem_singleton.mp he' ▸ List.mem_map_of_mem he)) ⟨hvars, hreads⟩
  exact hall.mono fun rs s' hrs => ⟨hrs.1, represents_literalEffects hrs.2⟩

theorem groundPreferences_yields (ps : List Lifted.Preference) (s : State) :
    Attempt.Yields (ps.mapM fun p => (groundPreference task arguments p : Step _)) s
      fun _ s' => s.Creates s' := by
  have hall : Attempt.Yields (ps.mapM fun p => (groundPreference task arguments p : Step _)) s
      fun qs s' => s.Creates s' ∧ qs.length = ps.length :=
    Attempt.creates_mapM (I := fun _ => True) (fun _ _ _ _ => trivial)
      (fun p _ s _ => Attempt.yields_step.mpr
        ((groundPreference_onlyCreates task arguments p s).mono fun _ _ h => h.toCreates))
      trivial
  exact hall.mono fun _ _ h => h.1

theorem groundDurations_yields {ds : List Lifted.DurationBound} {s : State}
    (h : s.HasOperands arguments (ds.map Lifted.DurationBound.expression)) :
    Attempt.Yields (ds.mapM (groundDuration arguments)) s fun _ s' => s.Creates s' := by
  have hall := Attempt.creates_mapM
    (I := fun s => s.HasOperands arguments (ds.map Lifted.DurationBound.expression))
    (fun _ _ hs hcreates => hs.mono hcreates)
    (fun d hd s hs => groundDuration_yields fun e he =>
      hs e (List.mem_singleton.mp he ▸ List.mem_map_of_mem hd)) h
  exact hall.mono fun _ _ h => h.1

/-- The same is done to what an operator has at start, over all and at end. What it ensures is
stable under the creation of variables, so all of it holds afterwards. -/
theorem Attempt.ensures_bind_stages {α β γ : Type} {f : α → Attempt β} {P : State → α → β → Prop}
    (hP : ∀ {s s' a b}, P s a b → s.Creates s' → P s' a b) {a₁ a₂ a₃ : α} {s : State}
    (hf : ∀ a ∈ [a₁, a₂, a₃], ∀ s', s.Creates s' →
      (f a).Yields s' fun b s'' => s'.Creates s'' ∧ P s'' a b)
    {k : β → β → β → Attempt γ} {Q : Option γ → State → Prop}
    (hk : ∀ b₁ b₂ b₃ s', s.Creates s' → P s' a₁ b₁ → P s' a₂ b₂ → P s' a₃ b₃ →
      (k b₁ b₂ b₃).Ensures s' Q) :
    Attempt.Ensures (f a₁ >>= fun b₁ => f a₂ >>= fun b₂ => f a₃ >>= fun b₃ => k b₁ b₂ b₃) s Q := by
  refine (hf a₁ (by simp) s (.refl s)).ensures_bind fun b₁ s₁ ⟨h₁, hb₁⟩ => ?_
  refine (hf a₂ (by simp) s₁ h₁).ensures_bind fun b₂ s₂ ⟨h₂, hb₂⟩ => ?_
  refine (hf a₃ (by simp) s₂ (h₁.trans h₂)).ensures_bind fun b₃ s₃ ⟨h₃, hb₃⟩ => ?_
  exact hk b₁ b₂ b₃ s₃ ((h₁.trans h₂).trans h₃) (hP hb₁ (h₂.trans h₃)) (hP hb₂ h₃) hb₃

/-- **An operator becomes its instance, unless its effects contradict each other**, if the variables
that its numeric parts mention exist. -/
theorem groundOperator_ensures {schema : Schema} {name : String} {s : State}
    (hnumeric : ∀ l ∈ numericLiterals schema.operator, s.HasVariable arguments l) :
    (groundOperator task arguments schema name).Ensures s fun a? s' =>
      s.Creates s' ∧ match a? with
        | some a => ¬Instance.IsDiscarded schema.operator arguments ∧
            IsInstance arguments schema name s' a
        | none => Instance.IsDiscarded schema.operator arguments := by
  have hreads : ∀ es : List (Expression Lifted.Quantity),
      (∀ e ∈ es, e ∈ expressionsOf schema.operator) → s.HasOperands arguments es :=
    fun es hes e he l hl => hnumeric l
      (List.mem_append_left _ (List.mem_flatMap.mpr ⟨e, hes e he, hl⟩))
  have hvars : ∀ e ∈ schema.operator.atStart.numericEffects ++ schema.operator.atEnd.numericEffects,
      s.HasVariable arguments e.fluent :=
    fun e he => hnumeric _ (List.mem_append_right _ (List.mem_map_of_mem he))
  have hparts : ∀ {s' : State}, s.Creates s' → ∀ es : List (Expression Lifted.Quantity),
      (∀ e ∈ es, e ∈ expressionsOf schema.operator) → s'.HasOperands arguments es :=
    fun hs' es hes => (hreads es hes).mono hs'
  have hempty : ¬Contradictory [] := fun ⟨v, hv, _⟩ => (by cases hv)
  -- conditions at start, over all and at end
  refine Attempt.ensures_bind_stages
    (P := fun s cs ds => List.Forall₂ (fun c d => s.Reads d (instanceOf arguments c)) cs ds)
    (fun hP hcreates => hP.imp fun _ _ h => h.mono hcreates)
    (fun cs _ s' _ => groundFluents_yields task cs s') ?_
  intro startConditions invariants endConditions s₁ h₁ hstart hinv hend
  refine Attempt.ensures_bind_stages
    (P := fun _ (cs : List Lifted.NumericCondition) (ds : List NumericCondition) =>
      ds.length = cs.length)
    (fun hP _ => hP)
    (fun cs hcs s' hs' => groundNumericConditions_yields (hparts (h₁.trans hs') _ ?_)) ?_
  · intro e he
    simp only [List.mem_cons, List.not_mem_nil, or_false] at hcs
    rcases hcs with rfl | rfl | rfl <;> simp [expressionsOf, he]
  intro startNumeric numericInvariants endNumeric s₂ h₂ hlen₁ hlen₂ hlen₃
  have hs₂ := h₁.trans h₂
  -- literal effects, either list of which may come to nothing
  refine Attempt.ensures_bind.mpr
    ((groundEffects_ensures task arguments .nil hempty).mono ?_)
  rintro startEffects? s₃ ⟨h₃, hstartEffects⟩
  have hs₃ := hs₂.trans h₃
  cases startEffects? with
  | none => exact ⟨hs₃, Or.inl hstartEffects⟩
  | some startEffects =>
  refine Attempt.ensures_bind.mpr
    ((groundEffects_ensures task arguments .nil hempty).mono ?_)
  rintro endEffects? s₄ ⟨h₄, hendEffects⟩
  have hs₄ := hs₃.trans h₄
  cases endEffects? with
  | none => exact ⟨hs₄, Or.inr hendEffects⟩
  | some endEffects =>
  -- numeric effects, preferences and bounds
  refine (groundNumericEffects_yields (fun e he => (hvars e ?_).mono hs₄)
    (hparts hs₄ _ ?_)).ensures_bind fun startChanges s₅ ⟨h₅, hstartChanges⟩ => ?_
  · exact List.mem_append_left _ he
  · exact fun e he => by simp_all [expressionsOf]
  have hs₅ := hs₄.trans h₅
  refine (groundNumericEffects_yields (fun e he => (hvars e ?_).mono hs₅)
    (hparts hs₅ _ ?_)).ensures_bind fun endChanges s₆ ⟨h₆, hendChanges⟩ => ?_
  · exact List.mem_append_right _ he
  · exact fun e he => by simp_all [expressionsOf]
  have hs₆ := hs₅.trans h₆
  refine (groundPreferences_yields task _ s₆).ensures_bind fun preferences s₇ h₇ => ?_
  have hs₇ := hs₆.trans h₇
  refine (groundDurations_yields (hparts hs₇ _ ?_)).ensures_bind fun durations s₈ h₈ => ?_
  · exact fun e he => by simp_all [expressionsOf]
  refine Attempt.ensures_pure.mpr ⟨hs₇.trans h₈, ?_, ?_⟩
  · rintro (h | h)
    · exact hstartEffects.2 h
    · exact hendEffects.2 h
  · -- what was read in an earlier state is read in the last one
    have ht₆ := h₇.trans h₈
    have ht₅ := h₆.trans ht₆
    have ht₄ := h₅.trans ht₅
    have ht₃ := h₄.trans ht₄
    have ht₁ := h₂.trans (h₃.trans ht₃)
    exact {
      name_eq := rfl
      operator_eq := rfl
      arguments_eq := rfl
      isGoal_eq := rfl
      startConditions := hstart.imp fun _ _ h => h.mono ht₁
      invariants := hinv.imp fun _ _ h => h.mono ht₁
      endConditions := hend.imp fun _ _ h => h.mono ht₁
      startEffects := ((represents_of_eraseDups hstartEffects.1).mono ht₃).append (hstartChanges.mono ht₅)
      endEffects := ((represents_of_eraseDups hendEffects.1).mono ht₄).append (hendChanges.mono ht₆)
      startNumericConditions := hlen₁
      numericInvariants := hlen₂
      endNumericConditions := hlen₃ }

end TemporalPlanning.Grounding
