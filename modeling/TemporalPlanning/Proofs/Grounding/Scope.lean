import TemporalPlanning.Proofs.Grounding.Order
import TemporalPlanning.Proofs.Grounding.Validity
import TemporalPlanning.Proofs.Scope
/-!
Grounded goals stay within the scope of their state.

The scope of a state consists of its variables and preference names and the objects of the task.
Which functions goals may compare with objects is left open: `K` is any property of functions that
the literals of the lifted goals have and all functions that are not numeric. Scopes only grow while
a task is grounded, so what is scoped when it is built remains so.

`Step.Gives` and `Attempt.Gives` say that a step only creates, and what is known of its result in
the state after it.
-/
set_option autoImplicit false

namespace TemporalPlanning.Lifted

mutual

/-- The literals of a goal, without the functions that it compares. -/
def Goal.literals : Goal → List Literal
  | .literal l | .negLiteral l => [l]
  | .and goals | .or goals => Goal.literalsOfList goals
  | .not goal | .timed _ goal | .existential _ goal | .universal _ goal => goal.literals
  | .imply premise conclusion => premise.literals ++ conclusion.literals
  | .compare .. | .equality .. | .inequality .. => []

/-- The literals of a list of goals. -/
def Goal.literalsOfList : List Goal → List Literal
  | [] => []
  | goal :: rest => goal.literals ++ Goal.literalsOfList rest

end

mutual

/-- The literals of the goals of a constraint. -/
def Constraint.literals : Constraint → List Literal
  | .and constraints => Constraint.literalsOfList constraints
  | .universal _ constraint | .preference _ constraint => constraint.literals
  | .goalPreference _ goal => goal.literals
  | .temporal _ _ goals => Goal.literalsOfList goals

/-- The literals of the goals of a list of constraints. -/
def Constraint.literalsOfList : List Constraint → List Literal
  | [] => []
  | constraint :: rest => constraint.literals ++ Constraint.literalsOfList rest

end

theorem Goal.mem_literalsOfList {goals : List Goal} {l : Literal} :
    l ∈ Goal.literalsOfList goals ↔ ∃ goal ∈ goals, l ∈ goal.literals := by
  induction goals with
  | nil => simp [Goal.literalsOfList]
  | cons goal goals ih => simp [Goal.literalsOfList, ih]

end TemporalPlanning.Lifted

namespace TemporalPlanning.Grounding

open Grounded

/-! ## What steps give -/

section Gives

variable {α β : Type}

/-- A property of values in states that remains when variables and names are created. -/
def IsStable (P : State → α → Prop) : Prop := ∀ s s' a, s.Creates s' → P s a → P s' a

/-- A step only creates, and its result has a property in the state after it. -/
def Step.Gives (x : Step α) (s : State) (P : State → α → Prop) : Prop :=
  x.Ensures s fun a s' => s.Creates s' ∧ P s' a

/-- An attempt only creates, and its result, if there is one, has a property in the state after
it. -/
def Attempt.Gives (x : Attempt α) (s : State) (P : State → α → Prop) : Prop :=
  x.Ensures s fun a? s' => s.Creates s' ∧ ∀ a, a? = some a → P s' a

variable {s : State} {P R : State → α → Prop}

namespace Step

theorem Gives.mono {x : Step α} (h : x.Gives s P) (hP : ∀ s' a, P s' a → R s' a) : x.Gives s R :=
  Ensures.mono h fun _ _ ⟨hcreates, ha⟩ => ⟨hcreates, hP _ _ ha⟩

theorem gives_pure {a : α} (h : P s a) : Gives (pure a) s P :=
  ensures_pure.mpr ⟨.refl s, h⟩

theorem gives_lift {x : Except Error α} (h : ∀ a, x = .ok a → P s a) : Gives (liftM x) s P :=
  ensures_lift.mpr fun a ha => ⟨.refl s, h a ha⟩

theorem Gives.bind {x : Step α} {f : α → Step β} {Q : State → β → Prop} (hx : x.Gives s P)
    (hf : ∀ a s', s.Creates s' → P s' a → (f a).Gives s' Q) : Gives (x >>= f) s Q :=
  ensures_bind.mpr (Ensures.mono hx fun a s' ⟨hcreates, ha⟩ =>
    Ensures.mono (hf a s' hcreates ha) fun _ _ ⟨hcreates', hb⟩ =>
      ⟨hcreates.trans hcreates', hb⟩)

theorem gives_get_bind {f : State → Step β} {Q : State → β → Prop} (h : (f s).Gives s Q) :
    Gives (get >>= f) s Q :=
  ensures_bind.mpr (ensures_get.mpr h)

theorem Gives.map {x : Step α} {f : α → β} {Q : State → β → Prop} (hx : x.Gives s P)
    (hf : ∀ a s', P s' a → Q s' (f a)) : Gives (f <$> x) s Q :=
  ensures_map.mpr (Ensures.mono hx fun a s' ⟨hcreates, ha⟩ => ⟨hcreates, hf a s' ha⟩)

/-- What the steps of a list give is stable, so all results have it in the end. -/
theorem gives_mapM {f : α → Step β} {Q : State → β → Prop} (hQ : IsStable Q) {as : List α}
    (h : ∀ a ∈ as, ∀ s', s.Creates s' → (f a).Gives s' Q) :
    Gives (as.mapM f) s fun s' bs => ∀ b ∈ bs, Q s' b := by
  induction as generalizing s with
  | nil => exact gives_pure fun b hb => by cases hb
  | cons a as ih =>
    rw [List.mapM_cons]
    refine (h a List.mem_cons_self s (.refl s)).bind fun b s₁ h₁ hb => ?_
    refine (ih fun a' ha' s' hs' => h a' (List.mem_cons_of_mem _ ha') s' (h₁.trans hs')).bind
      fun bs s₂ h₂ hbs => gives_pure ?_
    exact List.forall_mem_cons.mpr ⟨hQ _ _ _ h₂ hb, hbs⟩

/-- Replacing the leaves of an expression by steps. -/
theorem gives_mapM_expression {f : α → Step β} {Q : State → β → Prop} (hQ : IsStable Q)
    (h : ∀ a s, (f a).Gives s Q) (e : Expression α) (s : State) :
    Gives (e.mapM f) s fun s' e' => ∀ b ∈ e'.atoms, Q s' b := by
  induction e using Expression.operandsInduction generalizing s with
  | atom a =>
    rw [Expression.mapM_atom]
    refine (h a s).map fun b s' hb b' hb' => ?_
    rw [Expression.mem_atoms_atom.mp hb']
    exact hb
  | node op es ih =>
    rw [Expression.mapM_node]
    have hstable : IsStable fun s' e' => ∀ b ∈ Expression.atoms e', Q s' b :=
      fun s s' e' hcreates he b hb => hQ _ _ _ hcreates (he b hb)
    refine (gives_mapM hstable fun e he s' _ => ih e he s').bind fun es' s' _ hes => ?_
    refine gives_pure fun b hb => ?_
    obtain ⟨e', he', hb⟩ := Expression.mem_atoms_node.mp hb
    exact hes e' he' b hb

end Step

namespace Attempt

theorem Gives.mono {x : Attempt α} (h : x.Gives s P) (hP : ∀ s' a, P s' a → R s' a) :
    x.Gives s R :=
  Ensures.mono h fun _ _ ⟨hcreates, ha⟩ => ⟨hcreates, fun a h => hP _ _ (ha a h)⟩

theorem gives_pure {a : α} (h : P s a) : Gives (pure a) s P :=
  ensures_pure.mpr ⟨.refl s, fun _ h' => by cases h'; exact h⟩

theorem gives_failure : Gives (failure : Attempt α) s P :=
  ensures_failure.mpr ⟨.refl s, fun _ h => by cases h⟩

theorem gives_step {x : Step α} (h : x.Gives s P) : Gives (liftM x) s P :=
  ensures_step.mpr (Step.Ensures.mono h fun _ _ ⟨hcreates, ha⟩ =>
    ⟨hcreates, fun _ h => by cases h; exact ha⟩)

theorem gives_lift {x : Except Error α} (h : ∀ a, x = .ok a → P s a) : Gives (liftM x) s P :=
  gives_step (Step.gives_lift h)

theorem Gives.bind {x : Attempt α} {f : α → Attempt β} {Q : State → β → Prop} (hx : x.Gives s P)
    (hf : ∀ a s', s.Creates s' → P s' a → (f a).Gives s' Q) : Gives (x >>= f) s Q := by
  refine ensures_bind.mpr (Ensures.mono hx fun a? s' ⟨hcreates, ha⟩ => ?_)
  cases a? with
  | none => exact ⟨hcreates, fun _ h => by cases h⟩
  | some a =>
    exact Ensures.mono (hf a s' hcreates (ha a rfl)) fun _ _ ⟨hcreates', hb⟩ =>
      ⟨hcreates.trans hcreates', hb⟩

/-- What the attempts for a list give is stable, so it holds of all results in the end. -/
theorem gives_mapM_forall₂ {f : α → Attempt β} {P : α → State → β → Prop}
    (hP : ∀ a, IsStable (P a)) {as : List α}
    (h : ∀ a ∈ as, ∀ s', s.Creates s' → (f a).Gives s' (P a)) :
    Gives (as.mapM f) s fun s' bs => List.Forall₂ (fun a b => P a s' b) as bs := by
  induction as generalizing s with
  | nil => exact gives_pure .nil
  | cons a as ih =>
    rw [List.mapM_cons]
    refine (h a List.mem_cons_self s (.refl s)).bind fun b s₁ h₁ hb => ?_
    refine (ih fun a' ha' s' hs' => h a' (List.mem_cons_of_mem _ ha') s' (h₁.trans hs')).bind
      fun bs s₂ h₂ hbs => gives_pure ?_
    exact .cons (hP a _ _ _ h₂ hb) hbs

theorem gives_mapM {f : α → Attempt β} {Q : State → β → Prop} (hQ : IsStable Q) {as : List α}
    (h : ∀ a ∈ as, ∀ s', s.Creates s' → (f a).Gives s' Q) :
    Gives (as.mapM f) s fun s' bs => ∀ b ∈ bs, Q s' b := by
  refine (gives_mapM_forall₂ (fun _ => hQ) h).mono fun s' bs hbs b hb => ?_
  obtain ⟨_, -, hb⟩ := exists_of_forall₂ hbs hb
  exact hb

/-- The same is attempted for two parts. -/
theorem gives_bind_both {γ : Type} {f : α → Attempt β} {P : α → State → β → Prop}
    {R : State → γ → Prop} (hP : ∀ a, IsStable (P a)) {a₁ a₂ : α}
    (hf : ∀ a ∈ [a₁, a₂], ∀ s', s.Creates s' → (f a).Gives s' (P a)) {k : β → β → Attempt γ}
    (hk : ∀ b₁ b₂ s', s.Creates s' → P a₁ s' b₁ → P a₂ s' b₂ → (k b₁ b₂).Gives s' R) :
    Gives (f a₁ >>= fun b₁ => f a₂ >>= fun b₂ => k b₁ b₂) s R := by
  refine (hf a₁ (by simp) s (.refl s)).bind fun b₁ s₁ h₁ hb₁ => ?_
  refine (hf a₂ (by simp) s₁ h₁).bind fun b₂ s₂ h₂ hb₂ => ?_
  exact hk b₁ b₂ s₂ (h₁.trans h₂) (hP a₁ _ _ _ h₂ hb₁) hb₂

/-- The same is attempted for three parts. -/
theorem gives_bind_stages {γ : Type} {f : α → Attempt β} {P : α → State → β → Prop}
    {R : State → γ → Prop} (hP : ∀ a, IsStable (P a)) {a₁ a₂ a₃ : α}
    (hf : ∀ a ∈ [a₁, a₂, a₃], ∀ s', s.Creates s' → (f a).Gives s' (P a))
    {k : β → β → β → Attempt γ}
    (hk : ∀ b₁ b₂ b₃ s', s.Creates s' → P a₁ s' b₁ → P a₂ s' b₂ → P a₃ s' b₃ →
      (k b₁ b₂ b₃).Gives s' R) :
    Gives (f a₁ >>= fun b₁ => f a₂ >>= fun b₂ => f a₃ >>= fun b₃ => k b₁ b₂ b₃) s R := by
  refine (hf a₁ (by simp) s (.refl s)).bind fun b₁ s₁ h₁ hb₁ => ?_
  refine gives_bind_both hP (fun a ha s' hs' => hf a (List.mem_cons_of_mem _ ha) s'
    (h₁.trans hs')) fun b₂ b₃ s₂ h₂ hb₂ hb₃ => ?_
  exact hk b₁ b₂ b₃ s₂ (h₁.trans h₂) (hP a₁ _ _ _ h₂ hb₁) hb₂ hb₃

theorem gives_mapM_expression {f : α → Attempt β} {Q : State → β → Prop} (hQ : IsStable Q)
    (h : ∀ a s, (f a).Gives s Q) (e : Expression α) (s : State) :
    Gives (e.mapM f) s fun s' e' => ∀ b ∈ e'.atoms, Q s' b := by
  induction e using Expression.operandsInduction generalizing s with
  | atom a =>
    rw [Expression.mapM_atom, map_eq_pure_bind]
    refine (h a s).bind fun b s' _ hb => gives_pure fun b' hb' => ?_
    rw [Expression.mem_atoms_atom.mp hb']
    exact hb
  | node op es ih =>
    rw [Expression.mapM_node]
    have hstable : IsStable fun s' e' => ∀ b ∈ Expression.atoms e', Q s' b :=
      fun s s' e' hcreates he b hb => hQ _ _ _ hcreates (he b hb)
    refine (gives_mapM hstable fun e he s' _ => ih e he s').bind fun es' s' _ hes => ?_
    refine gives_pure fun b hb => ?_
    obtain ⟨e', he', hb⟩ := Expression.mem_atoms_node.mp hb
    exact hes e' he' b hb

end Attempt

end Gives

/-! ## The scope of a state -/

/-- Every variable is still there, with the same function, and so are the preference names. -/
structure State.Grows (s s' : State) : Prop where
  vars : ∀ i v, s.vars.get? i = some v → ∃ v', s'.vars.get? i = some v' ∧ v'.function = v.function
  names : ∀ i name, s.preferenceNames.get? i = some name → s'.preferenceNames.get? i = some name

/-- Creating variables and names is a way to grow. -/
theorem State.Creates.grows {s s' : State} (h : s.Creates s') : s.Grows s' :=
  ⟨fun i v hv => ⟨v, h.kept i v hv, rfl⟩, h.named⟩

theorem State.Grows.of_eq {s s' : State} (hvars : s'.vars = s.vars)
    (hnames : s'.preferenceNames = s.preferenceNames) : s.Grows s' :=
  ⟨fun _ v hv => ⟨v, hvars ▸ hv, rfl⟩, fun _ _ h => hnames ▸ h⟩

theorem State.Grows.trans {s s' s'' : State} (h : s.Grows s') (h' : s'.Grows s'') :
    s.Grows s'' := by
  refine ⟨fun i v hv => ?_, fun i name hname => h'.names i name (h.names i name hname)⟩
  obtain ⟨v', hv', hf⟩ := h.vars i v hv
  obtain ⟨v'', hv'', hf'⟩ := h'.vars i v' hv'
  exact ⟨v'', hv'', hf'.trans hf⟩

variable (task : Lifted.Task) (K : FunctionId → Prop)

/-- The variables and preference names of a state and the objects of the task. -/
def State.scope (s : State) : Scope where
  var v := ∃ entry, s.vars.get? v.index = some entry
  fluent v := ∃ entry, s.vars.get? v.index = some entry ∧ K entry.function
  object o := o.index < task.objects.size
  function := K
  preference i := ∃ name, s.preferenceNames.get? i = some name

variable {task K}

/-- What is in the scope of a state is in that of any later one. -/
theorem State.Grows.scope_le {s s' : State} (h : s.Grows s') :
    (s.scope task K).Le (s'.scope task K) where
  var _ := fun ⟨entry, hentry⟩ =>
    let ⟨entry', hentry', _⟩ := h.vars _ entry hentry
    ⟨entry', hentry'⟩
  fluent _ := fun ⟨entry, hentry, hK⟩ =>
    let ⟨entry', hentry', hf⟩ := h.vars _ entry hentry
    ⟨entry', hentry', hf ▸ hK⟩
  object _ h := h
  function _ h := h
  preference i := fun ⟨name, hname⟩ => ⟨name, h.names i name hname⟩

/-- The variable of a function applied to objects is named in the state in which it has been looked
up or created. -/
theorem variableOf_gives (f : FunctionId) (as : List ObjectId) (s : State) :
    (variableOf task f as).Gives s fun s' v => s'.Names v f as :=
  (variableOf_ensures task f as s).mono fun _ _ h => ⟨h.1.toCreates, h.2⟩

theorem scope_of_names {s : State} {v : VarId} {f : FunctionId} {as : List ObjectId}
    (h : s.Names v f as) : (s.scope task K).var v :=
  let ⟨entry, hentry, _⟩ := h
  ⟨entry, hentry⟩

theorem scope_fluent_of_names {s : State} {v : VarId} {f : FunctionId} {as : List ObjectId}
    (h : s.Names v f as) (hf : K f) : (s.scope task K).fluent v :=
  let ⟨entry, hentry, hfunction, _⟩ := h
  ⟨entry, hentry, hfunction ▸ hf⟩

theorem names_of_find? {s : State} {v : VarId} {f : FunctionId} {as : List ObjectId}
    (h : s.vars.var? f as = some v) : s.Names v f as := by
  obtain ⟨i, hi, rfl⟩ := Option.map_eq_some_iff.mp h
  obtain ⟨entry, hentry, hkey⟩ :=
    Option.map_eq_some_iff.mp ((s.vars.find?_eq_some_iff _ i).mp hi)
  obtain ⟨hf, has⟩ := atomKey_inj.mp hkey
  exact ⟨entry, hentry, hf, has⟩

theorem preferenceIndex_gives (name : String) (s : State) :
    (preferenceIndex name).Gives s fun s' i => s'.preferenceNames.get? i = some name :=
  (preferenceIndex_ensures name s).mono fun _ _ h => ⟨h.1, h.2.2⟩

variable (task K) in
/-- A scoped goal remains scoped, whatever is created. -/
theorem goal_scoped_isStable : IsStable fun s (g : Goal) => g.Scoped (s.scope task K) :=
  fun _ _ _ hcreates hg => hg.mono hcreates.grows.scope_le

variable (task K) in
theorem partialQuantity_scoped_isStable :
    IsStable fun s (q : PartialQuantity) => q.Scoped (s.scope task K) :=
  fun _ _ _ hcreates hq => hq.mono hcreates.grows.scope_le

/-! ## Goals -/

section Goals

variable {arguments : List ObjectId} (hobjects : ∀ o ∈ arguments, o.index < task.objects.size)
  {context : String} {bound : Nat}

include hobjects in
/-- Objects that valid terms denote belong to the task. -/
theorem lt_size_of_partialTerm {term : Lifted.Term} {o : ObjectId}
    (hcheck : task.checkTerm context bound term = .ok ())
    (h : partialTerm arguments term = .object o) :
    o.index < task.objects.size := by
  cases term with
  | object c =>
    cases h
    exact of_decide_eq_true (require_eq_ok.mp hcheck)
  | param i =>
    rw [partialTerm] at h
    split at h
    next c hc =>
      cases h
      exact hobjects o (List.mem_of_getElem? hc)
    · cases h

/-- A literal without open parameters gives a goal over a variable that now exists, and one with
open parameters refers to no variable yet. -/
theorem fluentGoal_gives {literal : Lifted.Literal} {value : Lifted.Term} {equal : Bool}
    (hliteral : K literal.function)
    (hvalue : ∀ o, partialTerm arguments value = .object o → o.index < task.objects.size)
    (s : State) : (fluentGoal task arguments literal value equal).Gives s
      fun s' g => g.Scoped (s'.scope task K) := by
  unfold fluentGoal
  dsimp only
  split
  next objects o _ ho =>
    refine (variableOf_gives _ _ s).bind fun v s' _ hv => Step.gives_pure ?_
    rw [Goal.Scoped]
    exact ⟨scope_of_names hv, scope_fluent_of_names hv hliteral, hvalue o ho⟩
  next =>
    refine Step.gives_pure ?_
    rw [Goal.Scoped]
    exact ⟨hliteral, hvalue⟩

/-- Only a function whose arguments are known refers to a variable. -/
theorem partialQuantity_gives (q : Lifted.Quantity) (s : State) :
    (partialQuantity task arguments q).Gives s fun s' q' => q'.Scoped (s'.scope task K) := by
  cases q with
  | number x => exact Step.gives_pure trivial
  | term t => exact Step.gives_pure trivial
  | fluent l =>
    rw [partialQuantity]
    split
    · exact (variableOf_gives _ _ s).bind fun v s' _ hv => Step.gives_pure (scope_of_names hv)
    · exact Step.gives_pure trivial
  | duration => exact Step.ensures_throw
  | elapsed => exact Step.ensures_throw

variable (hnonnumeric : ∀ f, task.isNumeric f = false → K f)

include hobjects hnonnumeric in
/-- Comparisons give scoped goals, whether they stay comparisons or become literals. -/
theorem compareGoal_gives {comparator : Comparator} {left right : Expression Lifted.Quantity}
    (hleft : task.checkExpression context bound left = .ok ())
    (hright : task.checkExpression context bound right = .ok ()) (s : State) :
    (compareGoal task arguments comparator left right).Gives s
      fun s' g => g.Scoped (s'.scope task K) := by
  have hside := fun e s => Step.gives_mapM_expression (partialQuantity_scoped_isStable task K)
    (f := partialQuantity task arguments) partialQuantity_gives e s
  have hnumeric : Step.Gives (do
      let left ← left.mapM (partialQuantity task arguments)
      let right ← right.mapM (partialQuantity task arguments)
      return Goal.compare comparator [left, right]) s fun s' g => g.Scoped (s'.scope task K) := by
    -- the left side has been scoped before the right one created its variables
    refine (hside left s).bind fun l s₁ _ hl => (hside right s₁).bind fun r s₂ h₂ hr => ?_
    refine Step.gives_pure ?_
    rw [Goal.Scoped]
    intro e he
    rcases List.mem_cons.mp he with rfl | he
    · exact fun q hq => (hl q hq).mono h₂.grows.scope_le
    · rw [List.mem_singleton.mp he]
      exact hr
  -- an equation of a function with a term is a literal, unless the function is numeric
  have hfluent : ∀ (literal : Lifted.Literal) (term : Lifted.Term) (equal : Bool),
      ¬task.isNumeric literal.function = true → task.checkTerm context bound term = .ok () →
        (fluentGoal task arguments literal term equal).Gives s
          fun s' g => g.Scoped (s'.scope task K) := fun literal term equal hf hterm =>
    fluentGoal_gives (hnonnumeric _ (Bool.eq_false_iff.mpr hf))
      (fun o ho => lt_size_of_partialTerm hobjects hterm ho) s
  unfold compareGoal
  dsimp only
  split
  · exact hnumeric
  · split
    · split
      · exact hnumeric
      next hf => exact hfluent _ _ _ hf hright
    · split
      · exact hnumeric
      next hf => exact hfluent _ _ _ hf hleft
    · refine Step.gives_pure ?_
      rw [Goal.Scoped]
      trivial
    · exact hnumeric

mutual

/-- **Grounded goals are scoped.** -/
theorem groundGoal_gives (hobjects : ∀ o ∈ arguments, o.index < task.objects.size)
    (hnonnumeric : ∀ f, task.isNumeric f = false → K f) (hreserved : 2 ≤ task.objects.size) :
    ∀ (g : Lifted.Goal) (bound : Nat) (s : State), task.checkGoal context bound g = .ok () →
      (∀ l ∈ g.literals, K l.function) →
        (groundGoal task arguments g).Gives s fun s' g' => g'.Scoped (s'.scope task K)
  | .literal l, bound, s, hcheck, hliterals => by
    rw [groundGoal]
    refine fluentGoal_gives (hliterals l (by simp [Lifted.Goal.literals])) (fun o ho => ?_) s
    cases ho
    exact hreserved
  | .negLiteral l, bound, s, hcheck, hliterals => by
    rw [groundGoal]
    refine fluentGoal_gives (hliterals l (by simp [Lifted.Goal.literals])) (fun o ho => ?_) s
    cases ho
    exact Nat.lt_of_lt_of_le Nat.zero_lt_two hreserved
  | .and gs, bound, s, hcheck, hliterals | .or gs, bound, s, hcheck, hliterals => by
    rw [groundGoal]
    rw [Lifted.Goal.literals] at hliterals
    refine (groundGoals_gives hobjects hnonnumeric hreserved gs bound s hcheck hliterals).bind
      fun gs' s' _ hgs => Step.gives_pure ?_
    rw [Goal.Scoped]
    exact hgs
  | .not g, bound, s, hcheck, hliterals | .timed _ g, bound, s, hcheck, hliterals => by
    rw [groundGoal]
    rw [Lifted.Goal.literals] at hliterals
    refine (groundGoal_gives hobjects hnonnumeric hreserved g bound s hcheck hliterals).bind
      fun g' s' _ hg => Step.gives_pure ?_
    rw [Goal.Scoped]
    exact hg
  | .existential ps g, bound, s, hcheck, hliterals
  | .universal ps g, bound, s, hcheck, hliterals => by
    rw [groundGoal]
    rw [Lifted.Goal.literals] at hliterals
    rw [Lifted.Task.checkGoal] at hcheck
    refine (groundGoal_gives hobjects hnonnumeric hreserved g _ s
      (check_bind_eq_ok.mp hcheck).2 hliterals).bind fun g' s' _ hg => Step.gives_pure ?_
    rw [Goal.Scoped]
    exact hg
  | .imply g h, bound, s, hcheck, hliterals => by
    rw [groundGoal]
    rw [Lifted.Goal.literals] at hliterals
    rw [Lifted.Task.checkGoal] at hcheck
    obtain ⟨hg, hh⟩ := check_bind_eq_ok.mp hcheck
    refine (groundGoal_gives hobjects hnonnumeric hreserved g bound s hg
      fun l hl => hliterals l (List.mem_append_left _ hl)).bind fun g' s₁ _ hg' => ?_
    refine (groundGoal_gives hobjects hnonnumeric hreserved h bound s₁ hh
      fun l hl => hliterals l (List.mem_append_right _ hl)).bind fun h' s₂ h₂ hh' => ?_
    refine Step.gives_pure ?_
    rw [Goal.Scoped]
    exact ⟨hg'.mono h₂.grows.scope_le, hh'⟩
  | .compare c l r, bound, s, hcheck, hliterals => by
    rw [groundGoal]
    rw [Lifted.Task.checkGoal] at hcheck
    obtain ⟨hl, hr⟩ := check_bind_eq_ok.mp hcheck
    exact compareGoal_gives hobjects hnonnumeric hl hr s
  | .equality _ _, bound, s, hcheck, hliterals | .inequality _ _, bound, s, hcheck, hliterals => by
    rw [groundGoal]
    refine Step.gives_pure ?_
    rw [Goal.Scoped]
    trivial

theorem groundGoals_gives (hobjects : ∀ o ∈ arguments, o.index < task.objects.size)
    (hnonnumeric : ∀ f, task.isNumeric f = false → K f) (hreserved : 2 ≤ task.objects.size) :
    ∀ (gs : List Lifted.Goal) (bound : Nat) (s : State), task.checkGoals context bound gs = .ok () →
      (∀ l ∈ Lifted.Goal.literalsOfList gs, K l.function) →
        (groundGoals task arguments gs).Gives s fun s' gs' => Goal.ScopedAll (s'.scope task K) gs'
  | [], bound, s, _, _ => by
    rw [groundGoals]
    exact Step.gives_pure trivial
  | g :: gs, bound, s, hcheck, hliterals => by
    rw [groundGoals]
    rw [Lifted.Goal.literalsOfList] at hliterals
    rw [Lifted.Task.checkGoals] at hcheck
    obtain ⟨hg, hgs⟩ := check_bind_eq_ok.mp hcheck
    refine (groundGoal_gives hobjects hnonnumeric hreserved g bound s hg
      fun l hl => hliterals l (List.mem_append_left _ hl)).bind fun g' s₁ _ hg' => ?_
    refine (groundGoals_gives hobjects hnonnumeric hreserved gs bound s₁ hgs
      fun l hl => hliterals l (List.mem_append_right _ hl)).bind fun gs' s₂ h₂ hgs' => ?_
    exact Step.gives_pure ⟨hg'.mono h₂.grows.scope_le, hgs'⟩

end

end Goals

end TemporalPlanning.Grounding
