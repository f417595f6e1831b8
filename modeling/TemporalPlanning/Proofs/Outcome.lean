import TemporalPlanning.Proofs.Expression
/-!
Outcomes of evaluation.

Operands are evaluated from the left, and evaluation stops at the first one that is unknown or an
error. The outcome of an expression says which of these happens, with the value if there is one,
but not with the expression that the text of an error shows. So it is determined by the outcomes of
the leaves: expressions whose operands have the same outcomes have the same outcome, and a leaf that
becomes known can only change an outcome that was unknown.

Every way to evaluate an expression is a fold, and a fold carries over along any map between kinds
of computations that respects `pure` and `bind` (`map_foldM`). This is how evaluation with and
without a state is compared with `Expression.outcome`.
-/
set_option autoImplicit false

namespace TemporalPlanning

/-! ## Errors without their texts -/

/-- The error, without the expression that it shows. -/
def Error.withoutText : Error → Error
  | .divisionByZero _ => .divisionByZero ""
  | e => e

/-- A result in which an error does not show an expression. -/
def withoutText {α : Type} (x : Except Error α) : Except Error α := x.mapError Error.withoutText

section WithoutText

variable {α : Type} {x y : Except Error α}

theorem withoutText_eq_ok_iff {a : α} : withoutText x = .ok a ↔ x = .ok a := by
  cases x with
  | error e => exact ⟨fun h => (by cases h), fun h => (by cases h)⟩
  | ok b => exact Iff.rfl

theorem withoutText_eq_error_iff :
    withoutText x = .error (.divisionByZero "") ↔ ∃ text, x = .error (.divisionByZero text) := by
  constructor
  · intro h
    cases x with
    | ok a => cases h
    | error e =>
      cases e with
      | divisionByZero text => exact ⟨text, rfl⟩
      | _ => cases h
  · rintro ⟨text, rfl⟩
    rfl

/-- Results that are known to be known are told apart by their values only. -/
theorem map_some_injective (h : some <$> x = some <$> y) : x = y := by
  cases x <;> cases y <;> cases h <;> rfl

end WithoutText

/-! ## Outcomes -/

/-- The value of an operation, an error if a divisor is zero. -/
def Operation.outcome {ν : Type} [Arithmetic ν] (op : Operation) (values : List ν) :
    Except Error ν :=
  match op.value? values with
  | some value => .ok value
  | none => .error (.divisionByZero "")

namespace Expression

variable {α β ν : Type}

/-- Folding carries over along a map between two kinds of computations. -/
theorem map_foldM {m n : Type → Type} [Monad m] [LawfulMonad m] [Monad n] [LawfulMonad n]
    (φ : ∀ {γ : Type}, m γ → n γ) (hpure : ∀ {γ : Type} (c : γ), φ (pure c : m γ) = pure c)
    (hbind : ∀ {γ δ : Type} (x : m γ) (f : γ → m δ), φ (x >>= f) = φ x >>= fun c => φ (f c))
    (leaf : α → m ν) (combine : Operation → List (Expression α) → List ν → m ν)
    (e : Expression α) :
    φ (e.foldM leaf combine) =
      e.foldM (fun a => φ (leaf a)) fun op es vs => φ (combine op es vs) := by
  have hmapM : ∀ {f : Expression α → m ν} {g : Expression α → n ν} {es : List (Expression α)},
      (∀ e ∈ es, φ (f e) = g e) → φ (es.mapM f) = es.mapM g := by
    intro f g es hes
    induction es with
    | nil => exact hpure []
    | cons e es ih =>
      obtain ⟨he, hes⟩ := List.forall_mem_cons.mp hes
      simp only [List.mapM_cons, hbind, hpure, he, ih hes]
  induction e using operandsInduction with
  | atom a => rfl
  | node op es ih => rw [foldM_node, foldM_node, hbind, hmapM ih]

variable [Arithmetic ν]

/-- The outcome of an expression, given those of its leaves. -/
def outcome (leaf : α → Except Error (Option ν)) (e : Expression α) : Except Error (Option ν) :=
  OptionT.run <| e.foldM (fun a => OptionT.mk (leaf a)) fun op _ values =>
    OptionT.lift (op.outcome values)

theorem withoutText_combine (form : α → String) (op : Operation) (es : List (Expression α))
    (values : List ν) : withoutText (combine form op es values) = op.outcome values := by
  unfold combine Operation.outcome
  cases op.value? values <;> rfl

variable {leaf : α → Except Error (Option ν)} {leaf' : β → Except Error (Option ν)}

/-- The outcome of an operation depends on the outcomes of its operands alone. -/
theorem outcome_node (op : Operation) (es : List (Expression α)) :
    (node op es).outcome leaf = OptionT.run ((es.map (outcome leaf)).mapM OptionT.mk >>=
      fun values => OptionT.lift (op.outcome values)) := by
  rw [outcome, foldM_node, List.mapM_map]
  rfl

/-! ## Outcomes that become known -/

/-- An outcome that was unknown may become any other. -/
def Precedes (x y : Except Error (Option ν)) : Prop := x = .ok none ∨ x = y

omit [Arithmetic ν] in
theorem Precedes.eq_of_ne {x y : Except Error (Option ν)} (h : Precedes x y) (hx : x ≠ .ok none) :
    y = x :=
  (h.resolve_left hx).symm

omit [Arithmetic ν] in
theorem precedes_bind {γ δ : Type} {x y : OptionT (Except Error) γ}
    {f g : γ → OptionT (Except Error) δ} (hxy : Precedes x.run y.run)
    (hfg : ∀ c, Precedes (f c).run (g c).run) : Precedes (x >>= f).run (y >>= g).run := by
  rcases hxy with hx | hx
  · exact Or.inl (residue_bind_eq_none.mpr (Or.inl hx))
  · obtain rfl : x = y := hx
    rcases hrun : x.run with error | (- | c)
    · refine Or.inr ?_
      rw [OptionT.run_bind, OptionT.run_bind, hrun]
      rfl
    · exact Or.inl (residue_bind_eq_none.mpr (Or.inl hrun))
    · have hhead : ∀ h : γ → OptionT (Except Error) δ, (x >>= h).run = (h c).run := fun h => by
        rw [OptionT.run_bind, hrun]
        rfl
      rw [hhead, hhead]
      exact hfg c

/-- If operands become known, the operation may. -/
theorem precedes_outcome_node (op : Operation) {es : List (Expression α)}
    {es' : List (Expression β)}
    (h : List.Forall₂ (fun e e' => Precedes (e.outcome leaf) (e'.outcome leaf')) es es') :
    Precedes ((node op es).outcome leaf) ((node op es').outcome leaf') := by
  rw [outcome_node, outcome_node]
  refine precedes_bind ?_ fun values => Or.inr rfl
  induction h with
  | nil => exact Or.inr rfl
  | cons hhead _ ih =>
    simp only [List.map_cons, List.mapM_cons]
    exact precedes_bind hhead fun v => precedes_bind ih fun vs => Or.inr rfl

/-- If leaves become known, an expression may. -/
theorem precedes_outcome {leaf leaf' : α → Except Error (Option ν)}
    (hleaf : ∀ a, Precedes (leaf a) (leaf' a)) (e : Expression α) :
    Precedes (e.outcome leaf) (e.outcome leaf') := by
  induction e using operandsInduction with
  | atom a => exact hleaf a
  | node op es ih => exact precedes_outcome_node op (List.forall₂_same.mpr ih)

/-- The same of an expression whose leaves are replaced. -/
theorem precedes_outcome_of_mapM {ε : Type} {f : α → Except ε β}
    (hleaf : ∀ a b, f a = .ok b → Precedes (leaf a) (leaf' b)) {e : Expression α}
    {e' : Expression β} (h : e.mapM f = .ok e') :
    Precedes (e.outcome leaf) (e'.outcome leaf') := by
  induction e using operandsInduction generalizing e' with
  | atom a =>
    rw [mapM_atom, map_eq_pure_bind, Grounding.except_bind_eq_ok] at h
    obtain ⟨b, hb, h⟩ := h
    cases h
    exact hleaf a b hb
  | node op es ih =>
    rw [mapM_node, Grounding.except_bind_eq_ok] at h
    obtain ⟨es', hes, h⟩ := h
    cases h
    exact precedes_outcome_node op (((List.forall₂_and_left _ _).mpr
      ⟨ih, Grounding.except_mapM_eq_ok hes⟩).imp fun e e' ⟨ih, he⟩ => ih he)

end Expression

/-! ## Evaluation -/

open Expression

/-- Evaluation without a state has the outcome for leaves that read a state being unknown. -/
theorem Grounded.withoutText_evaluate (duration : Option Float)
    (e : Expression Grounded.Quantity) :
    withoutText (Grounded.evaluate duration e) = e.outcome fun q => .ok (q.value? duration) := by
  have h := map_foldM (m := OptionT (Except Error)) (n := OptionT (Except Error))
    (fun x => OptionT.mk (withoutText x.run)) (fun _ => rfl)
    (fun x f => by
      rcases x with (error | - | c) <;> rfl)
    (fun q : Grounded.Quantity => OptionT.mk (pure (q.value? duration)))
    (fun op operands values => OptionT.lift (combine Grounded.Quantity.form op operands values)) e
  have hcombine : (fun op operands values =>
        OptionT.mk (withoutText (OptionT.lift (m := Except Error)
          (combine Grounded.Quantity.form op operands values)).run)) =
      fun op _ (values : List Float) => OptionT.lift (op.outcome values) := by
    funext op operands values
    rw [← withoutText_combine Grounded.Quantity.form op operands values]
    cases combine Grounded.Quantity.form op operands values <;> rfl
  refine (congrArg OptionT.run h).trans ?_
  rw [hcombine]
  rfl

/-- Evaluation in a state has the outcome for leaves that are known. -/
theorem FiniteDomain.withoutText_evaluate (state : Array Float) (duration : Float)
    (e : Expression FiniteDomain.Quantity) :
    some <$> withoutText (FiniteDomain.evaluate state duration e) =
      e.outcome fun q => some <$> withoutText (q.evaluate state duration) := by
  have h := map_foldM (m := Except Error) (n := OptionT (Except Error))
    (fun x => OptionT.mk (some <$> withoutText x)) (fun _ => rfl)
    (fun x f => by cases x <;> rfl)
    (FiniteDomain.Quantity.evaluate state duration) (combine FiniteDomain.Quantity.form) e
  have hcombine : (fun op operands values =>
        OptionT.mk (some <$> withoutText (combine FiniteDomain.Quantity.form op operands values))) =
      fun op _ (values : List Float) => OptionT.lift (op.outcome values) := by
    funext op operands values
    rw [withoutText_combine]
    rfl
  refine (congrArg OptionT.run h).trans ?_
  rw [hcombine]
  rfl

end TemporalPlanning
