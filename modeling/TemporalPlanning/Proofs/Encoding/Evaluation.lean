import TemporalPlanning.Encoding.Construct
import TemporalPlanning.Lifted.Basic
import TemporalPlanning.Proofs.Outcome
/-!
Evaluation of an expression and of its encoding.

An expression that does not read the state can be evaluated before it is encoded: for a known
duration its value, or that a divisor is zero, is the same as after it in any state. Any other
expression reads a numeric variable. Parts of an expression that do not even need the duration can
be replaced by their values, before and after encoding.
-/
set_option autoImplicit false

namespace TemporalPlanning

/-! ## Atoms -/

namespace Expression

variable {α β : Type}

/-- The atoms of an expression whose atoms have been replaced are the replacements, in the same
order. -/
theorem forall₂_atoms_of_mapM {ε : Type} {f : α → Except ε β} {e : Expression α}
    {e' : Expression β} (h : e.mapM f = .ok e') :
    List.Forall₂ (fun a b => f a = .ok b) e.atoms e'.atoms := by
  induction e using operandsInduction generalizing e' with
  | atom a =>
    rw [mapM_atom, map_eq_pure_bind, Grounding.except_bind_eq_ok] at h
    obtain ⟨b, hb, h⟩ := h
    cases h
    exact .cons hb .nil
  | node op es ih =>
    rw [mapM_node, Grounding.except_bind_eq_ok] at h
    obtain ⟨es', hes, h⟩ := h
    cases h
    have hoperands := ((List.forall₂_and_left _ _).mpr
      ⟨ih, Grounding.except_mapM_eq_ok hes⟩).imp fun e e' ⟨ih, he⟩ => ih he
    rw [atoms, atoms, fold_node, fold_node]
    exact List.rel_flatten
      (List.forall₂_map_left_iff.mpr (List.forall₂_map_right_iff.mpr hoperands))

end Expression

/-! ## Parts with known values -/

namespace Grounded

/-- An expression with a value has no leaf without one. -/
theorem ne_none_of_evaluate {duration : Option Float} {e : Expression Quantity} {x : Float}
    (h : evaluate duration e = .ok (some x)) : ∀ q ∈ e.atoms, q.value? duration ≠ none := by
  refine Expression.foldM_induction
    (R := fun e _ => ∀ q ∈ e.atoms, q.value? duration ≠ none) (fun q x hq => ?_)
    (fun op es xs x hes _ => ?_) h
  · refine Expression.forall_mem_atoms_atom.mpr fun hnone => ?_
    rw [OptionT.run_mk, hnone] at hq
    cases hq
  · intro q hq
    obtain ⟨e, he, hq⟩ := Expression.mem_atoms_node.mp hq
    obtain ⟨x, -, hall⟩ := Grounding.exists_of_forall₂_left hes he
    exact hall q hq

/-- One part of an expression whose value is known without the duration is replaced by it. -/
inductive FoldsTo : Expression Quantity → Expression Quantity → Prop where
  | known {e : Expression Quantity} {x : Float} (h : evaluate none e = .ok (some x)) :
      FoldsTo e (.atom (.number x))
  | operand (op : Operation) (before after : List (Expression Quantity))
      {e r : Expression Quantity} (h : FoldsTo e r) :
      FoldsTo (.node op (before ++ e :: after)) (.node op (before ++ r :: after))

/-- A leaf that is known without the duration keeps its value. -/
theorem precedes_value? (duration : Option Float) (q : Quantity) :
    Expression.Precedes (.ok (q.value? none)) (.ok (q.value? duration)) := by
  cases q with
  | number => exact Or.inr rfl
  | duration | elapsed | var | object => exact Or.inl rfl

end Grounded

namespace Encoding

open FiniteDomain Expression

variable {enc : Encoder} {e r : Expression Grounded.Quantity} {e' : Expression Quantity}

/-- The outcome of a leaf in a state. -/
def leafOutcome (state : Array Float) (duration : Float) (q : Quantity) :
    Except Error (Option Float) :=
  some <$> withoutText (q.evaluate state duration)

/-- A leaf that is known without the state keeps its value. -/
theorem precedes_quantity (state : Array Float) (duration : Float) {q : Grounded.Quantity}
    {q' : Quantity} (h : enc.quantity q = .ok q') :
    Precedes (.ok (q.value? (some duration))) (leafOutcome state duration q') := by
  cases q with
  | var v => exact Or.inl rfl
  | object o => cases h
  | number | duration | elapsed =>
    cases h
    exact Or.inr rfl

/-- A leaf that is unknown reads a numeric variable. -/
theorem exists_var_of_quantity {duration : Float} {q : Grounded.Quantity} {q' : Quantity}
    (h : enc.quantity q = .ok q') (hq : q.value? (some duration) = none) : ∃ n, q' = .var n := by
  cases q with
  | var v =>
    obtain ⟨n, -, h⟩ := Grounding.except_bind_eq_ok.mp ((map_eq_pure_bind _ _).symm.trans h)
    cases h
    exact ⟨n, rfl⟩
  | object o => cases h
  | number | duration | elapsed => cases hq

/-- A leaf that is known without the duration does not read a numeric variable. -/
theorem ne_var_of_quantity {q : Grounded.Quantity} {q' : Quantity} (h : enc.quantity q = .ok q')
    (hq : q.value? none ≠ none) (n : Nat) : q' ≠ .var n := by
  cases q with
  | number x =>
    cases h
    exact fun h => by cases h
  | var | object | duration | elapsed => exact absurd rfl hq

/-! ## Evaluation before and after -/

variable (state : Array Float) (duration : Float)

/-- The outcome without a state is the one in any state, unless it is unknown. -/
theorem precedes_expression (h : enc.expression e = .ok e') :
    Precedes (e.outcome fun q => .ok (q.value? (some duration)))
      (e'.outcome (leafOutcome state duration)) :=
  precedes_outcome_of_mapM (fun _ _ => precedes_quantity state duration) h

/-- An expression without a value reads a numeric variable. -/
theorem varsOf_ne_nil_of_evaluate (h : enc.expression e = .ok e')
    (hnone : Grounded.evaluate (some duration) e = .ok none) : varsOf e' ≠ [] := by
  have hcombine : ∀ op es (xs : List Float),
      (OptionT.lift (combine Grounded.Quantity.form op es xs)).run ≠ Except.ok none := by
    intro op es xs
    cases combine Grounded.Quantity.form op es xs <;> exact fun h => by cases h
  obtain ⟨q, hq, hunknown⟩ := exists_atom_of_foldM_eq_none hcombine hnone
  obtain ⟨q', hq', hencoded⟩ := Grounding.exists_of_forall₂_left (forall₂_atoms_of_mapM h) hq
  obtain ⟨n, rfl⟩ := exists_var_of_quantity hencoded (Except.ok.inj hunknown)
  exact List.ne_nil_of_mem (List.mem_filterMap.mpr ⟨_, hq', rfl⟩)

/-- An expression with a value for an unknown duration reads no numeric variable. -/
theorem varsOf_eq_nil_of_evaluate {x : Float} (h : enc.expression e = .ok e')
    (hx : Grounded.evaluate none e = .ok (some x)) : varsOf e' = [] := by
  refine List.filterMap_eq_nil_iff.mpr fun q' hq' => ?_
  obtain ⟨q, hq, hencoded⟩ := Grounding.exists_of_forall₂ (forall₂_atoms_of_mapM h) hq'
  have hne := ne_var_of_quantity hencoded (Grounded.ne_none_of_evaluate hx q hq)
  cases q' with
  | var n => exact absurd rfl (hne n)
  | number | duration | elapsed => rfl

theorem varsOf_node (op : Operation) (es : List (Expression Quantity)) :
    varsOf (node op es) = es.flatMap varsOf := by
  rw [varsOf, atoms, fold_node, List.filterMap_flatten, List.map_map]
  rfl

/-- Before and after encoding, a replacement of a part by its value keeps the outcome and the
variables that are read. -/
structure KeepsResults (e r : Expression Grounded.Quantity) (e' r' : Expression Quantity) :
    Prop where
  before : r.outcome (fun q => .ok (q.value? (some duration))) =
    e.outcome fun q => .ok (q.value? (some duration))
  after : r'.outcome (leafOutcome state duration) = e'.outcome (leafOutcome state duration)
  vars : varsOf r' = varsOf e'

theorem exists_keepsResults_of_foldsTo (hr : Grounded.FoldsTo e r) (h : enc.expression e = .ok e') :
    ∃ r', enc.expression r = .ok r' ∧ KeepsResults state duration e r e' r' := by
  induction hr generalizing e' with
  | @known e x hx =>
    have hnone : e.outcome (fun q => .ok (q.value? none)) = .ok (some x) := by
      rw [← Grounded.withoutText_evaluate, hx]
      rfl
    have hbefore : e.outcome (fun q => .ok (q.value? (some duration))) = .ok (some x) :=
      ((precedes_outcome (Grounded.precedes_value? (some duration)) e).eq_of_ne
        (by rw [hnone]; exact fun h => by cases h)).trans hnone
    have hafter : e'.outcome (leafOutcome state duration) = .ok (some x) :=
      ((precedes_expression state duration h).eq_of_ne
        (by rw [hbefore]; exact fun h => by cases h)).trans hbefore
    exact ⟨.atom (.number x), rfl, hbefore.symm, hafter.symm,
      (varsOf_eq_nil_of_evaluate h hx).symm⟩
  | @operand op before after e r _ ih =>
    rw [Encoder.expression, mapM_node, List.mapM_append, List.mapM_cons] at h
    obtain ⟨es', hes, h⟩ := Grounding.except_bind_eq_ok.mp h
    cases h
    obtain ⟨before', hbefore, hes⟩ := Grounding.except_bind_eq_ok.mp hes
    obtain ⟨rest', hrest, hes⟩ := Grounding.except_bind_eq_ok.mp hes
    cases hes
    obtain ⟨e', he, hrest⟩ := Grounding.except_bind_eq_ok.mp hrest
    obtain ⟨after', hafter, hrest⟩ := Grounding.except_bind_eq_ok.mp hrest
    cases hrest
    obtain ⟨r', hr', hkeeps⟩ := ih he
    refine ⟨.node op (before' ++ r' :: after'), ?_, ?_, ?_, ?_⟩
    · rw [Encoder.expression, mapM_node, List.mapM_append, List.mapM_cons, hbefore, hafter,
        show r.mapM enc.quantity = .ok r' from hr']
      rfl
    · rw [outcome_node, outcome_node, List.map_append, List.map_append, List.map_cons,
        List.map_cons, hkeeps.before]
    · rw [outcome_node, outcome_node, List.map_append, List.map_append, List.map_cons,
        List.map_cons, hkeeps.after]
    · rw [varsOf_node, varsOf_node, List.flatMap_append, List.flatMap_append, List.flatMap_cons,
        List.flatMap_cons, hkeeps.vars]

/-- Evaluation before encoding and evaluation after it agree. A value, or a division by zero, that
is found without the state is found in every state, and an expression without a value reads a
numeric variable. Replacing a part whose value is known without the duration by this value changes
nothing of this. -/
theorem evaluate_agrees (h : enc.expression e = .ok e') :
    (∀ x, Grounded.evaluate (some duration) e = .ok (some x) →
      evaluate state duration e' = .ok x) ∧
    (∀ text, Grounded.evaluate (some duration) e = .error (.divisionByZero text) →
      ∃ text', evaluate state duration e' = .error (.divisionByZero text')) ∧
    (Grounded.evaluate (some duration) e = .ok none → varsOf e' ≠ []) ∧
    ∀ r, Grounded.FoldsTo e r → ∃ r', enc.expression r = .ok r' ∧
      withoutText (Grounded.evaluate (some duration) r) =
        withoutText (Grounded.evaluate (some duration) e) ∧
      withoutText (evaluate state duration r') = withoutText (evaluate state duration e') ∧
      varsOf r' = varsOf e' := by
  have hprecedes := precedes_expression state duration h
  rw [← Grounded.withoutText_evaluate] at hprecedes
  have hafter : ∀ e', some <$> withoutText (evaluate state duration e') =
      e'.outcome (leafOutcome state duration) := withoutText_evaluate state duration
  refine ⟨fun x hx => ?_, fun text htext => ?_, varsOf_ne_nil_of_evaluate duration h,
    fun r hr => ?_⟩
  · rw [hx] at hprecedes
    have hsame := (hafter e').trans (hprecedes.eq_of_ne fun h => by cases h)
    exact withoutText_eq_ok_iff.mp (map_some_injective hsame)
  · rw [htext] at hprecedes
    have hsame := (hafter e').trans (hprecedes.eq_of_ne fun h => by cases h)
    exact withoutText_eq_error_iff.mp (map_some_injective hsame)
  · obtain ⟨r', hr', hkeeps⟩ := exists_keepsResults_of_foldsTo state duration hr h
    refine ⟨r', hr', ?_, map_some_injective ?_, hkeeps.vars⟩
    · rw [Grounded.withoutText_evaluate, Grounded.withoutText_evaluate, hkeeps.before]
    · rw [hafter, hafter, hkeeps.after]

/-! ## A tank -/

/-- The encoder of a task whose only variable is the level of a tank. -/
def tank : Encoder where
  grounded :=
    { task := { Lifted.Task.ofPropositions [] [] with
        functions := #[⟨"level", [], [TypeId.number]⟩] }
      vars := #[⟨⟨0⟩, ⟨0⟩, [], true, [], []⟩]
      actions := []
      goals := []
      preferenceNames := []
      constraints := []
      metric := none
      stats := ⟨[], 0, 0⟩ }
  isProposition := #[false]
  placement := { Placement.empty 1 with numeric := #[some 0] }

/-- What flows out, given the rate and what is left. -/
def outflow (rate : Expression Grounded.Quantity) (left : Grounded.Quantity) :
    Expression Grounded.Quantity :=
  .node .sum [.node .quotient [.atom .duration, rate], .atom left]

/-- A rate that does not depend on anything. -/
def rate (x : Float) : Expression Grounded.Quantity :=
  .node .difference [.node .product [.atom (.number 2.0), .atom (.number 3.0)], .atom (.number x)]

/-- A known outflow is the same in every state, an impossible one is impossible in every state, also
when the rate is replaced by its value, and one that depends on the level reads it. -/
theorem outflow_agrees :
    (∃ e', tank.expression (outflow (rate 4.0) (.number 1.0)) = .ok e' ∧
      evaluate #[] 10.0 e' = .ok 6.0) ∧
    (∃ e' r' text, tank.expression (outflow (rate 6.0) (.var ⟨0⟩)) = .ok e' ∧
      evaluate #[7.0] 10.0 e' = .error (.divisionByZero text) ∧
      tank.expression (outflow (.atom (.number 0.0)) (.var ⟨0⟩)) = .ok r' ∧
      withoutText (evaluate #[7.0] 10.0 r') = withoutText (evaluate #[7.0] 10.0 e')) ∧
    ∃ e', tank.expression (outflow (rate 4.0) (.var ⟨0⟩)) = .ok e' ∧ varsOf e' ≠ [] := by
  refine ⟨?_, ?_, ?_⟩
  · have hencoded : tank.expression (outflow (rate 4.0) (.number 1.0)) = .ok _ := rfl
    exact ⟨_, hencoded, (evaluate_agrees #[] 10.0 hencoded).1 6.0
      (Grounding.eq_ok_of_mem_toOption (by decide +kernel))⟩
  · have hencoded : tank.expression (outflow (rate 6.0) (.var ⟨0⟩)) = .ok _ := rfl
    obtain ⟨-, herror, -, hfolds⟩ := evaluate_agrees #[7.0] 10.0 hencoded
    obtain ⟨text, htext⟩ := herror
      "Div([Duration, Sub([Mul([Number(2.0), Number(3.0)]), Number(6.0)])])" (by decide +kernel)
    obtain ⟨r', hr', -, hsame, -⟩ := hfolds (outflow (.atom (.number 0.0)) (.var ⟨0⟩))
      (.operand _ [] _ (.operand _ [.atom .duration] []
        (.known (Grounding.eq_ok_of_mem_toOption (by decide +kernel)))))
    exact ⟨_, r', text, hencoded, htext, hr', hsame⟩
  · have hencoded : tank.expression (outflow (rate 4.0) (.var ⟨0⟩)) = .ok _ := rfl
    exact ⟨_, hencoded, (evaluate_agrees #[] 10.0 hencoded).2.2.1
      (Grounding.eq_ok_of_mem_toOption (by decide +kernel))⟩

end Encoding

end TemporalPlanning
