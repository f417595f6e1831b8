import Mathlib.Tactic.Linarith
import TemporalPlanning.Proofs.Exact
import TemporalPlanning.Proofs.FiniteDomain.Frames
import TemporalPlanning.Proofs.FiniteDomain.NumericRuns
/-!
Fixed costs.

The cost of an action counts as fixed if no numeric effect of it reads a variable that the metric
reads. What an effect writes, and how, plays no part, and neither does the form of the metric. The
cost is the same in every state if more is known: the metric is linear, effects on its variables
increase or decrease them by amounts that no action changes, and the duration is determined by the
first bound on it wherever the cost depends on the duration.

The proof compares two executions of the action, one in the initial state and one elsewhere. They
shift the variables of the metric alike, and a linear metric changes by the same amount if its
variables are shifted alike.
-/
set_option autoImplicit false

namespace TemporalPlanning.FiniteDomain

open Relation Expression

/-! ## Linear metrics -/

namespace Task

variable (t : Task)

/-- A leaf of the metric has the same value in every state. -/
def IsConstantLeaf : Measure → Prop
  | .number _ | .isViolated _ => True
  | .totalTime => False
  | .var v => t.IsUnmodified v

/-- All leaves of a metric have the same value in every state. -/
def IsConstant (e : Expression Measure) : Prop := ∀ q ∈ e.atoms, t.IsConstantLeaf q

/-- A metric is linear in what changes. -/
inductive IsLinear : Expression Measure → Prop
  | atom (q : Measure) : IsLinear (.atom q)
  | constant {e : Expression Measure} : t.IsConstant e → IsLinear e
  | sum {es : List (Expression Measure)} : (∀ e ∈ es, IsLinear e) → IsLinear (.node .sum es)
  | difference {es : List (Expression Measure)} : (∀ e ∈ es, IsLinear e) →
      IsLinear (.node .difference es)
  | product {before after : List (Expression Measure)} {e : Expression Measure} : IsLinear e →
      (∀ d ∈ before ++ after, t.IsConstant d) → IsLinear (.node .product (before ++ e :: after))
  | quotient {e : Expression Measure} {divisors : List (Expression Measure)} : IsLinear e →
      (∀ d ∈ divisors, t.IsConstant d) → IsLinear (.node .quotient (e :: divisors))

end Task

/-- Values before and after two changes, which are by the same amount. -/
def ChangeAlike (x y x' y' : Option ℚ) : Prop :=
  ∀ a b a' b', x = some a → y = some b → x' = some a' → y' = some b' → b - a = b' - a'

theorem mapM_cons_eq_some {α β : Type} {f : α → Option β} {a : α} {as : List α} {bs : List β} :
    (a :: as).mapM f = some bs ↔ ∃ b bs', f a = some b ∧ as.mapM f = some bs' ∧ bs = b :: bs' := by
  rw [List.mapM_cons, Option.bind_eq_bind, Option.bind_eq_some_iff]
  simp only [Option.bind_eq_bind, Option.bind_eq_some_iff, Option.pure_def, Option.some.injEq]
  constructor
  · rintro ⟨b, hb, bs', hbs', rfl⟩
    exact ⟨b, bs', hb, hbs', rfl⟩
  · rintro ⟨b, bs', hb, hbs', rfl⟩
    exact ⟨b, hb, bs', hbs', rfl⟩

theorem value?_node_eq_some {f : Measure → Option ℚ} {op : Operation}
    {es : List (Expression Measure)} {x : ℚ} : (node op es).value? f = some x ↔
      ∃ xs, es.mapM (value? f) = some xs ∧ op.value? xs = some x := by
  rw [value?_node, Option.bind_eq_bind, Option.bind_eq_some_iff]

section Linear

-- the values of the leaves before and after two changes
variable {f g f' g' : Measure → Option ℚ}

/-- Sums change alike if their terms do. -/
theorem sum_sub_sum_eq {es : List (Expression Measure)}
    (h : ∀ e ∈ es, ChangeAlike (e.value? f) (e.value? g) (e.value? f') (e.value? g'))
    {xs ys xs' ys' : List ℚ} (hf : es.mapM (value? f) = some xs)
    (hg : es.mapM (value? g) = some ys) (hf' : es.mapM (value? f') = some xs')
    (hg' : es.mapM (value? g') = some ys') : ys.sum - xs.sum = ys'.sum - xs'.sum := by
  induction es generalizing xs ys xs' ys' with
  | nil =>
    cases hf
    cases hg
    cases hf'
    cases hg'
    rfl
  | cons e es ih =>
    obtain ⟨x, xs, hx, hxs, rfl⟩ := mapM_cons_eq_some.mp hf
    obtain ⟨y, ys, hy, hys, rfl⟩ := mapM_cons_eq_some.mp hg
    obtain ⟨x', xs', hx', hxs', rfl⟩ := mapM_cons_eq_some.mp hf'
    obtain ⟨y', ys', hy', hys', rfl⟩ := mapM_cons_eq_some.mp hg'
    obtain ⟨he, hes⟩ := List.forall_mem_cons.mp h
    have hfirst := he x y x' y' hx hy hx' hy'
    have hrest := ih hes hxs hys hxs' hys'
    simp only [List.sum_cons]
    linarith

variable {t : Task}

/-- What is known of a leaf when two states change. -/
structure LeafChangesAlike (t : Task) (f g f' g' : Measure → Option ℚ) (q : Measure) : Prop where
  change : ChangeAlike (f q) (g q) (f' q) (g' q)
  constant : t.IsConstantLeaf q → g q = f q ∧ f' q = f q ∧ g' q = f q

/-- A constant expression has the same value throughout. -/
theorem value?_of_isConstant {e : Expression Measure}
    (h : ∀ q ∈ e.atoms, LeafChangesAlike t f g f' g' q) (he : t.IsConstant e) :
    e.value? g = e.value? f ∧ e.value? f' = e.value? f ∧ e.value? g' = e.value? f :=
  ⟨foldM_congr fun q hq => ((h q hq).constant (he q hq)).1,
    foldM_congr fun q hq => ((h q hq).constant (he q hq)).2.1,
    foldM_congr fun q hq => ((h q hq).constant (he q hq)).2.2⟩

/-- Constant operands have the same values throughout. -/
theorem mapM_value?_of_isConstant {es : List (Expression Measure)}
    (h : ∀ e ∈ es, ∀ q ∈ e.atoms, LeafChangesAlike t f g f' g' q)
    (hes : ∀ e ∈ es, t.IsConstant e) :
    es.mapM (value? g) = es.mapM (value? f) ∧ es.mapM (value? f') = es.mapM (value? f) ∧
      es.mapM (value? g') = es.mapM (value? f) :=
  ⟨mapM_congr fun e he => (value?_of_isConstant (h e he) (hes e he)).1,
    mapM_congr fun e he => (value?_of_isConstant (h e he) (hes e he)).2.1,
    mapM_congr fun e he => (value?_of_isConstant (h e he) (hes e he)).2.2⟩

/-- The values of the operands of a product, all but one of which are constant. -/
theorem product_value?_eq_some {before after : List (Expression Measure)} {e : Expression Measure}
    {x : ℚ} (h : (node .product (before ++ e :: after)).value? f = some x) : ∃ xs z xs',
      before.mapM (value? f) = some xs ∧ e.value? f = some z ∧ after.mapM (value? f) = some xs' ∧
        x = xs.prod * (z * xs'.prod) := by
  obtain ⟨zs, hzs, hx⟩ := value?_node_eq_some.mp h
  rw [List.mapM_append, Option.bind_eq_bind, Option.bind_eq_some_iff] at hzs
  obtain ⟨xs, hxs, hzs⟩ := hzs
  obtain ⟨zs', hzs', hzs⟩ := Option.bind_eq_some_iff.mp hzs
  obtain ⟨z, xs', hz, hxs', rfl⟩ := mapM_cons_eq_some.mp hzs'
  cases hzs
  rw [Operation.value?_product (List.append_ne_nil_of_right_ne_nil xs (List.cons_ne_nil z xs')),
    List.prod_append, List.prod_cons] at hx
  exact ⟨xs, z, xs', hxs, hz, hxs', (Option.some.inj hx).symm⟩

theorem quotient_value?_eq_some {e : Expression Measure} {divisors : List (Expression Measure)}
    {x : ℚ} (h : (node .quotient (e :: divisors)).value? f = some x) : ∃ z xs,
      e.value? f = some z ∧ divisors.mapM (value? f) = some xs ∧ x = z / xs.prod := by
  obtain ⟨zs, hzs, hx⟩ := value?_node_eq_some.mp h
  obtain ⟨z, xs, hz, hxs, rfl⟩ := mapM_cons_eq_some.mp hzs
  exact ⟨z, xs, hz, hxs, Operation.value?_quotient_cons hx⟩

/-- A difference of one operand is its opposite. -/
theorem difference_value?_eq_some {e : Expression Measure} {es : List (Expression Measure)}
    {x : ℚ} (h : (node .difference (e :: es)).value? f = some x) : ∃ z xs,
      e.value? f = some z ∧ es.mapM (value? f) = some xs ∧
        x = if es.isEmpty then -z else z - xs.sum := by
  obtain ⟨zs, hzs, hx⟩ := value?_node_eq_some.mp h
  obtain ⟨z, xs, hz, hxs, rfl⟩ := mapM_cons_eq_some.mp hzs
  have hempty : xs.isEmpty = es.isEmpty := by
    cases es with
    | nil => cases hxs; rfl
    | cons d ds =>
      obtain ⟨y, ys, -, -, rfl⟩ := mapM_cons_eq_some.mp hxs
      rfl
  rw [Operation.value?_difference_cons, hempty] at hx
  exact ⟨z, xs, hz, hxs, (Option.some.inj hx).symm⟩

/-- A linear metric changes alike if its leaves do. -/
theorem Task.IsLinear.changeAlike {e : Expression Measure} (he : t.IsLinear e)
    (h : ∀ q ∈ e.atoms, LeafChangesAlike t f g f' g' q) :
    ChangeAlike (e.value? f) (e.value? g) (e.value? f') (e.value? g') := by
  induction he with
  | atom q => exact (h q (mem_atoms_atom.mpr rfl)).change
  | @constant e hconstant =>
    intro a b a' b' ha hb ha' hb'
    obtain ⟨hg, hf', hg'⟩ := value?_of_isConstant h hconstant
    rw [hg, ha] at hb
    rw [hf', ha] at ha'
    rw [hg', ha] at hb'
    cases hb
    cases ha'
    cases hb'
    rfl
  | @sum es _ ih =>
    have hes : ∀ e ∈ es, ChangeAlike (e.value? f) (e.value? g) (e.value? f') (e.value? g') :=
      fun e he => ih e he fun q hq => h q (mem_atoms_node.mpr ⟨e, he, hq⟩)
    intro a b a' b' ha hb ha' hb'
    obtain ⟨xs, hxs, ha⟩ := value?_node_eq_some.mp ha
    obtain ⟨ys, hys, hb⟩ := value?_node_eq_some.mp hb
    obtain ⟨xs', hxs', ha'⟩ := value?_node_eq_some.mp ha'
    obtain ⟨ys', hys', hb'⟩ := value?_node_eq_some.mp hb'
    rw [Operation.value?_sum] at ha hb ha' hb'
    rw [← Option.some.inj ha, ← Option.some.inj hb, ← Option.some.inj ha', ← Option.some.inj hb']
    exact sum_sub_sum_eq hes hxs hys hxs' hys'
  | @difference es _ ih =>
    have hes : ∀ e ∈ es, ChangeAlike (e.value? f) (e.value? g) (e.value? f') (e.value? g') :=
      fun e he => ih e he fun q hq => h q (mem_atoms_node.mpr ⟨e, he, hq⟩)
    intro a b a' b' ha hb ha' hb'
    cases es with
    | nil =>
      cases ha
      cases hb
      cases ha'
      cases hb'
      rfl
    | cons e es =>
      obtain ⟨he, hes⟩ := List.forall_mem_cons.mp hes
      obtain ⟨x, xs, hx, hxs, rfl⟩ := difference_value?_eq_some ha
      obtain ⟨y, ys, hy, hys, rfl⟩ := difference_value?_eq_some hb
      obtain ⟨x', xs', hx', hxs', rfl⟩ := difference_value?_eq_some ha'
      obtain ⟨y', ys', hy', hys', rfl⟩ := difference_value?_eq_some hb'
      have hfirst := he x y x' y' hx hy hx' hy'
      have hrest := sum_sub_sum_eq hes hxs hys hxs' hys'
      cases es.isEmpty
      · simp only [Bool.false_eq_true, if_false]
        linarith
      · simp only [if_true]
        linarith
  | @product before after e _ hconstant ih =>
    have hall : ∀ d ∈ before ++ e :: after, ∀ q ∈ d.atoms, LeafChangesAlike t f g f' g' q :=
      fun d hd q hq => h q (mem_atoms_node.mpr ⟨d, hd, hq⟩)
    obtain ⟨hg, hf', hg'⟩ := mapM_value?_of_isConstant
      (fun d hd => hall d (List.mem_append_left _ hd))
      (fun d hd => hconstant d (List.mem_append_left _ hd))
    obtain ⟨kg, kf', kg'⟩ := mapM_value?_of_isConstant
      (fun d hd => hall d (List.mem_append_right _ (List.mem_cons_of_mem _ hd)))
      (fun d hd => hconstant d (List.mem_append_right _ hd))
    have he := ih (hall e (List.mem_append_right _ List.mem_cons_self))
    intro a b a' b' ha hb ha' hb'
    obtain ⟨bs, x, cs, hbs, hx, hcs, rfl⟩ := product_value?_eq_some ha
    obtain ⟨_, y, _, h₁, hy, k₁, rfl⟩ := product_value?_eq_some hb
    obtain ⟨_, x', _, h₂, hx', k₂, rfl⟩ := product_value?_eq_some ha'
    obtain ⟨_, y', _, h₃, hy', k₃, rfl⟩ := product_value?_eq_some hb'
    rw [hg, hbs] at h₁
    rw [hf', hbs] at h₂
    rw [hg', hbs] at h₃
    rw [kg, hcs] at k₁
    rw [kf', hcs] at k₂
    rw [kg', hcs] at k₃
    cases h₁
    cases h₂
    cases h₃
    cases k₁
    cases k₂
    cases k₃
    have hchange := he x y x' y' hx hy hx' hy'
    rw [← mul_sub, ← mul_sub, ← sub_mul, ← sub_mul, hchange]
  | @quotient e divisors _ hconstant ih =>
    have hall : ∀ d ∈ e :: divisors, ∀ q ∈ d.atoms, LeafChangesAlike t f g f' g' q :=
      fun d hd q hq => h q (mem_atoms_node.mpr ⟨d, hd, hq⟩)
    obtain ⟨hg, hf', hg'⟩ := mapM_value?_of_isConstant
      (fun d hd => hall d (List.mem_cons_of_mem _ hd)) hconstant
    have he := ih (hall e List.mem_cons_self)
    intro a b a' b' ha hb ha' hb'
    obtain ⟨x, ds, hx, hds, rfl⟩ := quotient_value?_eq_some ha
    obtain ⟨y, _, hy, h₁, rfl⟩ := quotient_value?_eq_some hb
    obtain ⟨x', _, hx', h₂, rfl⟩ := quotient_value?_eq_some ha'
    obtain ⟨y', _, hy', h₃, rfl⟩ := quotient_value?_eq_some hb'
    rw [hg, hds] at h₁
    rw [hf', hds] at h₂
    rw [hg', hds] at h₃
    cases h₁
    cases h₂
    cases h₃
    have hchange := he x y x' y' hx hy hx' hy'
    rw [← sub_div, ← sub_div, hchange]

end Linear

/-! ## Effects -/

/-- Two states agree on the variables that no action modifies. -/
def Task.AgreeOnUnmodified (t : Task) (x x' : Array ℚ) : Prop :=
  ∀ v, t.IsUnmodified v → x'[v]? = x[v]?

/-- Some variables are shifted by the same amounts when two states change. -/
def ShiftsAlike (vars : Nat → Prop) (x y x' y' : Array ℚ) : Prop :=
  ∀ v, vars v → ∃ k, y[v]? = x[v]?.map (· + k) ∧ y'[v]? = x'[v]?.map (· + k)

theorem ShiftsAlike.refl (vars : Nat → Prop) (x x' : Array ℚ) : ShiftsAlike vars x x x' x' := by
  intro v _
  refine ⟨0, ?_, ?_⟩
  · simp only [add_zero, Option.map_id']
  · simp only [add_zero, Option.map_id']

theorem ShiftsAlike.trans {vars : Nat → Prop} {x y z x' y' z' : Array ℚ}
    (h : ShiftsAlike vars x y x' y') (h' : ShiftsAlike vars y z y' z') :
    ShiftsAlike vars x z x' z' := by
  intro v hv
  obtain ⟨k, hy, hy'⟩ := h v hv
  obtain ⟨l, hz, hz'⟩ := h' v hv
  refine ⟨k + l, ?_, ?_⟩
  · rw [hz, hy, Option.map_map]
    simp only [Function.comp_def, add_assoc]
  · rw [hz', hy', Option.map_map]
    simp only [Function.comp_def, add_assoc]

/-- An effect shifts a variable, by an amount that no action changes, and by the same amount for
both durations. -/
structure NumericEffect.ShiftsBy (effect : NumericEffect) (t : Task) (d d' : ℚ) : Prop where
  assignment : effect.assignment = .increase ∨ effect.assignment = .decrease
  unmodified : ∀ v ∈ varsOf effect.expression, t.IsUnmodified v
  duration : readsDuration effect.expression → d = d'

theorem shiftsAlike_applyEffect {t : Task} {vars : Nat → Prop} {d d' : ℚ} {effect : NumericEffect}
    (heffect : vars effect.var → effect.ShiftsBy t d d') {x y x' y' : Array ℚ}
    (hagree : t.AgreeOnUnmodified x x') (hy : applyEffect d x effect = .ok y)
    (hy' : applyEffect d' x' effect = .ok y') : ShiftsAlike vars x y x' y' := by
  obtain ⟨value, hvalue, hget⟩ := getElem?_applyEffect hy
  obtain ⟨value', hvalue', hget'⟩ := getElem?_applyEffect hy'
  intro v hv
  by_cases hvar : effect.var = v
  · obtain ⟨hassignment, hunmodified, hduration⟩ := heffect (hvar ▸ hv)
    have hsame : evaluate x' d' effect.expression = evaluate x d effect.expression :=
      evaluate_congr (fun w hw => hagree w (hunmodified w hw)) fun hreads => (hduration hreads).symm
    rw [hvalue, hvalue'] at hsame
    cases hsame
    rw [hget, hget', if_pos hvar, if_pos hvar]
    rcases hassignment with hincrease | hdecrease
    · rw [hincrease]
      exact ⟨value, rfl, rfl⟩
    · rw [hdecrease]
      refine ⟨-value, ?_, ?_⟩
      · simp only [← sub_eq_add_neg]
        rfl
      · simp only [← sub_eq_add_neg]
        rfl
  · rw [hget, hget', if_neg hvar, if_neg hvar]
    exact ShiftsAlike.refl vars x x' v hv

theorem agreeOnUnmodified_applyEffect {t : Task} {d : ℚ} {effect : NumericEffect} {x y : Array ℚ}
    (hmodify : ∀ v, t.IsUnmodified v → effect.var ≠ v) (hy : applyEffect d x effect = .ok y) :
    t.AgreeOnUnmodified x y := by
  intro v hv
  obtain ⟨_, -, hget⟩ := getElem?_applyEffect hy
  rw [hget, if_neg (hmodify v hv)]

theorem agreeOnUnmodified_foldlM {t : Task} {d : ℚ} {effects : List NumericEffect} {x y : Array ℚ}
    (hmodify : ∀ effect ∈ effects, ∀ v, t.IsUnmodified v → effect.var ≠ v)
    (hy : effects.foldlM (applyEffect d) x = .ok y) : t.AgreeOnUnmodified x y := by
  induction effects generalizing x with
  | nil =>
    cases hy
    exact fun _ _ => rfl
  | cons effect effects ih =>
    obtain ⟨z, hz, hy⟩ := Grounding.except_bind_eq_ok.mp hy
    obtain ⟨hfirst, hrest⟩ := List.forall_mem_cons.mp hmodify
    intro v hv
    rw [ih hrest hy v hv, agreeOnUnmodified_applyEffect hfirst hz v hv]

theorem agreeOnUnmodified_of_reflTransGen {t : Task} {x y : Array ℚ}
    (h : ReflTransGen t.AppliesEffect x y) : t.AgreeOnUnmodified x y := by
  intro v hv
  induction h with
  | refl => rfl
  | tail _ hstep ih => rw [hstep.getElem?_eq hv, ih]

/-- Effects that take place one after the other shift variables alike in two states. -/
theorem shiftsAlike_foldlM {t : Task} {vars : Nat → Prop} {d d' : ℚ} {effects : List NumericEffect}
    (heffects : ∀ effect ∈ effects, vars effect.var → effect.ShiftsBy t d d')
    (hmodify : ∀ effect ∈ effects, ∀ v, t.IsUnmodified v → effect.var ≠ v) {x y x' y' : Array ℚ}
    (hagree : t.AgreeOnUnmodified x x') (hy : effects.foldlM (applyEffect d) x = .ok y)
    (hy' : effects.foldlM (applyEffect d') x' = .ok y') : ShiftsAlike vars x y x' y' := by
  induction effects generalizing x x' with
  | nil =>
    cases hy
    cases hy'
    exact .refl vars _ _
  | cons effect effects ih =>
    obtain ⟨z, hz, hy⟩ := Grounding.except_bind_eq_ok.mp hy
    obtain ⟨z', hz', hy'⟩ := Grounding.except_bind_eq_ok.mp hy'
    obtain ⟨heffect, heffects⟩ := List.forall_mem_cons.mp heffects
    obtain ⟨hfirst, hrest⟩ := List.forall_mem_cons.mp hmodify
    have hagree' : t.AgreeOnUnmodified z z' := by
      intro v hv
      rw [agreeOnUnmodified_applyEffect hfirst hz' v hv, hagree v hv,
        agreeOnUnmodified_applyEffect hfirst hz v hv]
    exact (shiftsAlike_applyEffect heffect hagree hz hz').trans
      (ih heffects hrest hagree' hy hy')

/-! ## Costs -/

/-- The metric reads a variable. -/
def Task.Measures (t : Task) (v : Nat) : Prop := ∃ m ∈ t.metric, measures m.expression v = true

namespace Action

/-- A duration is admissible in a state. -/
def Admits (a : Action) (x : Array ℚ) (duration : ℚ) : Prop :=
  ∀ bound ∈ a.durations, ∃ y, evaluate x duration bound.expression = .ok y ∧
    bound.comparator.holds duration y = true

/-- An action does the same to the variables of the metric in every state. -/
structure ShiftsMetric (a : Action) (t : Task) : Prop where
  assignment : ∀ effect ∈ a.numericEffects, t.Measures effect.var →
    effect.assignment = .increase ∨ effect.assignment = .decrease
  unmodified : ∀ effect ∈ a.numericEffects, t.Measures effect.var →
    ∀ v ∈ varsOf effect.expression, t.IsUnmodified v
  fixedDuration : (∃ effect ∈ a.numericEffects, t.Measures effect.var ∧
    readsDuration effect.expression) → a.cost.hasFixedDuration = true
  duration : (metricReadsTime t = true ∨ ∃ effect ∈ a.numericEffects, t.Measures effect.var ∧
    readsDuration effect.expression) → ∃ bound ∈ a.durations.head?, bound.comparator = .eq ∧
      ¬readsDuration bound.expression

end Action

theorem Dependence.dependsOnState_eq_false {d : Dependence} {a : Action}
    (h : d.hasFixedDuration a = true) {bound : DurationBound} (hbound : bound ∈ a.durations) :
    d.dependsOnState bound.expression = false := by
  rw [hasFixedDuration, Bool.not_eq_true'] at h
  exact Bool.eq_false_iff.mpr (List.any_eq_false.mp h bound hbound)

/-- A fixed duration is determined by the first bound if that is an equation. -/
theorem eq_headD_of_admits {t : Task} {keepStatic : Bool} {metric : Option Metric}
    {x x' : Array ℚ} {a : Action} {cost : Cost ℚ}
    (hcost : cost.Describes (Dependence.ofTask t keepStatic) metric x a)
    (hfixed : cost.hasFixedDuration = true) {bound : DurationBound}
    (hbound : bound ∈ a.durations.head?) (heq : bound.comparator = .eq)
    (hreads : ¬readsDuration bound.expression) (hagree : t.AgreeOnUnmodified x x') {duration : ℚ}
    (hduration : a.Admits x' duration) : duration = cost.durations.headD 0 := by
  obtain ⟨bounds, hbounds⟩ := List.head?_eq_some_iff.mp hbound
  have hmem : bound ∈ a.durations := List.mem_of_mem_head? hbound
  obtain ⟨y, hy, hholds⟩ := hduration bound hmem
  have hvalues := hcost.durations hfixed
  rw [hbounds] at hvalues
  obtain ⟨z, zs, hz, -, hdurations⟩ := List.forall₂_cons_left_iff.mp hvalues
  have hsame : evaluate x' duration bound.expression = evaluate x 0 bound.expression := by
    refine evaluate_congr (fun v hv => ?_) fun hreads' => absurd hreads' hreads
    have hstate := Dependence.dependsOnState_eq_false (hcost.hasFixedDuration ▸ hfixed) hmem
    exact hagree v (Dependence.of_not_dependsOnState hstate hv).2.2
  have hzero : (Arithmetic.ofFloat 0.0 : ℚ) = 0 := exactOf_zero
  rw [hzero] at hz
  rw [hy, hz] at hsame
  rw [heq] at hholds
  have hequal : duration = y := of_decide_eq_true hholds
  rw [hdurations, List.headD_cons, hequal, Except.ok.inj hsame]

/-- The duration is the one that a fixed cost was computed for, if the change of the metric depends
on it. -/
theorem Action.ShiftsMetric.headD_eq {t : Task} {keepStatic : Bool} {metric : Option Metric}
    {x x' : Array ℚ} {a : Action} {cost : Cost ℚ} (h : a.ShiftsMetric t)
    (hcost : cost.Describes (Dependence.ofTask t keepStatic) metric x a)
    (hfixed : cost.isFixed = true) (hflag : a.cost.hasFixedDuration = cost.hasFixedDuration)
    (hagree : t.AgreeOnUnmodified x x') {duration : ℚ} (hduration : a.Admits x' duration)
    (hneeded : metricReadsTime t = true ∨ ∃ effect ∈ a.numericEffects, t.Measures effect.var ∧
      readsDuration effect.expression) : cost.durations.headD 0 = duration := by
  have hdurations : cost.hasFixedDuration = true := by
    rcases hneeded with htime | heffect
    · -- a cost that depends on the makespan is fixed only if the duration is
      have hcosts := hcost.isFixed.symm.trans hfixed
      rw [Dependence.hasFixedCost, Bool.and_eq_true, Bool.or_eq_true] at hcosts
      rw [hcost.hasFixedDuration]
      refine hcosts.1.resolve_right fun hnot => ?_
      rw [Dependence.ofTask, htime] at hnot
      cases hnot
    · rw [← hflag]
      exact h.fixedDuration heffect
  obtain ⟨bound, hbound, heq, hreads⟩ := h.duration hneeded
  exact (eq_headD_of_admits hcost hdurations hbound heq hreads hagree hduration).symm

theorem toOption_numberOf (x : Array ℚ) (v : Nat) : (numberOf x v).toOption = x[v]? := by
  unfold numberOf
  cases x[v]? with
  | none => rfl
  | some y => rfl

theorem value?_of_evaluateMetric {x : Array ℚ} {makespan y : ℚ} {e : Expression Measure}
    (h : evaluateMetric x makespan e = .ok y) :
    e.value? (fun q => (Measure.evaluate x makespan q).toOption) = some y := by
  rw [← toOption_foldM Measure.form]
  exact congrArg Except.toOption h

theorem costIn_eq_ok {m : Metric} {a : Action} {x : Array ℚ} {makespan duration change : ℚ}
    (h : costIn (some m) a x makespan duration = .ok change) : ∃ y before after,
      evaluateMetric x makespan m.expression = .ok before ∧
        a.numericEffects.foldlM (applyEffect duration) x = .ok y ∧
          evaluateMetric y (makespan + duration) m.expression = .ok after ∧
            change = after - before := by
  obtain ⟨before, hbefore, h⟩ := Grounding.except_bind_eq_ok.mp h
  obtain ⟨y, hy, h⟩ := Grounding.except_bind_eq_ok.mp h
  obtain ⟨after, hafter, h⟩ := Grounding.except_bind_eq_ok.mp h
  cases h
  exact ⟨y, before, after, hbefore, hy, hafter, rfl⟩

/-- The leaves of the metric change alike if its variables are shifted alike and the duration is the
same wherever the metric reads the makespan. -/
theorem leafChangesAlike {t : Task} {m : Metric} (hm : m ∈ t.metric) {x y x' y' : Array ℚ}
    (hshift : ShiftsAlike t.Measures x y x' y') (hxx' : t.AgreeOnUnmodified x x')
    (hxy : t.AgreeOnUnmodified x y) (hxy' : t.AgreeOnUnmodified x y')
    (makespan makespan' : ℚ) {duration duration' : ℚ}
    (hduration : metricReadsTime t = true → duration = duration') :
    ∀ q ∈ m.expression.atoms, LeafChangesAlike t
      (fun q => (Measure.evaluate x makespan q).toOption)
      (fun q => (Measure.evaluate y (makespan + duration) q).toOption)
      (fun q => (Measure.evaluate x' makespan' q).toOption)
      (fun q => (Measure.evaluate y' (makespan' + duration') q).toOption) q := by
  intro q hq
  cases q with
  | number n =>
    refine ⟨?_, fun _ => ⟨rfl, rfl, rfl⟩⟩
    rintro _ _ _ _ ⟨⟩ ⟨⟩ ⟨⟩ ⟨⟩
    rfl
  | isViolated i =>
    refine ⟨?_, fun _ => ⟨rfl, rfl, rfl⟩⟩
    rintro _ _ _ _ ⟨⟩ ⟨⟩ ⟨⟩ ⟨⟩
    rfl
  | totalTime =>
    refine ⟨?_, fun hconstant => hconstant.elim⟩
    have htime : metricReadsTime t = true := by
      rw [metricReadsTime, Option.mem_def.mp hm]
      exact List.contains_iff_mem.mpr hq
    rintro _ _ _ _ ⟨⟩ ⟨⟩ ⟨⟩ ⟨⟩
    rw [hduration htime]
    ring
  | var v =>
    have hmeasures : t.Measures v := ⟨m, hm, List.contains_iff_mem.mpr hq⟩
    refine ⟨?_, fun hconstant => ?_⟩
    · obtain ⟨k, hy, hy'⟩ := hshift v hmeasures
      intro a b a' b' ha hb ha' hb'
      have ha : x[v]? = some a := (toOption_numberOf x v).symm.trans ha
      have hb : y[v]? = some b := (toOption_numberOf y v).symm.trans hb
      have ha' : x'[v]? = some a' := (toOption_numberOf x' v).symm.trans ha'
      have hb' : y'[v]? = some b' := (toOption_numberOf y' v).symm.trans hb'
      rw [ha, hb] at hy
      rw [ha', hb'] at hy'
      rw [Option.some.inj hy, Option.some.inj hy']
      ring
    · refine ⟨?_, ?_, ?_⟩
      · exact (toOption_numberOf y v).trans ((hxy v hconstant).trans (toOption_numberOf x v).symm)
      · exact (toOption_numberOf x' v).trans ((hxx' v hconstant).trans (toOption_numberOf x v).symm)
      · exact (toOption_numberOf y' v).trans ((hxy' v hconstant).trans (toOption_numberOf x v).symm)

/-- **A fixed cost is the cost in every state** if the metric is linear and the action shifts its
variables in the same way in every state. -/
theorem costIn_eq_of_isFixed {t T : Task} {keepStatic : Bool}
    (hrun : (computeCosts keepStatic).runOn t = (.ok (), T)) {a : Action} (ha : a ∈ T.actions)
    (hfixed : a.cost.isFixed = true) (hlinear : ∀ m ∈ T.metric, T.IsLinear m.expression)
    (hshifts : a.ShiftsMetric T) {cost : Cost ℚ}
    (hcost : costOf (Dependence.ofTask T keepStatic) T.metric
      (T.numericInitialState.map Arithmetic.ofFloat) a = .ok cost)
    {x : Array ℚ}
    (hx : ReflTransGen T.AppliesEffect (T.numericInitialState.map Arithmetic.ofFloat) x)
    {makespan duration change : ℚ} (hduration : a.Admits x duration)
    (hchange : costIn T.metric a x makespan duration = .ok change) : change = cost.value := by
  generalize hinitial : (T.numericInitialState.map Arithmetic.ofFloat : Array ℚ) = x₀ at hcost hx
  have hflags := computeCosts_describes keepStatic t _ _ hrun a ha
  have hexact := costOf_eq_ok hcost
  have hisFixed : cost.isFixed = true := by
    rw [hexact.isFixed, ← hflags.isFixed]
    exact hfixed
  have hvalue := hexact.value hisFixed
  have hzero : (Arithmetic.ofFloat 0.0 : ℚ) = 0 := exactOf_zero
  rw [hzero] at hvalue
  cases hmetric : T.metric with
  | none =>
    rw [hmetric] at hchange hvalue
    exact Except.ok.inj (hchange.symm.trans hvalue)
  | some m =>
    have hagree := agreeOnUnmodified_of_reflTransGen hx
    have hmodify : ∀ effect ∈ a.numericEffects, ∀ v, T.IsUnmodified v → effect.var ≠ v :=
      fun effect heffect v hv => hv a ha effect heffect
    have hflag : a.cost.hasFixedDuration = cost.hasFixedDuration :=
      hflags.hasFixedDuration.trans hexact.hasFixedDuration.symm
    have hsame := hshifts.headD_eq hexact hisFixed hflag hagree hduration
    have heffects : ∀ effect ∈ a.numericEffects, T.Measures effect.var →
        effect.ShiftsBy T (cost.durations.headD 0) duration := by
      intro effect heffect hmeasures
      exact ⟨hshifts.assignment effect heffect hmeasures,
        hshifts.unmodified effect heffect hmeasures,
        fun hreads => hsame (Or.inr ⟨effect, heffect, hmeasures, hreads⟩)⟩
    rw [hmetric] at hvalue hchange
    obtain ⟨y₀, before₀, after₀, hbefore₀, hy₀, hafter₀, hcost₀⟩ := costIn_eq_ok hvalue
    obtain ⟨y, before, after, hbefore, hy, hafter, hcost⟩ := costIn_eq_ok hchange
    have hshift := shiftsAlike_foldlM heffects hmodify hagree hy₀ hy
    have hagree₀ := agreeOnUnmodified_foldlM hmodify hy₀
    have hagree' : T.AgreeOnUnmodified x₀ y := by
      intro v hv
      rw [agreeOnUnmodified_foldlM hmodify hy v hv, hagree v hv]
    have hleaves := leafChangesAlike hmetric hshift hagree hagree₀ hagree' 0 makespan
      fun htime => hsame (Or.inl htime)
    have halike := (hlinear m hmetric).changeAlike hleaves
    rw [hcost, hcost₀]
    exact (halike before₀ after₀ before after (value?_of_evaluateMetric hbefore₀)
      (value?_of_evaluateMetric hafter₀) (value?_of_evaluateMetric hbefore)
      (value?_of_evaluateMetric hafter)).symm

namespace Accounting

/-- A task with its costs. -/
def computed (t : Task) : Task := ((computeCosts true).runOn t).2

section Computed

variable {t : Task} (h : ((computeCosts true).runOn t).1.toOption = some ())
include h

theorem runOn_eq : (computeCosts true).runOn t = (.ok (), computed t) :=
  Prod.ext (Grounding.eq_ok_of_mem_toOption h) rfl

theorem computed_metric : (computed t).metric = t.metric :=
  have hkeeps : (computeCosts true).Keeps Task.metric :=
    computeCosts_keeps (fun _ => rfl) (fun _ _ => rfl) (fun _ _ _ _ => rfl) true
  hkeeps t _ _ (runOn_eq h)

/-- The action at a position is still there, with a fixed cost if all costs are. -/
theorem exists_action (hfixed : ((computed t).actions.all fun b => b.cost.isFixed) = true) {i : Nat}
    {a : Action} (ha : t.actions[i]? = some a) :
    ∃ b ∈ (computed t).actions, b.cost.isFixed = true ∧ b.durations = a.durations ∧
      b.numericEffects = a.numericEffects ∧ ∀ (d : Dependence) (m : Option Metric) (x : Array ℚ),
        costOf d m x b = costOf d m x a ∧ costIn m b x = costIn m a x := by
  obtain ⟨b, hb, hsame⟩ := exists_sameButCost (runOn_eq h) (Array.mem_of_getElem? ha)
  refine ⟨b, hb, Array.all_eq_true_iff_forall_mem.mp hfixed b hb, ?_⟩
  rw [hsame]
  exact ⟨rfl, rfl, fun d m x => ⟨rfl, rfl⟩⟩

end Computed

/-! ### Driving -/

/-- Driving a distance takes time and fuel. -/
def drive : Action :=
  { Action.empty 0 "drive" false with
    durations := [⟨.unspecified, .eq, .atom (.var 1)⟩]
    endNumericEffects := [⟨.decrease, 0, .atom (.var 1)⟩] }

/-- What counts is the time, and the fuel that has been used. -/
def journey : Task :=
  { Task.empty with
    numericVars := #[⟨0, "fuel", [(0.0, 100.0)]⟩, ⟨1, "distance", [(0.0, 10.0)]⟩]
    actions := #[drive]
    metric := some ⟨.minimize, .node .sum
      [.atom .totalTime, .node .difference [.atom (.number 100.0), .atom (.var 0)]]⟩ }

theorem journey_isLinear : ∀ m ∈ (computed journey).metric,
    (computed journey).IsLinear m.expression := by
  rw [computed_metric (by decide +kernel)]
  rintro m ⟨⟩
  refine .sum fun e he => ?_
  rcases List.mem_cons.mp he with rfl | he
  · exact .atom _
  · rw [List.mem_singleton.mp he]
    refine .difference fun e he => ?_
    rcases List.mem_cons.mp he with rfl | he
    · exact .atom _
    · rw [List.mem_singleton.mp he]
      exact .atom _

theorem distance_isUnmodified : (computed journey).IsUnmodified 1 := by
  have hstatic : (staticVariables (computed journey)).getD 1 false = true := by decide +kernel
  exact ((staticVariables_iff _ 1).mp hstatic).2

theorem shiftsMetric_of_eq {a : Action} (hdurations : a.durations = drive.durations)
    (heffects : a.numericEffects = drive.numericEffects) : a.ShiftsMetric (computed journey) := by
  have heffect : ∀ effect ∈ a.numericEffects, effect = ⟨.decrease, 0, .atom (.var 1)⟩ := by
    rw [heffects]
    exact fun effect heffect => List.mem_singleton.mp heffect
  refine ⟨fun effect hmem _ => ?_, fun effect hmem _ v hv => ?_, ?_, fun _ => ?_⟩
  · rw [heffect effect hmem]
    exact Or.inr rfl
  · rw [heffect effect hmem] at hv
    rw [List.mem_singleton.mp hv]
    exact distance_isUnmodified
  · rintro ⟨effect, hmem, -, hreads⟩
    rw [heffect effect hmem] at hreads
    exact absurd hreads (by decide)
  · rw [hdurations]
    exact ⟨_, rfl, rfl, by decide⟩

/-- The second of two drives costs as much as the first. -/
theorem drive_again : ∃ a ∈ (computed journey).actions, ∃ cost change,
    costOf (Dependence.ofTask (computed journey) true) (computed journey).metric
      ((computed journey).numericInitialState.map Arithmetic.ofFloat : Array ℚ) a = .ok cost ∧
    a.cost.isFixed = true ∧
    costIn (computed journey).metric a (#[90, 10] : Array ℚ) 10 10 = .ok change ∧
    change = cost.value := by
  have hok : ((computeCosts true).runOn journey).1.toOption = some () := by decide +kernel
  obtain ⟨a, ha, hfixed, hdurations, heffects, hsame⟩ :=
    exists_action hok (by decide +kernel) (i := 0) rfl
  have hinitial : ((computed journey).numericInitialState.map Arithmetic.ofFloat : Array ℚ) =
      #[100, 10] := by decide +kernel
  have hcost : costOf (Dependence.ofTask (computed journey) true) (computed journey).metric
      ((computed journey).numericInitialState.map Arithmetic.ofFloat : Array ℚ) a =
        .ok ⟨true, [10], true, 20⟩ := by
    rw [hinitial, (hsame _ _ _).1]
    exact Grounding.eq_ok_of_mem_toOption (by decide +kernel)
  have hchange : costIn (computed journey).metric a (#[90, 10] : Array ℚ) 10 10 = .ok 20 := by
    rw [(hsame (Dependence.ofTask (computed journey) true) _ _).2]
    exact Grounding.eq_ok_of_mem_toOption (by decide +kernel)
  have hfirst : (computed journey).AppliesEffect (#[100, 10] : Array ℚ) #[90, 10] := by
    refine ⟨a, ha, ⟨.decrease, 0, .atom (.var 1)⟩, ?_, 10, ?_⟩
    · rw [heffects]
      exact List.mem_singleton.mpr rfl
    · exact Grounding.eq_ok_of_mem_toOption (by decide +kernel)
  have hadmits : a.Admits (#[90, 10] : Array ℚ) 10 := by
    intro bound hbound
    rw [hdurations] at hbound
    rw [List.mem_singleton.mp hbound]
    exact ⟨10, rfl, by decide⟩
  refine ⟨a, ha, _, 20, hcost, hfixed, hchange, ?_⟩
  refine costIn_eq_of_isFixed (runOn_eq hok) ha hfixed journey_isLinear
    (shiftsMetric_of_eq hdurations heffects) hcost ?_ hadmits hchange
  rw [hinitial]
  exact ReflTransGen.single hfirst

/-! ### Working -/

/-- Working adds as much to the total as the rate says. -/
def work : Action :=
  { Action.empty 0 "work" false with endNumericEffects := [⟨.increase, 0, .atom (.var 1)⟩] }

/-- The rate grows. -/
def grow : Action :=
  { Action.empty 1 "grow" false with endNumericEffects := [⟨.increase, 1, .atom (.number 1.0)⟩] }

/-- What counts is the total. -/
def labour : Task :=
  { Task.empty with
    numericVars := #[⟨0, "total", []⟩, ⟨1, "rate", [(0.0, 1.0)]⟩]
    actions := #[work, grow]
    metric := some ⟨.minimize, .atom (.var 0)⟩ }

/-- Working has a fixed cost, although it costs more once the rate has grown. -/
theorem exists_changed_cost : ∃ a ∈ (computed labour).actions, ∃ cost x change,
    (computeCosts true).runOn labour = (.ok (), computed labour) ∧ a.cost.isFixed = true ∧
    costOf (Dependence.ofTask (computed labour) true) (computed labour).metric
      ((computed labour).numericInitialState.map Arithmetic.ofFloat : Array ℚ) a = .ok cost ∧
    ReflTransGen (computed labour).AppliesEffect
      ((computed labour).numericInitialState.map Arithmetic.ofFloat : Array ℚ) x ∧
    a.Admits x 0 ∧ costIn (computed labour).metric a x 0 0 = .ok change ∧ change ≠ cost.value := by
  have hok : ((computeCosts true).runOn labour).1.toOption = some () := by decide +kernel
  have hfixed : ((computed labour).actions.all fun b => b.cost.isFixed) = true := by
    decide +kernel
  obtain ⟨a, ha, hcostFixed, hdurations, -, hsame⟩ := exists_action hok hfixed (i := 0) rfl
  obtain ⟨b, hb, -, -, heffects, -⟩ := exists_action hok hfixed (i := 1) rfl
  have hinitial : ((computed labour).numericInitialState.map Arithmetic.ofFloat : Array ℚ) =
      #[0, 1] := by decide +kernel
  have hgrow : (computed labour).AppliesEffect (#[0, 1] : Array ℚ) #[0, 2] := by
    refine ⟨b, hb, ⟨.increase, 1, .atom (.number 1.0)⟩, ?_, 0, ?_⟩
    · rw [heffects]
      exact List.mem_singleton.mpr rfl
    · exact Grounding.eq_ok_of_mem_toOption (by decide +kernel)
  have hadmits : a.Admits (#[0, 2] : Array ℚ) 0 := by
    intro bound hbound
    rw [hdurations] at hbound
    exact absurd hbound List.not_mem_nil
  refine ⟨a, ha, ⟨true, [], true, 1⟩, #[0, 2], 2, runOn_eq hok, hcostFixed, ?_, ?_, hadmits, ?_,
    by decide⟩
  · rw [hinitial, (hsame _ _ _).1]
    exact Grounding.eq_ok_of_mem_toOption (by decide +kernel)
  · rw [hinitial]
    exact ReflTransGen.single hgrow
  · rw [(hsame (Dependence.ofTask (computed labour) true) _ _).2]
    exact Grounding.eq_ok_of_mem_toOption (by decide +kernel)

end Accounting

end TemporalPlanning.FiniteDomain
