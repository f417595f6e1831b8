import Mathlib.Data.List.Forall2
import TemporalPlanning.Proofs.Grounding.Closure
/-!
Matching finds exactly the instances that a value triggers.

Bindings stand for the argument lists that extend them (`Agrees`), and each stage of matching
narrows this set down by exactly one requirement: a term denotes an object, a condition reads as a
value, all conditions read as allowed values. Objects are bound only if the types of the parameter
admit them (`Fits`), so the completions of bindings are the admissible argument lists among those
that extend them. `mem_instancesOf` puts the stages together.
-/
set_option autoImplicit false

namespace TemporalPlanning.Grounding

open Lifted

/-! ## Bindings and the argument lists they stand for -/

/-- An argument list extends bindings. -/
def Agrees (b : Bindings) (as : List ObjectId) : Prop :=
  List.Forall₂ (fun bound a => ∀ o, bound = some o → o = a) b as

/-- Bound objects are admitted by the types of their parameters. -/
def Fits (setting : Setting) (ps : List Parameter) (b : Bindings) : Prop :=
  List.Forall₂ (fun p bound => ∀ o, bound = some o → setting.admits p.types o = true) ps b

/-- The parameters of a term are among some parameters. -/
def IsTermOf (ps : List Parameter) : Term → Prop
  | .param i => i < ps.length
  | .object _ => True

/-- The parameters of a condition are among some parameters. -/
def IsFluentOf (ps : List Parameter) (c : Fluent) : Prop :=
  (∀ t ∈ c.literal.arguments, IsTermOf ps t) ∧ IsTermOf ps c.value

/-- A parameter is an argument or the value of a condition. -/
def Mentions (c : Fluent) (i : Nat) : Prop := .param i ∈ c.literal.arguments ∨ c.value = .param i

/-- The object of a parameter is admitted by its types. -/
def AdmitsAt (setting : Setting) (ps : List Parameter) (as : List ObjectId) (i : Nat) : Prop :=
  ∀ p o, ps[i]? = some p → as[i]? = some o → setting.admits p.types o = true

section Bindings

variable {b : Bindings} {as : List ObjectId} {i : Nat} {o : ObjectId}

/-- What is bound is what the extension has at this place. -/
theorem Agrees.getElem? (h : Agrees b as) (hi : b[i]? = some (some o)) : as[i]? = some o := by
  induction h generalizing i with
  | nil => cases hi
  | cons hhead _ ih =>
    cases i with
    | zero => exact congrArg some (hhead o (Option.some.inj hi)).symm
    | succ i => exact ih hi

/-- Binding a parameter fixes one place of the extensions. -/
theorem agrees_set (hi : b[i]? = some none) :
    Agrees (b.set i (some o)) as ↔ Agrees b as ∧ as[i]? = some o := by
  induction b generalizing as i with
  | nil => cases hi
  | cons bound b ih =>
    cases as with
    | nil =>
      refine ⟨fun h => ?_, fun h => (by cases h.1)⟩
      cases i <;> cases h
    | cons a as =>
      cases i with
      | zero =>
        cases hi
        simp only [List.set_cons_zero, Agrees, List.forall₂_cons, List.getElem?_cons_zero,
          Option.some.injEq, forall_eq', reduceCtorEq, false_implies, implies_true, true_and]
        rw [and_comm, eq_comm]
      | succ i =>
        have htail : Agrees (b.set i (some o)) as ↔ Agrees b as ∧ as[i]? = some o := ih hi
        simp only [Agrees] at htail
        simp only [List.set_cons_succ, Agrees, List.forall₂_cons, List.getElem?_cons_succ, htail,
          and_assoc]

variable {setting : Setting} {ps : List Parameter} {p : Parameter}

/-- Binding an admitted object keeps the bindings fitting. -/
theorem Fits.set (h : Fits setting ps b) (hp : ps[i]? = some p)
    (ho : setting.admits p.types o = true) : Fits setting ps (b.set i (some o)) := by
  induction h generalizing i with
  | nil => cases hp
  | cons hhead htail ih =>
    cases i with
    | zero =>
      cases hp
      refine List.Forall₂.cons (fun o' ho' => ?_) htail
      cases ho'
      exact ho
    | succ i => exact List.Forall₂.cons hhead (ih hp)

end Bindings

/-! ## Terms and conditions -/

section Binding

variable {setting : Setting} {ps : List Parameter} {b b' : Bindings} {as : List ObjectId}
  {t : Term} {o : ObjectId}

/-- What the types of a parameter admit. -/
theorem admits_of_getElem? {i : Nat} {p : Parameter}
    (has : List.Forall₂ (fun p o => setting.admits p.types o = true) ps as)
    (hp : ps[i]? = some p) (ho : as[i]? = some o) : setting.admits p.types o = true := by
  induction has generalizing i with
  | nil => cases hp
  | cons hhead _ ih =>
    cases i with
    | zero =>
      cases hp
      cases ho
      exact hhead
    | succ i => exact ih hp ho

theorem admitsAt_of_forall₂
    (has : List.Forall₂ (fun p o => setting.admits p.types o = true) ps as) (i : Nat) :
    AdmitsAt setting ps as i := fun _ _ hp ho => admits_of_getElem? has hp ho

theorem denote_param {i : Nat} (has : ps.length = as.length) (hi : i < ps.length) :
    denote as (.param i) = o ↔ as[i]? = some o := by
  rw [denote, List.getElem?_eq_getElem (has ▸ hi), Option.getD_some, Option.some.injEq]

/-- **Binding a term** leaves the extensions in which it denotes the object. Of these, only the
object of the parameter that the term is has to be admitted. -/
theorem bindTerm_agrees (hb : Fits setting ps b) (hlen : ps.length = as.length)
    (has : ∀ i, t = .param i → AdmitsAt setting ps as i) (ht : IsTermOf ps t) :
    (∃ b', bindTerm setting ps b (t, o) = some b' ∧ Agrees b' as) ↔
      Agrees b as ∧ denote as t = o := by
  cases t with
  | object c =>
    rw [bindTerm, denote]
    by_cases hc : c = o
    · simp [hc]
    · simp [hc]
  | param i =>
    have hi : i < ps.length := ht
    have hib : i < b.length := hb.length_eq ▸ hi
    rw [denote_param hlen hi, bindTerm, List.getElem?_eq_getElem hi]
    cases hbound : b[i]? with
    | none => exact absurd (List.getElem?_eq_none_iff.mp hbound) (Nat.not_le_of_lt hib)
    | some bound =>
      cases bound with
      | some c =>
        -- the parameter is bound already, to the object or to another one
        dsimp only
        by_cases hc : c = o
        · rw [if_pos hc]
          subst hc
          constructor
          · rintro ⟨b', hb', hagrees⟩
            cases hb'
            exact ⟨hagrees, hagrees.getElem? hbound⟩
          · exact fun h => ⟨b, rfl, h.1⟩
        · rw [if_neg hc]
          refine ⟨fun ⟨_, h, _⟩ => (by cases h), fun ⟨hagrees, hval⟩ => ?_⟩
          rw [hagrees.getElem? hbound] at hval
          exact absurd (Option.some.inj hval) hc
      | none =>
        -- the parameter becomes bound, unless its types do not admit the object
        dsimp only
        by_cases ho : setting.admits ps[i].types o = true
        · rw [if_pos ho, ← agrees_set hbound]
          constructor
          · rintro ⟨b', hb', hagrees⟩
            cases hb'
            exact hagrees
          · exact fun h => ⟨_, rfl, h⟩
        · rw [if_neg ho]
          refine ⟨fun ⟨_, h, _⟩ => (by cases h), fun ⟨_, hval⟩ => ?_⟩
          exact absurd (has i rfl _ _ (List.getElem?_eq_getElem hi) hval) ho

theorem Fits.bindTerm (hb : Fits setting ps b)
    (h : Grounding.bindTerm setting ps b (t, o) = some b') : Fits setting ps b' := by
  cases t with
  | object c =>
    rw [Grounding.bindTerm] at h
    split at h
    · cases h
      exact hb
    · cases h
  | param i =>
    rw [Grounding.bindTerm] at h
    -- a parameter that is bound already, one that is not yet, or none at all
    split at h
    · split at h
      · cases h
        exact hb
      · cases h
    next p _ hp =>
      split at h
      next ho =>
        cases h
        exact hb.set hp ho
      · cases h
    · cases h

/-- Binding several terms leaves the extensions in which each denotes its object. -/
theorem foldlM_bindTerm_agrees {l : List (Term × ObjectId)} (hb : Fits setting ps b)
    (hlen : ps.length = as.length)
    (has : ∀ x ∈ l, ∀ i, x.1 = .param i → AdmitsAt setting ps as i)
    (hl : ∀ x ∈ l, IsTermOf ps x.1) :
    (∃ b', l.foldlM (bindTerm setting ps) b = some b' ∧ Agrees b' as) ↔
      Agrees b as ∧ ∀ x ∈ l, denote as x.1 = x.2 := by
  induction l generalizing b with
  | nil => simp
  | cons x l ih =>
    obtain ⟨hx, hl⟩ := List.forall_mem_cons.mp hl
    obtain ⟨hadmits, has⟩ := List.forall_mem_cons.mp has
    rw [List.forall_mem_cons, ← and_assoc, ← bindTerm_agrees hb hlen hadmits hx, List.foldlM_cons]
    constructor
    · rintro ⟨b', hb', hagrees⟩
      obtain ⟨c, hc, hrest⟩ := Option.bind_eq_some_iff.mp hb'
      have h := (ih (hb.bindTerm hc) has hl).mp ⟨b', hrest, hagrees⟩
      exact ⟨⟨c, hc, h.1⟩, h.2⟩
    · rintro ⟨⟨c, hc, hagrees⟩, hall⟩
      obtain ⟨b', hrest, hagrees'⟩ := (ih (hb.bindTerm hc) has hl).mpr ⟨hagrees, hall⟩
      exact ⟨b', Option.bind_eq_some_iff.mpr ⟨c, hc, hrest⟩, hagrees'⟩

theorem Fits.foldlM_bindTerm {l : List (Term × ObjectId)} (hb : Fits setting ps b)
    (h : l.foldlM (Grounding.bindTerm setting ps) b = some b') : Fits setting ps b' := by
  induction l generalizing b with
  | nil =>
    cases h
    exact hb
  | cons x l ih =>
    rw [List.foldlM_cons] at h
    obtain ⟨c, hc, hrest⟩ := Option.bind_eq_some_iff.mp h
    exact ih (hb.bindTerm hc) hrest

/-- Terms denote objects, place by place, if and only if their list denotes the objects' list. -/
theorem forall_zip_denote {ts : List Term} {os : List ObjectId} (h : ts.length = os.length) :
    (∀ x ∈ ts.zip os, denote as x.1 = x.2) ↔ ts.map (denote as) = os := by
  induction ts generalizing os with
  | nil =>
    cases os with
    | nil => simp
    | cons o os => cases h
  | cons t ts ih =>
    cases os with
    | nil => cases h
    | cons o os =>
      rw [List.zip_cons_cons, List.forall_mem_cons, List.map_cons, List.cons.injEq,
        ih (Nat.succ.inj h)]

/-- A condition reads as a value of its function if its terms denote the value's objects. -/
theorem instanceOf_eq_iff {c : Fluent} {v : ReachedValue} (hf : c.literal.function = v.function) :
    instanceOf as c = v ↔
      c.literal.arguments.map (denote as) = v.arguments ∧ denote as c.value = v.value := by
  cases v
  cases hf
  simp only [instanceOf, ReachedValue.mk.injEq, true_and]

/-- The terms of a condition are its arguments and its value. -/
theorem mem_zip_append {c : Fluent} {v : ReachedValue} {x : Term × ObjectId}
    (h : x ∈ c.literal.arguments.zip v.arguments ++ [(c.value, v.value)]) :
    x.1 ∈ c.literal.arguments ∨ x.1 = c.value := by
  rcases List.mem_append.mp h with h | h
  · exact Or.inl (List.of_mem_zip h).1
  · rw [List.mem_singleton.mp h]
    exact Or.inr rfl

/-- **Binding a condition** leaves the extensions in which its terms denote the objects of the
value. Only the objects of its parameters have to be admitted. -/
theorem bindFluent_agrees_of_admitsAt {c : Fluent} {v : ReachedValue} (hb : Fits setting ps b)
    (hlen : ps.length = as.length) (has : ∀ i, Mentions c i → AdmitsAt setting ps as i)
    (hc : IsFluentOf ps c) :
    (∃ b', bindFluent setting ps c v b = some b' ∧ Agrees b' as) ↔
      Agrees b as ∧ c.literal.arguments.map (denote as) = v.arguments ∧
        denote as c.value = v.value := by
  rw [bindFluent]
  by_cases hargs : c.literal.arguments.length = v.arguments.length
  · rw [if_pos hargs, foldlM_bindTerm_agrees hb hlen, List.forall_mem_append,
      forall_zip_denote hargs, List.forall_mem_singleton]
    · intro x hx i hi
      rcases mem_zip_append hx with hmem | heq
      · exact has i (Or.inl (hi ▸ hmem))
      · exact has i (Or.inr (heq.symm.trans hi))
    · intro x hx
      rcases mem_zip_append hx with hmem | heq
      · exact hc.1 _ hmem
      · rw [heq]
        exact hc.2
  · -- the value has another number of arguments, so the condition never reads as it
    rw [if_neg hargs]
    refine ⟨fun ⟨_, h, _⟩ => (by cases h), fun ⟨_, h, _⟩ => absurd ?_ hargs⟩
    rw [← h, List.length_map]

/-- Among the admissible extensions, binding a condition leaves those in which it reads as the
value. -/
theorem bindFluent_agrees {c : Fluent} {v : ReachedValue} (hb : Fits setting ps b)
    (has : List.Forall₂ (fun p o => setting.admits p.types o = true) ps as)
    (hc : IsFluentOf ps c) (hf : c.literal.function = v.function) :
    (∃ b', bindFluent setting ps c v b = some b' ∧ Agrees b' as) ↔
      Agrees b as ∧ instanceOf as c = v := by
  rw [instanceOf_eq_iff hf]
  exact bindFluent_agrees_of_admitsAt hb has.length_eq (fun i _ => admitsAt_of_forall₂ has i) hc

theorem Fits.bindFluent {c : Fluent} {v : ReachedValue} (hb : Fits setting ps b)
    (h : Grounding.bindFluent setting ps c v b = some b') : Fits setting ps b' := by
  rw [Grounding.bindFluent] at h
  split at h
  · exact hb.foldlM_bindTerm h
  · cases h

/-- **Completing a match** leaves the extensions in which every condition reads as one of its
values. -/
theorem extensions_agrees {l : List (Fluent × List ReachedValue)} (hb : Fits setting ps b)
    (has : List.Forall₂ (fun p o => setting.admits p.types o = true) ps as)
    (hl : ∀ x ∈ l, IsFluentOf ps x.1 ∧ ∀ v ∈ x.2, v.function = x.1.literal.function) :
    (∃ b' ∈ extensions setting ps l b, Agrees b' as) ↔
      Agrees b as ∧ ∀ x ∈ l, instanceOf as x.1 ∈ x.2 := by
  induction l generalizing b with
  | nil => simp [extensions]
  | cons x l ih =>
    obtain ⟨c, vs⟩ := x
    obtain ⟨⟨hx, hfun⟩, hrest⟩ := List.forall_mem_cons.mp hl
    rw [List.forall_mem_cons]
    simp only [extensions, List.mem_flatMap, List.mem_filterMap]
    constructor
    · rintro ⟨b', ⟨d, ⟨v, hv, hd⟩, hb'⟩, hagrees⟩
      obtain ⟨hagrees', hall⟩ := (ih (hb.bindFluent hd) hrest).mp ⟨b', hb', hagrees⟩
      obtain ⟨hagrees'', hval⟩ :=
        (bindFluent_agrees hb has hx (hfun v hv).symm).mp ⟨d, hd, hagrees'⟩
      exact ⟨hagrees'', hval ▸ hv, hall⟩
    · rintro ⟨hagrees, hval, hall⟩
      obtain ⟨d, hd, hagrees'⟩ := (bindFluent_agrees hb has hx rfl).mpr ⟨hagrees, rfl⟩
      obtain ⟨b', hb', hagrees''⟩ := (ih (hb.bindFluent hd) hrest).mpr ⟨hagrees', hall⟩
      exact ⟨b', ⟨d, ⟨_, hval, hd⟩, hb'⟩, hagrees''⟩

theorem Fits.extensions {l : List (Fluent × List ReachedValue)} (hb : Fits setting ps b)
    (h : b' ∈ Grounding.extensions setting ps l b) : Fits setting ps b' := by
  induction l generalizing b with
  | nil =>
    rw [List.mem_singleton.mp h]
    exact hb
  | cons x l ih =>
    obtain ⟨c, vs⟩ := x
    simp only [Grounding.extensions, List.mem_flatMap, List.mem_filterMap] at h
    obtain ⟨d, ⟨v, -, hd⟩, hb'⟩ := h
    exact ih (hb.bindFluent hd) hb'

end Binding

/-! ## Completions -/

section Completions

variable {setting : Setting} {ps : List Parameter} {b : Bindings} {as : List ObjectId}

/-- Objects that are admitted are listed. -/
theorem mem_objectsOf {types : List TypeId} {o : ObjectId} :
    o ∈ setting.objectsOf types ↔ setting.admits types o = true := by
  rw [Setting.objectsOf, Task.objectsOf, List.mem_filter, ← Setting.admits.eq_1]
  refine and_iff_right_of_imp fun h => ?_
  rw [List.mem_map]
  refine ⟨o.index, List.mem_range.mpr ?_, rfl⟩
  -- an object outside of the table has no types
  by_contra hout
  have hnone : setting.task.objects[o.index]? = none :=
    Array.getElem?_eq_none (Nat.le_of_not_lt hout)
  rw [Setting.admits, Task.typesOf, hnone] at h
  simp [Hierarchy.compatible] at h

/-- **Completions** are the admissible extensions. -/
theorem mem_completions (hb : Fits setting ps b) :
    as ∈ completions b (ps.map fun p => setting.objectsOf p.types) ↔
      Agrees b as ∧ List.Forall₂ (fun p o => setting.admits p.types o = true) ps as := by
  induction hb generalizing as with
  | nil =>
    rw [List.map_nil, completions, List.mem_singleton]
    · constructor
      · rintro rfl
        exact ⟨List.Forall₂.nil, List.Forall₂.nil⟩
      · rintro ⟨h, -⟩
        cases h
        rfl
    -- the other equations of `completions` are about lists that are not empty
    · intro _ _ _ _ h
      cases h
    · intro _ _ _ h
      cases h
  | @cons p bound ps b hhead _ ih =>
    rw [List.map_cons]
    cases bound with
    | some o =>
      -- a bound parameter keeps its object, and an unbound one ranges over its candidates
      rw [completions, List.mem_map]
      constructor
      · rintro ⟨rest, hrest, rfl⟩
        obtain ⟨hagrees, hadmits⟩ := ih.mp hrest
        exact ⟨List.Forall₂.cons (fun _ h => (Option.some.inj h).symm) hagrees,
          List.Forall₂.cons (hhead o rfl) hadmits⟩
      · rintro ⟨hagrees, hadmits⟩
        cases hagrees with
        | cons hbound hagrees =>
          cases hadmits with
          | cons _ hadmits => exact ⟨_, ih.mpr ⟨hagrees, hadmits⟩, by rw [hbound o rfl]⟩
    | none =>
      rw [completions]
      simp only [List.mem_flatMap, List.mem_map, mem_objectsOf]
      constructor
      · rintro ⟨o, ho, rest, hrest, rfl⟩
        obtain ⟨hagrees, hadmits⟩ := ih.mp hrest
        exact ⟨List.Forall₂.cons (fun _ h => (by cases h)) hagrees, List.Forall₂.cons ho hadmits⟩
      · rintro ⟨hagrees, hadmits⟩
        cases hagrees with
        | cons _ hagrees =>
          cases hadmits with
          | cons ho hadmits => exact ⟨_, ho, _, ih.mpr ⟨hagrees, hadmits⟩, rfl⟩

theorem fits_unbound : Fits setting ps (ps.map fun _ => none) := by
  induction ps with
  | nil => exact List.Forall₂.nil
  | cons p ps ih => exact List.Forall₂.cons (fun _ h => (by cases h)) ih

/-- Nothing is required of the extensions if nothing is bound. -/
theorem agrees_unbound (h : ps.length = as.length) : Agrees (ps.map fun _ => none) as := by
  induction ps generalizing as with
  | nil =>
    cases List.length_eq_zero_iff.mp h.symm
    exact List.Forall₂.nil
  | cons p ps ih =>
    cases as with
    | nil => cases h
    | cons a as => exact List.Forall₂.cons (fun _ h => (by cases h)) (ih (Nat.succ.inj h))

end Completions

/-! ## Instances -/

variable {setting : Setting} {index : Nat} {op : Operator} {as : List ObjectId}

/-- The instances of an operator that has nothing to match are all admissible ones. -/
theorem mem_completions_unbound :
    as ∈ completions (Schema.ofOperator setting index op).unbound
        (Schema.ofOperator setting index op).candidates ↔
      Instance.IsAdmissible setting op as := by
  refine (mem_completions fits_unbound).trans (and_iff_right_of_imp fun h => ?_)
  exact agrees_unbound h.length_eq

theorem mem_toComplete {trigger : Nat} {allowed : List ReachedValue} {c : Fluent}
    {vs : List ReachedValue} :
    (c, vs) ∈ toComplete (Schema.ofOperator setting index op) trigger allowed ↔
      ∃ j : Nat, (Instance.preconditions op)[j]? = some c ∧ j ≠ trigger ∧ isNegated c = false ∧
        vs = allowed.filter fun v => v.function == c.literal.function := by
  simp only [toComplete, List.mem_map, List.mem_filter, List.mem_zipIdx_iff_getElem?, Prod.exists,
    Bool.and_eq_true, bne_iff_ne, Bool.not_eq_true', Prod.mk.injEq]
  constructor
  · rintro ⟨d, j, ⟨hd, hj, hneg⟩, rfl, rfl⟩
    exact ⟨j, hd, hj, hneg, rfl⟩
  · rintro ⟨j, hd, hj, hneg, rfl⟩
    exact ⟨c, j, ⟨hd, hj, hneg⟩, rfl, rfl⟩

/-- The conditions that are left to complete are met by the values that are allowed for them, if all
others that do not require falsity are met by allowed values. -/
theorem forall_toComplete_iff {trigger : Nat} {allowed : List ReachedValue} :
    (∀ x ∈ toComplete (Schema.ofOperator setting index op) trigger allowed,
        instanceOf as x.1 ∈ x.2) ↔
      ∀ (j : Nat) (d : Fluent), (Instance.preconditions op)[j]? = some d → j ≠ trigger →
        isNegated d = false → instanceOf as d ∈ allowed := by
  constructor
  · intro h j d hd hj hneg
    exact (List.mem_filter.mp (h (d, _) (mem_toComplete.mpr ⟨j, hd, hj, hneg, rfl⟩))).1
  · rintro h ⟨d, vs⟩ hx
    obtain ⟨j, hd, hj, hneg, rfl⟩ := mem_toComplete.mp hx
    exact List.mem_filter.mpr ⟨h j d hd hj hneg, beq_iff_eq.mpr rfl⟩

theorem isFluentOf_of_mem_toComplete
    (hop : ∀ c ∈ Instance.preconditions op, IsFluentOf op.parameters c) {trigger : Nat}
    {allowed : List ReachedValue} {x : Fluent × List ReachedValue}
    (hx : x ∈ toComplete (Schema.ofOperator setting index op) trigger allowed) :
    IsFluentOf op.parameters x.1 ∧ ∀ v ∈ x.2, v.function = x.1.literal.function := by
  obtain ⟨d, vs⟩ := x
  obtain ⟨j, hd, -, -, rfl⟩ := mem_toComplete.mp hx
  exact ⟨hop d (List.mem_of_getElem? hd), fun v hv => beq_iff_eq.mp (List.mem_filter.mp hv).2⟩

/-- **A value triggers** exactly the admissible instances of which it satisfies one condition while
allowed values satisfy all others that do not require falsity. -/
theorem mem_instancesOf (hop : ∀ c ∈ Instance.preconditions op, IsFluentOf op.parameters c)
    {value : ReachedValue} {allowed : List ReachedValue} :
    as ∈ instancesOf setting (Schema.ofOperator setting index op) value allowed ↔
      Instance.IsAdmissible setting op as ∧ ∃ (i : Nat) (c : Fluent),
        (Instance.preconditions op)[i]? = some c ∧ instanceOf as c = value ∧
        ∀ (j : Nat) (d : Fluent),
          (Instance.preconditions op)[j]? = some d → j ≠ i → isNegated d = false →
            instanceOf as d ∈ allowed := by
  have hfluent : ∀ {j : Nat} {d : Fluent}, (Instance.preconditions op)[j]? = some d →
      IsFluentOf op.parameters d := fun hd => hop _ (List.mem_of_getElem? hd)
  have hcomplete : ∀ i, ∀ x ∈ toComplete (Schema.ofOperator setting index op) i allowed,
      IsFluentOf op.parameters x.1 ∧ ∀ v ∈ x.2, v.function = x.1.literal.function :=
    fun i x hx => isFluentOf_of_mem_toComplete hop hx
  have hunbound : Fits setting op.parameters (Schema.ofOperator setting index op).unbound :=
    fits_unbound
  rw [instancesOf, List.mem_flatMap]
  -- bind the triggering condition, then the other ones, then the parameters that are left
  constructor
  · rintro ⟨⟨c, i⟩, hc, hmem⟩
    rw [List.mem_zipIdx_iff_getElem?] at hc
    dsimp only at hmem
    split at hmem
    next hf =>
      split at hmem
      · cases hmem
      next b hb =>
        have hfits := hunbound.bindFluent hb
        obtain ⟨b', hb', hmem⟩ := List.mem_flatMap.mp hmem
        obtain ⟨hagrees', hadmits⟩ := (mem_completions (hfits.extensions hb')).mp hmem
        obtain ⟨hagrees, hall⟩ :=
          (extensions_agrees hfits hadmits (hcomplete i)).mp ⟨b', hb', hagrees'⟩
        obtain ⟨-, hval⟩ :=
          (bindFluent_agrees hunbound hadmits (hfluent hc) hf).mp ⟨b, hb, hagrees⟩
        exact ⟨hadmits, i, c, hc, hval, forall_toComplete_iff.mp hall⟩
    · cases hmem
  · rintro ⟨hadmits, i, c, hc, hval, hall⟩
    refine ⟨(c, i), List.mem_zipIdx_iff_getElem?.mpr hc, ?_⟩
    have hf : c.literal.function = value.function := by
      rw [← hval]
      rfl
    have hagrees := agrees_unbound hadmits.length_eq
    obtain ⟨b, hb, hagrees⟩ :=
      (bindFluent_agrees hunbound hadmits (hfluent hc) hf).mpr ⟨hagrees, hval⟩
    have hfits := hunbound.bindFluent hb
    obtain ⟨b', hb', hagrees'⟩ :=
      (extensions_agrees hfits hadmits (hcomplete i)).mpr
        ⟨hagrees, forall_toComplete_iff.mpr hall⟩
    dsimp only [Schema.ofOperator] at hb ⊢
    rw [if_pos hf, hb]
    exact List.mem_flatMap.mpr
      ⟨b', hb', (mem_completions (hfits.extensions hb')).mpr ⟨hagrees', hadmits⟩⟩

end TemporalPlanning.Grounding
