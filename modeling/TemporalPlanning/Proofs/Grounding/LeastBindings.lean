import TemporalPlanning.Proofs.Grounding.Guarded.Matching
import TemporalPlanning.Proofs.Grounding.Levels
import TemporalPlanning.Proofs.Subtypes
/-!
Matching binds as little as possible.

A condition is matched with a value under bindings that earlier conditions may have made, and the
bindings that come out are what later conditions have to agree with. So it matters that nothing is
rejected that could still become an instance, and that nothing is bound that the condition does not
mention. Binding a term extends the bindings by the parameter that the term is, if it is one and not
bound yet (`bindTerm_binds`), and this adds up over the terms of a condition. The other half is that
the extensions of the result are those in which the condition reads as the value
(`bindFluent_agrees_of_admitsAt`).

Objects stand for parameters whose types they have, in the sense that one of their types derives
from one of the types of the parameter. Parameters that the condition does not mention may stand for
any objects.
-/
set_option autoImplicit false

namespace TemporalPlanning.Grounding

open Lifted

/-! ## Extending bindings -/

/-- A parameter is bound. -/
def Binds (b : Bindings) (i : Nat) : Prop := ∃ o, b[i]? = some (some o)

/-- Bindings extend others: what is bound stays bound to the same object. -/
def Extends (b b' : Bindings) : Prop :=
  b.length = b'.length ∧ ∀ (i : Nat) o, b[i]? = some (some o) → b'[i]? = some (some o)

theorem Extends.refl (b : Bindings) : Extends b b := ⟨rfl, fun _ _ h => h⟩

theorem Extends.trans {b b' b'' : Bindings} (h : Extends b b') (h' : Extends b' b'') :
    Extends b b'' :=
  ⟨h.1.trans h'.1, fun i o hi => h'.2 i o (h.2 i o hi)⟩

section Set

variable {b : Bindings} {i j : Nat} {o : ObjectId}

/-- Binding a parameter that is not bound loses nothing. -/
theorem extends_set (hi : b[i]? = some none) : Extends b (b.set i (some o)) := by
  refine ⟨List.length_set.symm, fun j o' hj => ?_⟩
  have hne : i ≠ j := by
    rintro rfl
    rw [hi] at hj
    cases hj
  rw [List.getElem?_set_ne hne]
  exact hj

theorem binds_set (hi : b[i]? = some none) : Binds (b.set i (some o)) j ↔ Binds b j ∨ i = j := by
  have hlt : i < b.length := (List.getElem?_eq_some_iff.mp hi).1
  by_cases hij : i = j
  · subst hij
    exact iff_of_true ⟨o, List.getElem?_set_self hlt⟩ (Or.inr rfl)
  · rw [Binds, Binds, List.getElem?_set_ne hij]
    simp [hij]

end Set

/-! ## What is bound -/

section Binding

variable {setting : Setting} {ps : List Parameter} {b b' : Bindings}

/-- **Binding a term** binds the parameter that it is, and nothing else. -/
theorem bindTerm_binds {t : Term} {o : ObjectId} (h : bindTerm setting ps b (t, o) = some b') :
    Extends b b' ∧ ∀ i, Binds b' i ↔ Binds b i ∨ t = .param i := by
  cases t with
  | object constant =>
    rw [bindTerm] at h
    split at h
    · cases h
      exact ⟨.refl _, fun i => by simp⟩
    · cases h
  | param j =>
    rw [bindTerm] at h
    split at h
    next bound hbound =>
      -- the parameter is bound already
      split at h
      · cases h
        refine ⟨.refl _, fun i => (or_iff_left_of_imp fun hi => ?_).symm⟩
        cases hi
        exact ⟨bound, hbound⟩
      · cases h
    next p hunbound hp =>
      split at h
      · cases h
        refine ⟨extends_set hunbound, fun i => ?_⟩
        rw [binds_set hunbound, Term.param.injEq]
      · cases h
    · cases h

/-- Binding several terms binds the parameters among them. -/
theorem foldlM_bindTerm_binds {l : List (Term × ObjectId)}
    (h : l.foldlM (bindTerm setting ps) b = some b') :
    Extends b b' ∧ ∀ i, Binds b' i ↔ Binds b i ∨ .param i ∈ l.map Prod.fst := by
  induction l generalizing b with
  | nil =>
    cases h
    exact ⟨.refl _, fun i => by simp⟩
  | cons x l ih =>
    rw [List.foldlM_cons] at h
    obtain ⟨c, hc, hrest⟩ := Option.bind_eq_some_iff.mp h
    obtain ⟨hfirst, hbinds⟩ := bindTerm_binds hc
    obtain ⟨hothers, hbinds'⟩ := ih hrest
    refine ⟨hfirst.trans hothers, fun i => ?_⟩
    rw [hbinds', hbinds, List.map_cons, List.mem_cons, or_assoc, @eq_comm _ x.1]

/-- **Binding a condition** binds the parameters that it mentions, and nothing else. -/
theorem bindFluent_binds {c : Fluent} {v : ReachedValue}
    (h : bindFluent setting ps c v b = some b') :
    Extends b b' ∧ ∀ i, Binds b' i ↔ Binds b i ∨ Mentions c i := by
  rw [bindFluent] at h
  split at h
  next hlen =>
    obtain ⟨hextends, hbinds⟩ := foldlM_bindTerm_binds h
    have hterms : (c.literal.arguments.zip v.arguments ++ [(c.value, v.value)]).map Prod.fst =
        c.literal.arguments ++ [c.value] := by
      rw [List.map_append, List.map_fst_zip (Nat.le_of_eq hlen)]
      rfl
    refine ⟨hextends, fun i => ?_⟩
    rw [hbinds, hterms, List.mem_append, List.mem_singleton, Mentions, @eq_comm _ c.value]
  · cases h

/-! ## An extension of the result -/

/-- The objects of the parameters that are bound, and any object for the others. -/
def assignment (b : Bindings) : List ObjectId := b.map fun bound => bound.getD .falsity

theorem agrees_assignment (b : Bindings) : Agrees b (assignment b) := by
  refine List.forall₂_map_right_iff.mpr (List.forall₂_same.mpr fun bound _ o ho => ?_)
  rw [ho]
  rfl

/-- What is bound fits, so it is admitted. -/
theorem Fits.admits_of_binds (h : Fits setting ps b) {i : Nat} {p : Parameter} {o : ObjectId}
    (hp : ps[i]? = some p) (ho : b[i]? = some (some o)) : setting.admits p.types o = true := by
  induction h generalizing i with
  | nil => cases hp
  | cons hhead _ ih =>
    cases i with
    | zero =>
      cases hp
      exact hhead o (Option.some.inj ho)
    | succ i => exact ih hp ho

end Binding

/-! ## Compatible types -/

/-- An object may stand for a parameter: one of its types derives from one of those of the
parameter. -/
def Suits (task : Task) (p : Parameter) (o : ObjectId) : Prop :=
  ∃ type ∈ task.typesOf o, ∃ target ∈ p.types, task.Derives type target

/-- The table of supertypes tells which objects may stand for a parameter. -/
theorem admits_iff_suits {task : Task} (hclosed : task.HasClosedTypes) {p : Parameter}
    {o : ObjectId} : (Setting.ofTask task).admits p.types o = true ↔ Suits task p o := by
  have htype : ∀ type ∈ task.typesOf o, type.index < task.types.size := by
    intro type hmem
    rw [Task.typesOf] at hmem
    cases ho : task.objects[o.index]? with
    | none =>
      rw [ho] at hmem
      cases hmem
    | some entry =>
      rw [ho] at hmem
      exact hclosed.objects entry (Array.mem_of_getElem? ho) type hmem
  show (Hierarchy.ofTask task).compatible (task.typesOf o) p.types = true ↔ _
  simp only [Hierarchy.compatible, List.any_eq_true, Suits]
  refine exists_congr fun type => and_congr_right fun hmem => ?_
  exact exists_congr fun target => and_congr_right fun _ =>
    Hierarchy.isSubtype_ofTask_iff hclosed (htype type hmem)

/-- Bindings for parameters, in which every bound object may stand for its parameter. -/
def IsTyped (task : Task) (ps : List Parameter) (b : Bindings) : Prop :=
  ps.length = b.length ∧
    ∀ (i : Nat) p o, ps[i]? = some p → b[i]? = some (some o) → Suits task p o

theorem IsTyped.fits {task : Task} (hclosed : task.HasClosedTypes) {ps : List Parameter}
    {b : Bindings} (h : IsTyped task ps b) : Fits (Setting.ofTask task) ps b := by
  refine List.forall₂_iff_get.mpr ⟨h.1, fun i hp hb o ho => (admits_iff_suits hclosed).mpr ?_⟩
  refine h.2 i _ o (List.getElem?_eq_getElem hp) ?_
  rw [List.getElem?_eq_getElem hb]
  exact congrArg some ho

/-! ## Conditions that read as a value -/

/-- An assignment of objects to all parameters that extends bindings and turns a condition into a
value. The objects exist, and those of the parameters that the condition mentions may stand for
them. Whether the value is one of the function of the condition is left open. -/
structure Realizes (task : Task) (ps : List Parameter) (c : Fluent) (v : ReachedValue)
    (b : Bindings) (as : List ObjectId) : Prop where
  length_eq : ps.length = as.length
  objects : ∀ o ∈ as, o.index < task.objects.size
  suits : ∀ (i : Nat) p o, Mentions c i → ps[i]? = some p → as[i]? = some o → Suits task p o
  extends_bindings : Agrees b as
  arguments : c.literal.arguments.map (denote as) = v.arguments
  value : denote as c.value = v.value

section Least

variable {p : Problem} {op : Operator} {c : Fluent} {v : ReachedValue} {b b' : Bindings}
  {as : List ObjectId}

/-- Where an assignment realizes a value, matching finds bindings that the assignment extends. -/
theorem Realizes.exists_bindFluent (hclosed : p.task.HasClosedTypes)
    (hc : IsFluentOf op.parameters c) (hb : Fits (Setting.ofTask p.task) op.parameters b)
    (h : Realizes p.task op.parameters c v b as) :
    ∃ b', bindFluent (Setting.ofTask p.task) op.parameters c v b = some b' ∧ Agrees b' as :=
  (bindFluent_agrees_of_admitsAt hb h.length_eq
    (fun i hi q o hq ho => (admits_iff_suits hclosed).mpr (h.suits i q o hi hq ho)) hc).mpr
      ⟨h.extends_bindings, h.arguments, h.value⟩

/-- What matching finds realizes the value once it is completed by any object. -/
theorem realizes_assignment (hvalid : p.validate = .ok ())
    (hc : IsFluentOf op.parameters c) (hb : Fits (Setting.ofTask p.task) op.parameters b)
    (h : bindFluent (Setting.ofTask p.task) op.parameters c v b = some b') :
    Realizes p.task op.parameters c v b (assignment b') := by
  have hclosed := hasClosedTypes_of_valid hvalid
  have hfits := hb.bindFluent h
  have hbinds := (bindFluent_binds h).2
  have hlen : op.parameters.length = (assignment b').length :=
    hfits.length_eq.trans (List.length_map _).symm
  -- the parameters that the condition mentions are bound, so their objects are admitted
  have hadmits : ∀ i, Mentions c i →
      AdmitsAt (Setting.ofTask p.task) op.parameters (assignment b') i := by
    intro i hi q o hq ho
    obtain ⟨o', ho'⟩ := (hbinds i).mpr (Or.inr hi)
    have heq := (agrees_assignment b').getElem? ho'
    rw [ho] at heq
    cases heq
    exact hfits.admits_of_binds hq ho'
  obtain ⟨hextends, harguments, hvalue⟩ :=
    (bindFluent_agrees_of_admitsAt hb hlen hadmits hc).mp ⟨b', h, agrees_assignment b'⟩
  refine ⟨hlen, fun o ho => ?_, fun i q o hi hq ho => ?_, hextends, harguments, hvalue⟩
  · obtain ⟨bound, hbound, rfl⟩ := List.mem_map.mp ho
    cases bound with
    | none => exact Nat.lt_of_lt_of_le Nat.zero_lt_two (two_le_size_objects hvalid)
    | some o =>
      obtain ⟨i, hi, hget⟩ := List.mem_iff_getElem.mp hbound
      have hq := List.getElem?_eq_getElem (hfits.length_eq ▸ hi : i < op.parameters.length)
      refine lt_size_of_admits (hfits.admits_of_binds hq ?_)
      rw [List.getElem?_eq_getElem hi, hget]
      rfl
  · exact (admits_iff_suits hclosed).mp (hadmits i hi q o hq ho)

/-- **Matching finds the least extension** of bindings in which a condition reads as a value, for
every operator of a valid problem, all of its conditions and every value made of existing objects.
There is a result if and only if some assignment of objects to all parameters extends the bindings
and turns the condition into the value. Then the result extends the bindings, binds besides exactly
the parameters that the condition mentions, and every such assignment extends it. No lookup on the
way leaves its table. -/
theorem bindFluent_least (hvalid : p.validate = .ok ()) (hop : op ∈ p.operators)
    (hc : c ∈ Instance.preconditions op) (hb : IsTyped p.task op.parameters b)
    (harguments : ∀ o ∈ v.arguments, o.index < p.task.objects.size)
    (hvalue : v.value.index < p.task.objects.size) :
    (Guarded.bindFluent (Setting.ofTask p.task) op.parameters c v b).run =
      .ok (bindFluent (Setting.ofTask p.task) op.parameters c v b) ∧
    ((∃ b', bindFluent (Setting.ofTask p.task) op.parameters c v b = some b') ↔
      ∃ as, Realizes p.task op.parameters c v b as) ∧
    (∀ b', bindFluent (Setting.ofTask p.task) op.parameters c v b = some b' →
      Extends b b' ∧ (∀ i, Binds b' i ↔ Binds b i ∨ Mentions c i) ∧
        ∀ as, Realizes p.task op.parameters c v b as → Agrees b' as) ∧
    ∀ as, Realizes p.task op.parameters c v b as → c.literal.function = v.function →
      instanceOf as c = v := by
  have hclosed := hasClosedTypes_of_valid hvalid
  have hfluent := isFluentOf_of_valid hvalid hop c hc
  have hfits := hb.fits hclosed
  refine ⟨?_, ⟨?_, ?_⟩, fun b' h => ?_, fun as h hf => ?_⟩
  · exact Guarded.bindFluent_eq_ok hclosed (Guarded.isMatchable_of_valid hvalid hop).parameters
      hfits c harguments hvalue
  · rintro ⟨b', h⟩
    exact ⟨_, realizes_assignment hvalid hfluent hfits h⟩
  · rintro ⟨as, has⟩
    obtain ⟨b', h, -⟩ := has.exists_bindFluent hclosed hfluent hfits
    exact ⟨b', h⟩
  · obtain ⟨hextends, hbinds⟩ := bindFluent_binds h
    refine ⟨hextends, hbinds, fun as has => ?_⟩
    obtain ⟨b'', h', hagrees⟩ := has.exists_bindFluent hclosed hfluent hfits
    rw [h] at h'
    cases h'
    exact hagrees
  · exact (instanceOf_eq_iff hf).mpr ⟨h.arguments, h.value⟩

end Least

namespace Shuttle

/-- A place and two ports. -/
def parameters : List Parameter := [⟨"?x", [⟨2⟩]⟩, ⟨"?y", [⟨3⟩]⟩, ⟨"?z", [⟨3⟩]⟩]

/-- The shuttle from `?x` to `?y` that goes by the depot ends at `?x`. -/
def returns : Fluent := ⟨⟨⟨0⟩, [.param 0, .param 1, .object ⟨2⟩]⟩, .param 0⟩

/-- There are two places, the depot and the pier, of which the pier is a port. -/
def problem : Problem where
  task := {
    domainName := "shuttle"
    problemName := "problem"
    types := #[⟨"#boolean", []⟩, ⟨"number", []⟩, ⟨"place", []⟩, ⟨"port", [⟨2⟩]⟩]
    objects := #[⟨"#false", [⟨0⟩]⟩, ⟨"#true", [⟨0⟩]⟩, ⟨"depot", [⟨2⟩]⟩, ⟨"pier", [⟨3⟩]⟩]
    functions := #[⟨"end", [⟨"?from", [⟨2⟩]⟩, ⟨"?to", [⟨2⟩]⟩, ⟨"?by", [⟨2⟩]⟩], [⟨2⟩]⟩]
    init := []
    constraints := []
    metric := none }
  operators := [{
    name := "return"
    parameters := parameters
    durations := []
    atStart := ⟨[returns], [], [], []⟩
    atEnd := .empty
    invariants := []
    numericInvariants := []
    identities := []
    preferences := []
    isGoal := false }]

/-- The shuttle from the pier to another place that goes by the depot ends at the pier. -/
def endsAtPier (other : ObjectId) : ReachedValue := ⟨⟨0⟩, [⟨3⟩, other, ⟨2⟩], ⟨3⟩⟩

/-- With `?x` bound to the pier, a shuttle to the pier binds `?y` and leaves `?z`. A shuttle to the
depot cannot be matched, since the depot is no port. -/
theorem binds_least :
    problem.validate = .ok () ∧ IsTyped problem.task parameters [some ⟨3⟩, none, none] ∧
    (∃ as, Realizes problem.task parameters returns (endsAtPier ⟨3⟩) [some ⟨3⟩, none, none] as) ∧
    (∀ as, Realizes problem.task parameters returns (endsAtPier ⟨3⟩) [some ⟨3⟩, none, none] as →
      Agrees [some ⟨3⟩, some ⟨3⟩, none] as) ∧
    ¬∃ as, Realizes problem.task parameters returns (endsAtPier ⟨2⟩) [some ⟨3⟩, none, none] as := by
  have hvalid : problem.validate = .ok () := by decide +kernel
  have htyped : IsTyped problem.task parameters [some ⟨3⟩, none, none] := by
    refine ⟨rfl, fun i q o hq ho => ?_⟩
    match i with
    | 0 =>
      cases hq
      cases ho
      exact ⟨⟨3⟩, by decide, ⟨2⟩, by decide, .single (by decide)⟩
    | 1 | 2 | i + 3 => cases ho
  have hleast := fun v => bindFluent_least (c := returns) (v := v) hvalid List.mem_cons_self
    List.mem_cons_self htyped
  have hpier : bindFluent (Setting.ofTask problem.task) parameters returns (endsAtPier ⟨3⟩)
      [some ⟨3⟩, none, none] = some [some ⟨3⟩, some ⟨3⟩, none] := by decide +kernel
  have hdepot : bindFluent (Setting.ofTask problem.task) parameters returns (endsAtPier ⟨2⟩)
      [some ⟨3⟩, none, none] = none := by decide +kernel
  obtain ⟨-, hiff, hfound, -⟩ := hleast (endsAtPier ⟨3⟩) (by decide) (by decide)
  obtain ⟨-, hiff', -⟩ := hleast (endsAtPier ⟨2⟩) (by decide) (by decide)
  refine ⟨hvalid, htyped, hiff.mp ⟨_, hpier⟩, (hfound _ hpier).2.2, fun h => ?_⟩
  obtain ⟨b', hb'⟩ := hiff'.mpr h
  cases hdepot.symm.trans hb'

end Shuttle

end TemporalPlanning.Grounding
