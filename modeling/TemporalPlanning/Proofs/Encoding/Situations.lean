import Mathlib.Data.List.Nodup
import TemporalPlanning.Proofs.Encoding.Construct
import TemporalPlanning.Proofs.FiniteDomain.Truth
/-!
Encoded situations.

A grounded situation is encoded by the values of its valuation and the numbers of its numeric
variables. A proposition is true in it exactly when its fact holds in the encoding, and a variable
has an object exactly when its place has the value named after the object. So an encoded condition
holds exactly when the condition does.
-/
set_option autoImplicit false

namespace TemporalPlanning.Encoding

open FiniteDomain

/-! ## Names -/

/-- Names tell propositions apart. -/
def NamesPropositions (t : Grounded.Task) : Prop :=
  ((t.vars.toList.filter fun v => t.task.isPredicate v.function).map fun v =>
    t.varName v.index).Nodup

instance (t : Grounded.Task) : Decidable (NamesPropositions t) :=
  inferInstanceAs (Decidable (_ : List _).Nodup)

theorem NamesPropositions.varName_inj {t : Grounded.Task} (h : NamesPropositions t)
    (ht : t.IsNumbered) {v w : VarId} (hv : t.isProposition v = true)
    (hw : t.isProposition w = true) (hname : t.varName v = t.varName w) : v = w := by
  have hentry : ∀ {v : VarId}, t.isProposition v = true → ∃ entry, entry.index = v ∧
      entry ∈ t.vars.toList.filter fun v => t.task.isPredicate v.function := by
    intro v hv
    unfold Grounded.Task.isProposition at hv
    split at hv
    next entry hentry =>
      refine ⟨entry, ht v.index entry hentry, List.mem_filter.mpr ⟨?_, hv⟩⟩
      exact List.mem_of_getElem? (Array.getElem?_toList.symm ▸ hentry)
    · cases hv
  obtain ⟨e, rfl, he⟩ := hentry hv
  obtain ⟨e', rfl, he'⟩ := hentry hw
  rw [List.inj_on_of_nodup_map h he he' hname]

/-- Propositions with names of their own have facts of their own: those of one variable with one
value are the same. -/
theorem IsPlacement.eq_of_fact? {t : Grounded.Task} {isProposition : Array Bool} {p : Placement}
    {T : Task} (h : IsPlacement t isProposition p T) (ht : t.IsNumbered)
    (hnames : NamesPropositions t) {v w : VarId} {f g : FactCode} (hv : t.isProposition v = true)
    (hw : t.isProposition w = true) (hf : p.fact? v = some f) (hg : p.fact? w = some g)
    (hvar : f.var = g.var) (hvalue : f.value = g.value) : v = w := by
  rcases (h.fact v f hf).2 with ⟨hboolean, -⟩ | ⟨hshared, hnamed⟩
  · exact h.alone v w f g hf hg hvar hboolean
  · rcases (h.fact w g hg).2 with ⟨hboolean, -⟩ | ⟨-, hnamed'⟩
    · rw [← hvar, hshared] at hboolean
      cases hboolean
    · -- the value is named after both propositions
      rw [hvalue] at hnamed
      exact hnames.varName_inj ht hv hw (Task.value?_inj hnamed hnamed')

/-- Names tell objects apart, also from the value of variables without one, and propositions. -/
structure HasDistinctNames (t : Grounded.Task) : Prop where
  objects : (t.task.objects.toList.map (·.name)).Nodup
  undefined : "<undefined>" ∉ t.task.objects.toList.map (·.name)
  propositions : ((t.vars.toList.filter fun v => t.task.isPredicate v.function).map fun v =>
    t.varName v.index).Nodup

instance (t : Grounded.Task) : Decidable (HasDistinctNames t) :=
  decidable_of_iff ((t.task.objects.toList.map (·.name)).Nodup ∧
      "<undefined>" ∉ t.task.objects.toList.map (·.name) ∧
      ((t.vars.toList.filter fun v => t.task.isPredicate v.function).map fun v =>
        t.varName v.index).Nodup)
    ⟨fun h => ⟨h.1, h.2.1, h.2.2⟩, fun h => ⟨h.objects, h.undefined, h.propositions⟩⟩

namespace HasDistinctNames

variable {t : Grounded.Task} (h : HasDistinctNames t)
include h

omit h in
theorem getElem?_names {o : ObjectId} (ho : o.index < t.task.objects.size) :
    (t.task.objects.toList.map (·.name))[o.index]? = some (t.task.objectName o) := by
  rw [List.getElem?_map, Array.getElem?_toList, Lifted.Task.objectName,
    Array.getElem?_eq_getElem ho]
  rfl

theorem objectName_inj {o o' : ObjectId} (ho : o.index < t.task.objects.size)
    (ho' : o'.index < t.task.objects.size) (hname : t.task.objectName o = t.task.objectName o') :
    o = o' := by
  have hlt : o.index < (t.task.objects.toList.map (·.name)).length := by
    rwa [List.length_map, Array.length_toList]
  have hindex : o.index = o'.index := (List.getElem?_inj hlt h.objects).mp <| by
    rw [getElem?_names ho, hname]
    exact (getElem?_names ho').symm
  cases o
  exact congrArg ObjectId.mk hindex

theorem objectName_ne_undefined {o : ObjectId} (ho : o.index < t.task.objects.size) :
    t.task.objectName o ≠ "<undefined>" := fun hname =>
  h.undefined (hname ▸ List.mem_of_getElem? (getElem?_names ho))

theorem varName_inj (ht : t.IsNumbered) {v w : VarId} (hv : t.isProposition v = true)
    (hw : t.isProposition w = true) (hname : t.varName v = t.varName w) : v = w :=
  NamesPropositions.varName_inj h.propositions ht hv hw hname

end HasDistinctNames

namespace Encoder

variable (enc : Encoder)

/-! ## Encoded situations -/

/-- The grounded numeric variable that is placed in a numeric variable. -/
def overNumbers? (var : Nat) : Option VarId :=
  ((List.range enc.placement.numeric.size).map VarId.mk).find? fun v =>
    enc.placement.numeric? v = some var

/-- The encoding of a situation. Variables without a value are undefined. -/
def situationOf (T : Task) (x : Grounded.Situation Float) : Situation Float where
  values var := T.vars[var]?.map fun _ => (enc.stateOf T x.objects var).getD .undefined
  numbers var := (enc.overNumbers? var).bind x.numbers

/-- The situations that are encoded: propositions have truth values, at most one of every variable
is true, and all values are objects of the task. -/
structure IsState (x : Grounded.Situation Float) : Prop where
  consistent : enc.IsConsistent x.objects
  truthValue : ∀ v o, enc.grounded.isProposition v = true → x.objects v = some o →
    o = .truth ∨ o = .falsity
  object : ∀ v o, x.objects v = some o → o.index < enc.grounded.task.objects.size

/-- All variables of a numbered task have their places in an encoded one, and names are distinct. -/
structure Places (T : Task) : Prop where
  numbered : enc.grounded.IsNumbered
  isProposition : enc.isProposition = Mutex.propositions enc.grounded
  placement : IsPlacement enc.grounded enc.isProposition enc.placement T
  numeric_inj : ∀ v w var, enc.placement.numeric? v = some var →
    enc.placement.numeric? w = some var → v = w
  names : HasDistinctNames enc.grounded

section Places

variable {enc} {T : Task} (hT : enc.Places T) {x : Grounded.Situation Float}
include hT

theorem Places.isLiteral_iff (v : VarId) :
    enc.isLiteral v = true ↔ enc.grounded.isProposition v = true := by
  rw [isLiteral, hT.isProposition]
  exact Mutex.isMarked_propositions hT.numbered v

theorem overNumbers?_eq_some {v : VarId} {var : Nat} (hv : enc.placement.numeric? v = some var) :
    enc.overNumbers? var = some v := by
  have hlt : v.index < enc.placement.numeric.size := by
    refine Nat.lt_of_not_le fun hge => ?_
    rw [Placement.numeric?, Array.getD_eq_getD_getElem?, Array.getElem?_eq_none hge] at hv
    cases hv
  unfold overNumbers?
  cases hfind : ((List.range enc.placement.numeric.size).map VarId.mk).find? fun v =>
      enc.placement.numeric? v = some var with
  | none =>
    have hnot := List.find?_eq_none.mp hfind v
      (List.mem_map.mpr ⟨v.index, List.mem_range.mpr hlt, rfl⟩)
    exact absurd (decide_eq_true hv) hnot
  | some w =>
    have hw : enc.placement.numeric? w = some var := by simpa using List.find?_some hfind
    rw [hT.numeric_inj v w var hv hw]

omit hT in
/-- The value of an encoded situation, if there is such a variable. -/
theorem values_situationOf {var : Nat} (hvar : var < T.vars.size) {value : ValueId} :
    (enc.situationOf T x).values var = some value ↔
      (enc.stateOf T x.objects var).getD .undefined = value := by
  show T.vars[var]?.map _ = some value ↔ _
  rw [Array.getElem?_eq_getElem hvar, Option.map_some, Option.some.injEq]

/-- **A fact holds exactly when its proposition is true.** -/
theorem values_of_fact? (hx : enc.IsState x) {v : VarId} {f : FactCode}
    (hv : enc.isLiteral v = true) (hf : enc.placement.fact? v = some f) :
    (enc.situationOf T x).values f.var = some f.value ↔ x.objects.IsTrue v := by
  have hlt := (hT.placement.fact v f hf).1
  rw [values_situationOf hlt]
  constructor
  · intro hvalue
    by_cases htrue : ∃ w, enc.IsIn w f.var ∧ x.objects.IsTrue w
    · -- the proposition that is true there has the value of the fact
      obtain ⟨w, hin, htrue⟩ := htrue
      obtain ⟨g, hg, hvar⟩ := hin.exists_fact
      have hstate := stateOf_of_isTrue hT.placement hx.consistent hin.1 hg htrue
      rw [hvar] at hstate
      rw [hstate] at hvalue
      have hvw := hT.placement.eq_of_fact? hT.numbered hT.names.propositions
        ((hT.isLiteral_iff v).mp hv) ((hT.isLiteral_iff w).mp hin.1) hf hg hvar.symm hvalue.symm
      rw [hvw]
      exact htrue
    · rw [stateOf_of_forall_not hlt (fun w => hT.placement.apart v w f hf)
        fun w hin hw => htrue ⟨w, hin, hw⟩] at hvalue
      exact absurd hvalue (hT.placement.restingValue_ne hf)
  · intro htrue
    rw [stateOf_of_isTrue hT.placement hx.consistent hv hf htrue]
    rfl

/-- A boolean variable is false exactly when its proposition is not true. -/
theorem values_eq_falsity (hx : enc.IsState x) {v : VarId} {f : FactCode}
    (hv : enc.isLiteral v = true) (hf : enc.placement.fact? v = some f)
    (hboolean : T.isBooleanAt f.var = true) :
    (enc.situationOf T x).values f.var = some .falsity ↔ ¬x.objects.IsTrue v := by
  obtain ⟨hlt, hkind⟩ := hT.placement.fact v f hf
  rw [values_situationOf hlt]
  constructor
  · intro hvalue htrue
    rw [stateOf_of_isTrue hT.placement hx.consistent hv hf htrue] at hvalue
    rcases hkind with ⟨-, htruth⟩ | ⟨hshared, -⟩
    · rw [htruth] at hvalue
      cases hvalue
    · rw [hboolean] at hshared
      cases hshared
  · intro hnot
    -- no other proposition is placed in the variable
    rw [stateOf_of_forall_not hlt (fun w => hT.placement.apart v w f hf) fun w hin htrue => ?_,
      Task.restingValue, hboolean]
    · rfl
    · obtain ⟨g, hg, hvar⟩ := hin.exists_fact
      rw [hT.placement.alone v w f g hf hg hvar.symm hboolean] at hnot
      exact hnot htrue

/-- **A variable has the value named after an object exactly when it has the object.** -/
theorem values_of_finite? (hx : enc.IsState x) {v : VarId} {var : Nat} {o : ObjectId}
    {value : ValueId} (hv : enc.placement.finite? v = some var)
    (hvalue : T.value? (enc.objectName o) = some value)
    (ho : o.index < enc.grounded.task.objects.size) :
    (enc.situationOf T x).values var = some value ↔ x.objects v = some o := by
  have hne : ValueId.undefined ≠ value := by
    rintro rfl
    exact hT.names.objectName_ne_undefined ho
      (Task.value?_inj hvalue hT.placement.reserved.undefined)
  rw [values_situationOf (hT.placement.finite v var hv).1,
    stateOf_of_finite? hT.placement hv]
  cases hobject : x.objects v with
  | none =>
    rw [Option.bind_none, Option.getD_none]
    exact ⟨fun h => absurd h hne, fun h => by cases h⟩
  | some o' =>
    rw [Option.bind_some, Option.some.injEq]
    constructor
    · intro h
      cases hvalue' : T.value? (enc.objectName o') with
      | none =>
        rw [hvalue'] at h
        exact absurd h hne
      | some value' =>
        rw [hvalue'] at h
        cases h
        exact hT.names.objectName_inj (hx.object v o' hobject) ho
          (Task.value?_inj hvalue' hvalue)
    · rintro rfl
      rw [hvalue]
      rfl

/-! ## Conditions -/

/-- What is known of the literals of a task: their objects exist, and propositions are compared with
truth values. -/
structure IsProper (t : Grounded.Task) (c : Grounded.Condition) : Prop where
  object : c.value.index < t.task.objects.size
  truthValue : t.isProposition c.var = true → c.value = .truth ∨ c.value = .falsity

omit hT in
theorem holds_truth_iff {v : VarId} :
    enc.grounded.Holds x.objects ⟨v, .truth⟩ ↔ x.objects.IsTrue v := by
  refine ⟨fun h => h.isTrue _ rfl, Or.inl⟩

omit hT in
theorem holds_falsity_iff (hx : enc.IsState x) {v : VarId}
    (hv : enc.grounded.isProposition v = true) :
    enc.grounded.Holds x.objects ⟨v, .falsity⟩ ↔ ¬x.objects.IsTrue v := by
  unfold Grounded.Task.Holds Grounded.Valuation.IsTrue
  dsimp only
  cases hobject : x.objects v with
  | none => simp [hv]
  | some o => rcases hx.truthValue v o hv hobject with rfl | rfl <;> simp <;> decide

omit hT in
theorem holds_object_iff {v : VarId} {o : ObjectId} (hv : enc.grounded.isProposition v = false) :
    enc.grounded.Holds x.objects ⟨v, o⟩ ↔ x.objects v = some o := by
  refine or_iff_left_of_imp ?_
  rintro ⟨-, hproposition, -⟩
  rw [hv] at hproposition
  cases hproposition

omit hT in
/-- The other value of a boolean variable than truth is falsity. -/
theorem oppositeOf_eq (hplacement : IsPlacement enc.grounded enc.isProposition enc.placement T)
    {T₁ : Task} (hsame : T₁.SameTables T) {v : VarId} {f : FactCode}
    (hf : enc.placement.fact? v = some f) (hboolean : T.isBooleanAt f.var = true) :
    oppositeOf T₁ f = .ok .falsity := by
  have htruth := (hplacement.isBooleanAt_iff hf).mp hboolean
  rw [hsame.boolean, Task.isBooleanAt] at hboolean
  unfold oppositeOf
  cases hentry : T₁.vars[f.var]? with
  | none =>
    rw [hentry] at hboolean
    cases hboolean
  | some entry =>
    rw [hentry, Option.any_some, Variable.isBoolean, beq_iff_eq] at hboolean
    dsimp only
    rw [Variable.opposite, hboolean, htruth]
    rfl

/-- **An encoded condition holds exactly when the condition does**, if conditions that a proposition
is false are about boolean variables. -/
theorem holds_iff_of_condition {T₁ : Task} (hsame : T₁.SameTables T) {c : Grounded.Condition}
    {c' : Condition} (h : enc.condition T₁ c = .ok c') (hc : IsProper enc.grounded c)
    (hnegated : enc.isLiteral c.var = true → c.value = .falsity →
      ∀ f, enc.placement.fact? c.var = some f → T.isBooleanAt f.var = true)
    (hx : enc.IsState x) :
    (enc.situationOf T x).values c'.var = some c'.value ↔ enc.grounded.Holds x.objects c := by
  obtain ⟨v, o⟩ := c
  unfold condition at h
  split at h
  next hv =>
    have hproposition := (hT.isLiteral_iff v).mp hv
    obtain ⟨f, hf, hvalue⟩ := Grounding.except_bind_eq_ok.mp h
    have hf := enc.fact_eq_ok hf
    clear h
    split at hvalue
    next hfalse =>
      obtain ⟨value, hopposite, hvalue⟩ := Grounding.except_bind_eq_ok.mp hvalue
      have hboolean := hnegated hv hfalse f hf
      rw [oppositeOf_eq hT.placement hsame hf hboolean] at hopposite
      cases hopposite
      cases hvalue
      obtain rfl : o = .falsity := hfalse
      rw [holds_falsity_iff hx hproposition]
      exact values_eq_falsity hT hx hv hf hboolean
    next hne =>
      obtain rfl : o = .truth := (hc.truthValue hproposition).resolve_right hne
      cases hvalue
      rw [holds_truth_iff]
      exact values_of_fact? hT hx hv hf
  next hv =>
    have hproposition : enc.grounded.isProposition v = false :=
      Bool.eq_false_iff.mpr fun h => hv ((hT.isLiteral_iff v).mpr h)
    obtain ⟨⟨var, value⟩, hplace, h⟩ := Grounding.except_bind_eq_ok.mp h
    cases h
    obtain ⟨hvar, hvalue⟩ := enc.objectFact_eq_ok hplace
    rw [holds_object_iff hproposition]
    exact values_of_finite? hT hx hvar ((hsame.value?_eq _).trans hvalue) hc.object

end Places

end Encoder

end TemporalPlanning.Encoding
