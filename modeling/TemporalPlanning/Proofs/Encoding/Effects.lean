import TemporalPlanning.Encoding.Construct
import TemporalPlanning.Proofs.Encoding.Placement
import TemporalPlanning.Proofs.Execution
import TemporalPlanning.Proofs.Grounding.Steps
/-!
What encoded effects do.

A grounded valuation is encoded by the values that the places of its variables have: an object is
the value named after it, a boolean variable has the truth value of its proposition, and a shared
variable the value of its true proposition or, if there is none, the value for none of them. Effects
that are encoded together then do to the encoding what they do to the valuation, with one exception:
deleting a proposition of a shared variable, without adding another one, leaves none of them, even
if a proposition that is not deleted is true.
-/
set_option autoImplicit false

namespace TemporalPlanning.FiniteDomain

/-- The values that finite-domain variables have. -/
abbrev Valuation := Values Nat ValueId

namespace Valuation

variable (x : Valuation)

/-- Effects are applied in their order. -/
def apply (effects : List Condition) : Valuation :=
  x.assign (effects.map fun c => (c.var, c.value))

/-- A variable without an effect keeps its value. -/
theorem apply_of_forall_ne {cs : List Condition} {var : Nat} (h : ∀ c ∈ cs, c.var ≠ var) :
    x.apply cs var = x var :=
  x.assign_of_forall_ne fun p hp => by
    obtain ⟨c, hc, rfl⟩ := List.mem_map.mp hp
    exact h c hc

/-- A variable has the value that all effects on it give. -/
theorem apply_eq_of_unique {cs : List Condition} {c : Condition} (hc : c ∈ cs)
    (hunique : ∀ d ∈ cs, d.var = c.var → d.value = c.value) : x.apply cs c.var = some c.value := by
  refine x.assign_eq_of_unique (List.mem_map_of_mem hc) fun value hvalue => ?_
  obtain ⟨d, hd, hpair⟩ := List.mem_map.mp hvalue
  rw [Prod.mk.injEq] at hpair
  rw [← hpair.2]
  exact hunique d hd hpair.1

end Valuation

/-- The value of a variable none of whose propositions is true. -/
def Task.restingValue (t : Task) (var : Nat) : ValueId :=
  if t.isBooleanAt var then .falsity else .undefined

theorem Task.SameTables.restingValue_eq {t t' : Task} (h : t.SameTables t') (var : Nat) :
    t'.restingValue var = t.restingValue var := by
  rw [restingValue, restingValue, h.boolean]

end TemporalPlanning.FiniteDomain

namespace TemporalPlanning.Encoding

open FiniteDomain

/-- A variable none of whose propositions is true does not have the value of one. -/
theorem IsPlacement.restingValue_ne {t : Grounded.Task} {isProposition : Array Bool}
    {p : Placement} {T : Task} (h : IsPlacement t isProposition p T) {v : VarId} {f : FactCode}
    (hf : p.fact? v = some f) : T.restingValue f.var ≠ f.value := by
  intro heq
  rw [Task.restingValue] at heq
  rcases (h.fact v f hf).2 with ⟨hboolean, hvalue⟩ | ⟨hshared, hvalue⟩
  · rw [hboolean, hvalue] at heq
    cases heq
  · rw [hshared] at heq
    exact (value_ne_of_varName _ h.reserved hvalue).2.2 heq.symm

namespace Encoder

variable (enc : Encoder)

/-! ## Encoded valuations -/

/-- A proposition is placed in a variable. -/
def IsIn (v : VarId) (var : Nat) : Prop :=
  enc.isLiteral v = true ∧ (enc.placement.fact? v).map FactCode.var = some var

instance (v : VarId) (var : Nat) : Decidable (enc.IsIn v var) :=
  inferInstanceAs (Decidable (_ ∧ _))

/-- The value of the first true proposition of a variable. -/
def trueValue? (x : Grounded.Valuation) (var : Nat) : Option ValueId :=
  ((Mutex.marked enc.isProposition).find? fun v => enc.IsIn v var ∧ x.IsTrue v).bind fun v =>
    (enc.placement.fact? v).map FactCode.value

/-- The grounded variable over objects that is placed in a variable. -/
def overObjects? (var : Nat) : Option VarId :=
  ((List.range enc.placement.finite.size).map VarId.mk).find? fun v =>
    enc.placement.finite? v = some var

/-- The encoding of a valuation in a finite-domain task. -/
def stateOf (T : Task) (x : Grounded.Valuation) : Valuation := fun var =>
  T.vars[var]?.bind fun entry =>
    match enc.overObjects? var with
    | some v => (x v).bind fun o => T.value? (enc.objectName o)
    | none =>
      if entry.isBoolean then some (if (enc.trueValue? x var).isSome then .truth else .falsity)
      else some ((enc.trueValue? x var).getD .undefined)

/-- At most one proposition of every variable is true. -/
def IsConsistent (x : Grounded.Valuation) : Prop :=
  ∀ v w var, enc.IsIn v var → enc.IsIn w var → x.IsTrue v → x.IsTrue w → v = w

section Placed

variable {enc} {T : Task}
  (hp : IsPlacement enc.grounded enc.isProposition enc.placement T) {x : Grounded.Valuation}

theorem isIn_of_fact? {v : VarId} {f : FactCode} (hv : enc.isLiteral v = true)
    (hf : enc.placement.fact? v = some f) : enc.IsIn v f.var :=
  ⟨hv, by rw [hf]; rfl⟩

theorem IsIn.exists_fact {v : VarId} {var : Nat} (h : enc.IsIn v var) :
    ∃ f, enc.placement.fact? v = some f ∧ f.var = var :=
  Option.map_eq_some_iff.mp h.2

/-- The true proposition of a variable gives it its value. -/
theorem trueValue?_of_isTrue (hx : enc.IsConsistent x) {v : VarId} {f : FactCode}
    (hv : enc.isLiteral v = true) (hf : enc.placement.fact? v = some f) (htrue : x.IsTrue v) :
    enc.trueValue? x f.var = some f.value := by
  have hin := isIn_of_fact? hv hf
  unfold trueValue?
  cases hfind : (Mutex.marked enc.isProposition).find? fun w => enc.IsIn w f.var ∧ x.IsTrue w with
  | none =>
    have hnot := List.find?_eq_none.mp hfind v (Mutex.mem_marked.mpr hv)
    exact absurd (decide_eq_true ⟨hin, htrue⟩) hnot
  | some w =>
    -- whatever true proposition comes first, there is only one
    have hw : enc.IsIn w f.var ∧ x.IsTrue w := by simpa using List.find?_some hfind
    rw [hx v w f.var hin hw.1 htrue hw.2] at hf
    rw [Option.bind_some, hf]
    rfl

theorem trueValue?_eq_none {var : Nat} (h : ∀ v, enc.IsIn v var → ¬x.IsTrue v) :
    enc.trueValue? x var = none := by
  unfold trueValue?
  rw [List.find?_eq_none.mpr fun v _ hv => h v (of_decide_eq_true hv).1 (of_decide_eq_true hv).2]
  rfl

include hp

theorem overObjects?_eq_some {v : VarId} {var : Nat} (hv : enc.placement.finite? v = some var) :
    enc.overObjects? var = some v := by
  have hlt : v.index < enc.placement.finite.size := by
    refine Nat.lt_of_not_le fun hge => ?_
    rw [Placement.finite?, Array.getD_eq_getD_getElem?,
      Array.getElem?_eq_none hge] at hv
    cases hv
  unfold overObjects?
  cases hfind : ((List.range enc.placement.finite.size).map VarId.mk).find? fun v =>
      enc.placement.finite? v = some var with
  | none =>
    have hnot := List.find?_eq_none.mp hfind v
      (List.mem_map.mpr ⟨v.index, List.mem_range.mpr hlt, rfl⟩)
    exact absurd (decide_eq_true hv) hnot
  | some w =>
    have hw : enc.placement.finite? w = some var := by simpa using List.find?_some hfind
    rw [hp.finite_inj v w var hv hw]

omit hp in
theorem overObjects?_eq_none {var : Nat} (h : ∀ v, enc.placement.finite? v ≠ some var) :
    enc.overObjects? var = none := by
  unfold overObjects?
  exact List.find?_eq_none.mpr fun v _ hv => h v (of_decide_eq_true hv)

/-- A variable over objects has the value named after the object. -/
theorem stateOf_of_finite? {v : VarId} {var : Nat} (hv : enc.placement.finite? v = some var)
    (x : Grounded.Valuation) :
    enc.stateOf T x var = (x v).bind fun o => T.value? (enc.objectName o) := by
  unfold stateOf
  rw [Array.getElem?_eq_getElem (hp.finite v var hv).1, Option.bind_some,
    overObjects?_eq_some hp hv]

/-- The variable of a true proposition has its value. -/
theorem stateOf_of_isTrue (hx : enc.IsConsistent x) {v : VarId} {f : FactCode}
    (hv : enc.isLiteral v = true) (hf : enc.placement.fact? v = some f) (htrue : x.IsTrue v) :
    enc.stateOf T x f.var = some f.value := by
  obtain ⟨hlt, hkind⟩ := hp.fact v f hf
  unfold stateOf
  rw [Array.getElem?_eq_getElem hlt, Option.bind_some,
    overObjects?_eq_none fun w => hp.apart v w f hf]
  dsimp only
  rw [trueValue?_of_isTrue hx hv hf htrue]
  rw [Task.isBooleanAt, Array.getElem?_eq_getElem hlt, Option.any_some] at hkind
  rcases hkind with ⟨hboolean, hvalue⟩ | ⟨hboolean, -⟩
  · rw [hboolean, hvalue]
    rfl
  · rw [hboolean]
    rfl

omit hp in
/-- A variable none of whose propositions is true rests. -/
theorem stateOf_of_forall_not {var : Nat} (hlt : var < T.vars.size)
    (hfinite : ∀ v, enc.placement.finite? v ≠ some var) (h : ∀ v, enc.IsIn v var → ¬x.IsTrue v) :
    enc.stateOf T x var = some (T.restingValue var) := by
  unfold stateOf Task.restingValue Task.isBooleanAt
  rw [Array.getElem?_eq_getElem hlt, Option.bind_some, overObjects?_eq_none hfinite,
    Option.any_some]
  dsimp only
  rw [trueValue?_eq_none h]
  split <;> rfl

end Placed

/-! ## Encoded effects -/

/-- What an effect becomes when it is encoded together with others. -/
structure EncodesEffect (T : Task) (together : List Grounded.Condition) (e : Grounded.Condition)
    (c? : Option Condition) : Prop where
  /-- A deletion is left out if another proposition is added to the variable. -/
  deletion : enc.isLiteral e.var = true → e.value = .falsity →
    ∃ f, enc.placement.fact? e.var = some f ∧
      c? = if together.any (enc.adds f.var e.var) then none
        else some (.plain f.var (T.restingValue f.var))
  addition : enc.isLiteral e.var = true → e.value ≠ .falsity →
    ∃ f, enc.placement.fact? e.var = some f ∧ c? = some (.plain f.var f.value)
  assignment : enc.isLiteral e.var = false →
    ∃ var value, enc.placement.finite? e.var = some var ∧
      T.value? (enc.objectName e.value) = some value ∧ c? = some (.plain var value)

/-- The effects that a list of effects becomes: each of them, in order, what it is encoded as,
unless it is left out. -/
def EncodesEffects (T : Task) (together es : List Grounded.Condition) (cs : List Condition) :
    Prop :=
  ∃ results, List.Forall₂ (enc.EncodesEffect T together) es results ∧
    cs = results.flatMap Option.toList

/-- Some effect adds a proposition to a variable. -/
def Adds (es : List Grounded.Condition) (var : Nat) : Prop :=
  ∃ e ∈ es, enc.IsIn e.var var ∧ e.value = .truth

/-- Some effect deletes a proposition of a variable. -/
def Deletes (es : List Grounded.Condition) (var : Nat) : Prop :=
  ∃ e ∈ es, enc.IsIn e.var var ∧ e.value = .falsity

/-- A shared variable of which effects delete a proposition, but to which they add none, has no
true proposition in a valuation. -/
def IsCleared (T : Task) (es : List Grounded.Condition) (y : Grounded.Valuation) : Prop :=
  ∀ var, T.isBooleanAt var = false → enc.Deletes es var → ¬enc.Adds es var →
    ∀ v, enc.IsIn v var → ¬y.IsTrue v

variable {enc}

theorem EncodesEffect.of_sameTables {T T' : Task} {together : List Grounded.Condition}
    {e : Grounded.Condition} {c? : Option Condition} (h : enc.EncodesEffect T together e c?)
    (hsame : T.SameTables T') : enc.EncodesEffect T' together e c? := by
  refine ⟨fun hv he => ?_, h.addition, fun hv => ?_⟩
  · simp only [hsame.restingValue_eq]
    exact h.deletion hv he
  · simp only [hsame.value?_eq]
    exact h.assignment hv

section EncodesEffects

variable {T T' : Task} {together es : List Grounded.Condition} {cs : List Condition}

theorem EncodesEffects.of_sameTables (h : enc.EncodesEffects T together es cs)
    (hsame : T.SameTables T') : enc.EncodesEffects T' together es cs := by
  obtain ⟨results, hresults, rfl⟩ := h
  exact ⟨results, hresults.imp fun _ _ hencodes => hencodes.of_sameTables hsame, rfl⟩

theorem EncodesEffects.sound (h : enc.EncodesEffects T together es cs) {c : Condition}
    (hc : c ∈ cs) : ∃ e ∈ es, enc.EncodesEffect T together e (some c) := by
  obtain ⟨results, hresults, rfl⟩ := h
  obtain ⟨c?, hmem, hc⟩ := List.mem_flatMap.mp hc
  obtain ⟨e, he, hencodes⟩ := Grounding.exists_of_forall₂ hresults hmem
  rw [Option.mem_toList.mp hc] at hencodes
  exact ⟨e, he, hencodes⟩

theorem EncodesEffects.complete (h : enc.EncodesEffects T together es cs) {e : Grounded.Condition}
    (he : e ∈ es) : ∃ c?, enc.EncodesEffect T together e c? ∧ ∀ c, c? = some c → c ∈ cs := by
  obtain ⟨results, hresults, rfl⟩ := h
  obtain ⟨c?, hmem, hencodes⟩ := Grounding.exists_of_forall₂_left hresults he
  exact ⟨c?, hencodes, fun c hc => List.mem_flatMap.mpr ⟨c?, hmem, Option.mem_toList.mpr hc⟩⟩

end EncodesEffects

/-- Whether another proposition is added to a variable. -/
theorem any_adds_iff {es : List Grounded.Condition} {var : Nat} {v : VarId} :
    es.any (enc.adds var v) = true ↔
      ∃ e ∈ es, enc.IsIn e.var var ∧ e.value = .truth ∧ e.var ≠ v := by
  rw [List.any_eq_true]
  refine exists_congr fun e => and_congr_right fun _ => ?_
  simp only [adds, Bool.and_eq_true, bne_iff_ne, beq_iff_eq, IsIn]
  constructor
  · rintro ⟨⟨⟨hne, htruth⟩, hv⟩, hvar⟩
    exact ⟨⟨hv, hvar⟩, htruth, hne⟩
  · rintro ⟨⟨hv, hvar⟩, htruth, hne⟩
    exact ⟨⟨⟨hne, htruth⟩, hv⟩, hvar⟩

/-! ## Effects on one variable -/

/-- The conventions for effects that take place together: a variable has one effect, and
propositions become true or false. -/
structure AreProper (enc : Encoder) (es : List Grounded.Condition) : Prop where
  single : ∀ e ∈ es, ∀ d ∈ es, e.var = d.var → e = d
  truthValue : ∀ e ∈ es, enc.isLiteral e.var = true → e.value = .truth ∨ e.value = .falsity

section OneVariable

variable {T : Task} {x : Grounded.Valuation} {es : List Grounded.Condition} {cs : List Condition}

theorem AreProper.apply_eq (hes : AreProper enc es) {e : Grounded.Condition} (he : e ∈ es) :
    x.apply es e.var = some e.value := by
  refine x.assign_eq_of_unique (List.mem_map_of_mem he) fun o ho => ?_
  obtain ⟨d, hd, hpair⟩ := List.mem_map.mp ho
  rw [Prod.mk.injEq] at hpair
  rw [← hpair.2, hes.single e he d hd hpair.1.symm]

variable (hp : IsPlacement enc.grounded enc.isProposition enc.placement T)
  (hcs : enc.EncodesEffects T es es cs)

include hp hcs

/-- An encoded effect on a variable over objects comes from an effect on its grounded variable. -/
theorem exists_effect_of_finite? {v : VarId} {c : Condition}
    (hv : enc.placement.finite? v = some c.var) (hc : c ∈ cs) :
    ∃ e ∈ es, e.var = v ∧ T.value? (enc.objectName e.value) = some c.value := by
  obtain ⟨e, he, hencodes⟩ := hcs.sound hc
  cases hliteral : enc.isLiteral e.var
  · obtain ⟨var, value, hvar, hvalue, hc⟩ := hencodes.assignment hliteral
    cases hc
    exact ⟨e, he, hp.finite_inj _ _ _ hvar hv, hvalue⟩
  · -- propositions are placed elsewhere
    by_cases hfalse : e.value = .falsity
    · obtain ⟨f, hf, hc⟩ := hencodes.deletion hliteral hfalse
      split at hc
      · cases hc
      · cases hc
        exact absurd hv (hp.apart _ _ _ hf)
    · obtain ⟨f, hf, hc⟩ := hencodes.addition hliteral hfalse
      cases hc
      exact absurd hv (hp.apart _ _ _ hf)

/-- On variables over objects, encoded effects do what the effects do. -/
theorem apply_of_finite? (hes : AreProper enc es) {v : VarId} {var : Nat}
    (hv : enc.placement.finite? v = some var) :
    (enc.stateOf T x).apply cs var = enc.stateOf T (x.apply es) var := by
  have hliteral : enc.isLiteral v = false := (hp.finite v var hv).2
  rw [stateOf_of_finite? hp hv]
  by_cases heffect : ∃ e ∈ es, e.var = v
  · obtain ⟨e, he, rfl⟩ := heffect
    obtain ⟨c?, hencodes, hmem⟩ := hcs.complete he
    obtain ⟨var', value, hvar, hvalue, rfl⟩ := hencodes.assignment hliteral
    rw [hv] at hvar
    cases hvar
    -- another encoded effect on the variable comes from the same effect
    have hlast := (enc.stateOf T x).apply_eq_of_unique (hmem _ rfl) fun d hd hdvar => by
      have hdvar : d.var = var := hdvar
      rw [← hdvar] at hv
      obtain ⟨e', he', hsame, hvalue'⟩ := exists_effect_of_finite? hp hcs hv hd
      rw [hes.single e' he' e he hsame, hvalue] at hvalue'
      exact (Option.some.inj hvalue').symm
    rw [hes.apply_eq he, Option.bind_some, hvalue]
    exact hlast
  · have hne : ∀ c ∈ cs, c.var ≠ var := fun c hc hcvar => by
      subst hcvar
      obtain ⟨e, he, hsame, -⟩ := exists_effect_of_finite? hp hcs hv hc
      exact heffect ⟨e, he, hsame⟩
    rw [(enc.stateOf T x).apply_of_forall_ne hne, stateOf_of_finite? hp hv,
      x.apply_of_forall_ne fun e he hsame => heffect ⟨e, he, hsame⟩]

omit hp in
/-- An encoded effect on another variable comes from an addition or a deletion. -/
theorem exists_effect_of_not_finite {c : Condition}
    (hfinite : ∀ v, enc.placement.finite? v ≠ some c.var) (hc : c ∈ cs) :
    ∃ e ∈ es, enc.IsIn e.var c.var ∧
      ((e.value ≠ .falsity ∧ (enc.placement.fact? e.var).map FactCode.value = some c.value) ∨
        (e.value = .falsity ∧ es.any (enc.adds c.var e.var) = false ∧
          c.value = T.restingValue c.var)) := by
  obtain ⟨e, he, hencodes⟩ := hcs.sound hc
  cases hliteral : enc.isLiteral e.var
  · obtain ⟨var, value, hvar, -, hc⟩ := hencodes.assignment hliteral
    cases hc
    exact absurd hvar (hfinite _)
  · by_cases hfalse : e.value = .falsity
    · obtain ⟨f, hf, hc⟩ := hencodes.deletion hliteral hfalse
      split at hc
      · cases hc
      next hadds =>
        cases hc
        exact ⟨e, he, isIn_of_fact? hliteral hf, Or.inr ⟨hfalse, Bool.eq_false_iff.mpr hadds, rfl⟩⟩
    · obtain ⟨f, hf, hc⟩ := hencodes.addition hliteral hfalse
      cases hc
      exact ⟨e, he, isIn_of_fact? hliteral hf, Or.inl ⟨hfalse, by rw [hf]; rfl⟩⟩

omit hp in
/-- A variable none of whose propositions has an effect keeps its value. -/
theorem apply_of_untouched {var : Nat} (hfinite : ∀ v, enc.placement.finite? v ≠ some var)
    (huntouched : ∀ v, enc.IsIn v var → ∀ e ∈ es, e.var ≠ v) (X : Valuation) :
    X.apply cs var = X var := by
  refine X.apply_of_forall_ne fun c hc hcvar => ?_
  subst hcvar
  obtain ⟨e, he, hin, -⟩ := exists_effect_of_not_finite hcs hfinite hc
  exact huntouched _ hin e he rfl

/-- A variable to which a proposition is added has its value afterwards. -/
theorem apply_of_adds (hes : AreProper enc es) (hy : enc.IsConsistent (x.apply es)) {var : Nat}
    (hadds : enc.Adds es var) :
    (enc.stateOf T x).apply cs var = enc.stateOf T (x.apply es) var := by
  obtain ⟨e, he, hin, htruth⟩ := hadds
  obtain ⟨f, hf, rfl⟩ := hin.exists_fact
  have htrue : ∀ {d}, d ∈ es → d.value = .truth → (x.apply es).IsTrue d.var := fun hd htruth => by
    rw [Grounded.Valuation.IsTrue, hes.apply_eq hd, htruth]
  have hnotFalse : e.value ≠ .falsity := by
    rw [htruth]
    decide
  obtain ⟨c?, hencodes, hmem⟩ := hcs.complete he
  obtain ⟨f', hf', rfl⟩ := hencodes.addition hin.1 hnotFalse
  rw [hf] at hf'
  cases hf'
  rw [stateOf_of_isTrue hp hy hin.1 hf (htrue he htruth)]
  refine (enc.stateOf T x).apply_eq_of_unique (hmem _ rfl) fun d hd hdvar => ?_
  have hdvar : d.var = f.var := hdvar
  have hfinite : ∀ v, enc.placement.finite? v ≠ some d.var := fun v => by
    rw [hdvar]
    exact hp.apart _ v f hf
  obtain ⟨e', he', hin', ⟨hvalue', hdvalue⟩ | ⟨hvalue', hnone, -⟩⟩ :=
    exists_effect_of_not_finite hcs hfinite hd
  · -- two additions to one variable are the same
    rw [hdvar] at hin'
    have htruth' := (hes.truthValue e' he' hin'.1).resolve_right hvalue'
    rw [hy _ _ _ hin' hin (htrue he' htruth') (htrue he htruth), hf] at hdvalue
    exact (Option.some.inj hdvalue).symm
  · -- a deletion would have been left out
    refine absurd (any_adds_iff.mpr ⟨e, he, hdvar ▸ hin, htruth, fun hsame => ?_⟩)
      (Bool.eq_false_iff.mp hnone)
    rw [hes.single e he e' he' hsame] at hnotFalse
    exact hnotFalse hvalue'

/-- A variable to which no proposition is added rests if one of its propositions is deleted. -/
theorem apply_of_deletes (hes : AreProper enc es) {var : Nat} (hadds : ¬enc.Adds es var)
    (hdeletes : enc.Deletes es var) :
    (enc.stateOf T x).apply cs var = some (T.restingValue var) := by
  obtain ⟨e, he, hin, hfalse⟩ := hdeletes
  obtain ⟨f, hf, rfl⟩ := hin.exists_fact
  have hnone : ∀ v, ¬es.any (enc.adds f.var v) = true := fun v hany => by
    obtain ⟨d, hd, hdin, htruth, -⟩ := any_adds_iff.mp hany
    exact hadds ⟨d, hd, hdin, htruth⟩
  obtain ⟨c?, hencodes, hmem⟩ := hcs.complete he
  obtain ⟨f', hf', rfl⟩ := hencodes.deletion hin.1 hfalse
  rw [hf] at hf'
  cases hf'
  rw [if_neg (hnone _)] at hmem
  -- all effects on the variable come from deletions, so all of them are the same
  refine (enc.stateOf T x).apply_eq_of_unique (hmem _ rfl) fun d hd hdvar => ?_
  have hdvar : d.var = f.var := hdvar
  have hfinite : ∀ v, enc.placement.finite? v ≠ some d.var := fun v => by
    rw [hdvar]
    exact hp.apart _ v f hf
  obtain ⟨e', he', hin', ⟨hvalue', -⟩ | ⟨-, -, hdvalue⟩⟩ :=
    exists_effect_of_not_finite hcs hfinite hd
  · rw [hdvar] at hin'
    exact absurd ⟨e', he', hin', (hes.truthValue e' he' hin'.1).resolve_right hvalue'⟩ hadds
  · rw [hdvalue, hdvar]
    rfl

/-- Without additions and deletions of its propositions, a variable stays as it is. -/
theorem apply_of_not_adds (hes : AreProper enc es) (hx : enc.IsConsistent x)
    (hy : enc.IsConsistent (x.apply es)) {var : Nat} (hlt : var < T.vars.size)
    (hfinite : ∀ v, enc.placement.finite? v ≠ some var) (hadds : ¬enc.Adds es var)
    (hdeletes : ¬enc.Deletes es var) :
    (enc.stateOf T x).apply cs var = enc.stateOf T (x.apply es) var := by
  have huntouched : ∀ v, enc.IsIn v var → ∀ e ∈ es, e.var ≠ v := by
    rintro v hin e he rfl
    rcases hes.truthValue e he hin.1 with htruth | hfalse
    · exact hadds ⟨e, he, hin, htruth⟩
    · exact hdeletes ⟨e, he, hin, hfalse⟩
  have hsame : ∀ v, enc.IsIn v var → ((x.apply es).IsTrue v ↔ x.IsTrue v) := fun v hin => by
    rw [Grounded.Valuation.IsTrue, x.apply_of_forall_ne (huntouched v hin)]
    rfl
  rw [apply_of_untouched hcs hfinite huntouched]
  -- the same proposition of the variable is true before and after, or none is
  by_cases htrue : ∃ v, enc.IsIn v var ∧ x.IsTrue v
  · obtain ⟨v, hin, htrue⟩ := htrue
    obtain ⟨f, hf, rfl⟩ := hin.exists_fact
    rw [stateOf_of_isTrue hp hx hin.1 hf htrue,
      stateOf_of_isTrue hp hy hin.1 hf ((hsame v hin).mpr htrue)]
  · rw [stateOf_of_forall_not hlt hfinite fun v hin hv => htrue ⟨v, hin, hv⟩,
      stateOf_of_forall_not hlt hfinite fun v hin hv => htrue ⟨v, hin, (hsame v hin).mp hv⟩]

/-- Effects do not give values to variables that do not exist. -/
theorem apply_of_size_le {var : Nat} (hge : T.vars.size ≤ var)
    (hfinite : ∀ v, enc.placement.finite? v ≠ some var) :
    (enc.stateOf T x).apply cs var = enc.stateOf T (x.apply es) var := by
  have huntouched : ∀ v, enc.IsIn v var → ∀ e ∈ es, e.var ≠ v := by
    rintro v hin e - rfl
    obtain ⟨f, hf, rfl⟩ := hin.exists_fact
    exact absurd (hp.fact _ f hf).1 (Nat.not_lt_of_le hge)
  have hnone : ∀ y, enc.stateOf T y var = none := fun y => by
    rw [stateOf, Array.getElem?_eq_none hge]
    rfl
  rw [apply_of_untouched hcs hfinite huntouched, hnone, hnone]

/-- When a proposition of a variable is deleted and none is added, the variable is encoded as it is
if and only if it is boolean or has no true proposition left. -/
theorem apply_of_deletes_iff (hes : AreProper enc es) (hy : enc.IsConsistent (x.apply es))
    {var : Nat} (hadds : ¬enc.Adds es var) (hdeletes : enc.Deletes es var) :
    (enc.stateOf T x).apply cs var = enc.stateOf T (x.apply es) var ↔
      T.isBooleanAt var = false → ∀ v, enc.IsIn v var → ¬(x.apply es).IsTrue v := by
  rw [apply_of_deletes hp hcs hes hadds hdeletes]
  obtain ⟨e, he, hin, hfalse⟩ := hdeletes
  obtain ⟨f, hf, rfl⟩ := hin.exists_fact
  have hfinite : ∀ v, enc.placement.finite? v ≠ some f.var := fun v => hp.apart _ v f hf
  have hlt := (hp.fact _ f hf).1
  constructor
  · intro heq hshared v hinv htrue
    obtain ⟨g, hg, hvar⟩ := hinv.exists_fact
    have hstate := stateOf_of_isTrue hp hy hinv.1 hg htrue
    rw [hvar, ← heq, Task.restingValue, hshared, if_neg Bool.false_ne_true] at hstate
    rcases (hp.fact v g hg).2 with ⟨hboolean, -⟩ | ⟨-, hvalue⟩
    · rw [hvar, hshared] at hboolean
      cases hboolean
    · -- the value of a proposition is not the one for none of them
      exact (value_ne_of_varName _ hp.reserved hvalue).2.2 (Option.some.inj hstate).symm
  · intro hcleared
    refine (stateOf_of_forall_not hlt hfinite fun v hinv htrue => ?_).symm
    cases hboolean : T.isBooleanAt f.var
    · exact hcleared hboolean v hinv htrue
    · -- the only proposition of the variable is the deleted one
      obtain ⟨g, hg, hvar⟩ := hinv.exists_fact
      have hsame := hp.alone _ v f g hf hg hvar.symm hboolean
      rw [← hsame, Grounded.Valuation.IsTrue, hes.apply_eq he, hfalse] at htrue
      cases htrue

/-- **Encoded effects do to the encoding what the effects do to the valuation**, if and only if no
shared variable is cleared that has a true proposition left. -/
theorem apply_effects_eq_iff (hes : AreProper enc es) (hx : enc.IsConsistent x)
    (hy : enc.IsConsistent (x.apply es)) :
    (enc.stateOf T x).apply cs = enc.stateOf T (x.apply es) ↔ enc.IsCleared T es (x.apply es) := by
  constructor
  · intro heq var hshared hdeletes hadds
    exact (apply_of_deletes_iff hp hcs hes hy hadds hdeletes).mp (congrFun heq var) hshared
  · -- by what happens to a variable: it is over objects, added to, deleted from or left alone
    intro hcleared
    funext var
    by_cases hfinite : ∃ v, enc.placement.finite? v = some var
    · obtain ⟨v, hv⟩ := hfinite
      exact apply_of_finite? hp hcs hes hv
    have hfinite : ∀ v, enc.placement.finite? v ≠ some var := fun v hv => hfinite ⟨v, hv⟩
    by_cases hadds : enc.Adds es var
    · exact apply_of_adds hp hcs hes hy hadds
    by_cases hdeletes : enc.Deletes es var
    · exact (apply_of_deletes_iff hp hcs hes hy hadds hdeletes).mpr fun hshared =>
        hcleared var hshared hdeletes hadds
    by_cases hlt : var < T.vars.size
    · exact apply_of_not_adds hp hcs hes hx hy hlt hfinite hadds hdeletes
    · exact apply_of_size_le hp hcs (Nat.le_of_not_lt hlt) hfinite

end OneVariable

end Encoder

end TemporalPlanning.Encoding
