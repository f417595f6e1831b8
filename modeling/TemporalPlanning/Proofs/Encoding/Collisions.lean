import TemporalPlanning.Proofs.Encoding.Simulation
/-!
Which variables an encoded action sets twice.

Propositions that share a variable are mutex, and propositions that an action adds together are not
mutex once the computation has applied the action. So additions do not collide. A deletion gives way
to an addition to the same variable, but not to another deletion: an action that deletes two
propositions of a shared variable, and adds none, sets the variable twice, to none of them.
-/
set_option autoImplicit false

namespace TemporalPlanning.Encoding

open FiniteDomain

/-! ## The variables that are set -/

namespace Encoder

variable (enc : Encoder)

/-- The variable that an effect sets when it is encoded together with others. -/
def setVar? (together : List Grounded.Condition) (e : Grounded.Condition) : Option Nat :=
  if enc.isLiteral e.var then
    (enc.placeOf e.var).filter fun var =>
      e.value != .falsity || !together.any (enc.adds var e.var)
  else enc.placement.finite? e.var

/-- Propositions that effects add are placed in different variables. -/
def AddsApart (es : List Grounded.Condition) : Prop :=
  ∀ e ∈ es, ∀ d ∈ es, ∀ var, enc.IsIn e.var var → enc.IsIn d.var var →
    e.value ≠ .falsity → d.value ≠ .falsity → e.var = d.var

/-- A proposition is deleted from a variable to which none is added only if there is no other effect
on the variable. -/
def DeletesApart (es : List Grounded.Condition) : Prop :=
  ∀ e ∈ es, ∀ d ∈ es, ∀ var, enc.IsIn e.var var → enc.IsIn d.var var →
    e.value = .falsity → ¬enc.Adds es var → e.var = d.var

/-- Encoded effects set each variable once, exactly when neither additions nor deletions collide. -/
def SetsOnce (es : List Grounded.Condition) (cs : List Condition) : Prop :=
  (cs.map (·.var)).Nodup ↔ enc.AddsApart es ∧ enc.DeletesApart es

variable {enc} {T : Task} {together es : List Grounded.Condition} {cs : List Condition}

/-- What an effect is encoded as sets this variable. -/
theorem EncodesEffect.map_var {e : Grounded.Condition} {c? : Option Condition}
    (h : enc.EncodesEffect T together e c?) : c?.map (·.var) = enc.setVar? together e := by
  unfold setVar?
  cases hliteral : enc.isLiteral e.var
  · obtain ⟨var, value, hvar, -, rfl⟩ := h.assignment hliteral
    exact hvar.symm
  rw [if_pos rfl]
  by_cases hfalse : e.value = .falsity
  · obtain ⟨f, hf, rfl⟩ := h.deletion hliteral hfalse
    rw [placeOf, hf, hfalse]
    cases hany : together.any (enc.adds f.var e.var) <;>
      simp [Option.filter, hany, Condition.plain]
  · obtain ⟨f, hf, rfl⟩ := h.addition hliteral hfalse
    rw [placeOf, hf]
    simp [Option.filter, hfalse, Condition.plain]

theorem EncodesEffects.map_var (h : enc.EncodesEffects T together es cs) :
    cs.map (·.var) = es.filterMap (enc.setVar? together) := by
  obtain ⟨results, hresults, rfl⟩ := h
  induction hresults with
  | nil => rfl
  | cons hhead _ ih =>
    rw [List.flatMap_cons, List.map_append, List.filterMap_cons, ← hhead.map_var, ih]
    rename_i c? _ _ _
    cases c? <;> rfl

end Encoder

/-- What is collected from different elements is different if no two of them give the same. -/
theorem nodup_filterMap_iff {α β : Type} {f : α → Option β} {l : List α} (hl : l.Nodup) :
    (l.filterMap f).Nodup ↔ ∀ a ∈ l, ∀ b ∈ l, ∀ c, f a = some c → f b = some c → a = b := by
  rw [List.Nodup, List.pairwise_filterMap]
  constructor
  · intro h a ha b hb c hac hbc
    have : Std.Symm fun a a' => ∀ c, f a = some c → ∀ c', f a' = some c' → c ≠ c' :=
      ⟨fun _ _ hdifferent c hc c' hc' => (hdifferent c' hc' c hc).symm⟩
    by_contra hne
    exact h.forall ha hb hne c hac c hbc rfl
  · intro h
    refine hl.pairwise_of_forall_ne fun a ha b hb hne c hac c' hbc' heq => hne ?_
    exact h a ha b hb c hac (heq ▸ hbc')

namespace Encoder

/-! ## Collisions -/

section Collisions

variable {enc : Encoder} {T : Task} {es : List Grounded.Condition} {cs : List Condition}

theorem setVar?_eq_some_iff {e : Grounded.Condition} {var : Nat} :
    enc.setVar? es e = some var ↔
      (enc.IsIn e.var var ∧ (e.value = .falsity → es.any (enc.adds var e.var) = false)) ∨
        (enc.isLiteral e.var = false ∧ enc.placement.finite? e.var = some var) := by
  unfold setVar? IsIn placeOf
  cases hliteral : enc.isLiteral e.var
  · simp
  · rw [if_pos rfl, Option.filter_eq_some_iff]
    simp [imp_iff_not_or]

variable (hp : IsPlacement enc.grounded enc.isProposition enc.placement T)
  (hes : (es.map (·.var)).Nodup)
include hes

/-- An effect that deletes a proposition is encoded if nothing is added to the variable. -/
theorem any_adds_eq_false_iff {e : Grounded.Condition} (he : e ∈ es) (hfalse : e.value = .falsity)
    {var : Nat} : es.any (enc.adds var e.var) = false ↔ ¬enc.Adds es var := by
  rw [← Bool.not_eq_true, any_adds_iff, not_iff_not]
  constructor
  · rintro ⟨d, hd, hin, htruth, -⟩
    exact ⟨d, hd, hin, htruth⟩
  · rintro ⟨d, hd, hin, htruth⟩
    refine ⟨d, hd, hin, htruth, fun hsame => ?_⟩
    -- the same variable would be deleted and added
    rw [List.inj_on_of_nodup_map hes hd he hsame, hfalse] at htruth
    cases htruth

include hp

/-- **Encoded effects set a variable twice** if and only if additions or deletions collide. -/
theorem EncodesEffects.setsOnce (hcs : enc.EncodesEffects T es es cs) : enc.SetsOnce es cs := by
  rw [SetsOnce, hcs.map_var, nodup_filterMap_iff (List.Nodup.of_map _ hes)]
  have hset : ∀ {e : Grounded.Condition} {var : Nat}, e ∈ es → enc.IsIn e.var var →
      (e.value = .falsity → ¬enc.Adds es var) → enc.setVar? es e = some var :=
    fun he hin hdeleted => setVar?_eq_some_iff.mpr (Or.inl ⟨hin, fun hfalse =>
      (any_adds_eq_false_iff hes he hfalse).mpr (hdeleted hfalse)⟩)
  constructor
  · intro h
    refine ⟨fun e he d hd var hein hdin hevalue hdvalue => ?_,
      fun e he d hd var hein hdin _ hnone => ?_⟩
    · rw [h e he d hd var (hset he hein fun hfalse => absurd hfalse hevalue)
        (hset hd hdin fun hfalse => absurd hfalse hdvalue)]
    · rw [h e he d hd var (hset he hein fun _ => hnone) (hset hd hdin fun _ => hnone)]
  · rintro ⟨hadds, hdeletes⟩ e he d hd var hevar hdvar
    refine List.inj_on_of_nodup_map hes he hd ?_
    rw [setVar?_eq_some_iff] at hevar hdvar
    -- propositions and variables over objects are never placed in one variable
    rcases hevar with ⟨hein, he'⟩ | ⟨-, hefinite⟩ <;> rcases hdvar with ⟨hdin, hd'⟩ | ⟨-, hdfinite⟩
    · by_cases hefalse : e.value = .falsity
      · exact hdeletes e he d hd var hein hdin hefalse
          ((any_adds_eq_false_iff hes he hefalse).mp (he' hefalse))
      by_cases hdfalse : d.value = .falsity
      · exact (hdeletes d hd e he var hdin hein hdfalse
          ((any_adds_eq_false_iff hes hd hdfalse).mp (hd' hdfalse))).symm
      · exact hadds e he d hd var hein hdin hefalse hdfalse
    · obtain ⟨f, hf, rfl⟩ := hein.exists_fact
      exact absurd hdfinite (hp.apart _ _ f hf)
    · obtain ⟨f, hf, rfl⟩ := hdin.exists_fact
      exact absurd hefinite (hp.apart _ _ f hf)
    · exact hp.finite_inj _ _ var hefinite hdfinite

end Collisions

end Encoder

/-! ## Additions of actions that have been applied -/

section Fired

variable {t : Grounded.Task} {limit : Nat} {a : Grounded.Action}

/-- Propositions that a time point of an action adds do not share a variable if none of them are
mutex. -/
theorem addsApart_of_pairwise {p : Placement} {T : Task}
    (hshares : SharesAmong t (Mutex.fixpoint t limit).mutex.Lists p T)
    {es : List Grounded.Condition}
    (hproper : ∀ e ∈ es, t.isProposition e.var = true → e.value = .truth ∨ e.value = .falsity)
    (ht : t.IsNumbered) (hpairs : (Mutex.added (Mutex.propositions t) es).Pairwise fun v w =>
      (Mutex.fixpoint t limit).mutex.contains v w = false) :
    Encoder.AddsApart ⟨t, Mutex.propositions t, p⟩ es := by
  intro e he d hd var hein hdin hevalue hdvalue
  have hadded : ∀ {e}, e ∈ es → e.value ≠ .falsity →
      Encoder.IsIn ⟨t, Mutex.propositions t, p⟩ e.var var →
        e.var ∈ Mutex.added (Mutex.propositions t) es := fun he hvalue hin => by
    have hproposition := (Mutex.isMarked_propositions ht _).mp hin.1
    exact (Mutex.mem_added ht).mpr
      ⟨hproposition, _, he, rfl, (hproper _ he hproposition).resolve_right hvalue⟩
  obtain ⟨f, hf, hfvar⟩ := hein.exists_fact
  obtain ⟨g, hg, hgvar⟩ := hdin.exists_fact
  refine (hshares.shared _ _ f g hf hg (hfvar.trans hgvar.symm)).resolve_right fun hlists => ?_
  have hmutex := ((Mutex.isOver_fixpoint t limit).contains_iff _ _).mpr hlists
  have hne := ((Mutex.isOver_fixpoint t limit).of_contains hmutex).1
  have : Std.Symm fun v w => (Mutex.fixpoint t limit).mutex.contains v w = false :=
    ⟨fun v w h => (Mutex.Relation.contains_comm _ w v).trans h⟩
  rw [hpairs.forall (hadded he hevalue hein) (hadded hd hdvalue hdin) hne] at hmutex
  cases hmutex

/-- What the computation has applied adds propositions that are not mutex. -/
theorem pairwise_of_fired (ht : t.IsOrderly) (ha : a ∈ t.actions)
    (hfired : (Mutex.fixpoint t limit).fired.getD a.index false = true) :
    ((Mutex.added (Mutex.propositions t) a.startEffects).Pairwise fun v w =>
      (Mutex.fixpoint t limit).mutex.contains v w = false) ∧
    (Mutex.added (Mutex.propositions t) a.endEffects).Pairwise fun v w =>
      (Mutex.fixpoint t limit).mutex.contains v w = false := by
  obtain ⟨i, hi⟩ := List.mem_iff_getElem?.mp ha
  rw [ht.actions i a hi] at hfired
  have htogether := ((Mutex.betweenPasses_fixpoint t limit).recorded.fired a i
    (List.mk_mem_zipIdx_iff_getElem?.mpr hi) hfired).2
  exact ⟨htogether.atStart, htogether.atEnd⟩

end Fired

/-- **An encoded action sets a variable twice** at one time point if and only if additions to the
variable collide, or deletions from it while nothing is added. Additions that make propositions true
do not collide if the mutex computation has applied the action. -/
theorem encode_sets_once {p : Lifted.Problem} {keepStatic : Bool} {t : Grounded.Task}
    (hground : Grounding.ground p keepStatic = .ok t)
    (hsingle : ∀ a ∈ t.actions,
      (a.startEffects.map (·.var)).Nodup ∧ (a.endEffects.map (·.var)).Nodup)
    {o : Options} {T : Task} (hencode : (encode t o).result = .ok T) :
    ∃ enc, encoderOf t o = .ok enc ∧
      List.Forall₂ (fun a b => enc.SetsOnce a.startEffects b.startEffects ∧
        enc.SetsOnce a.endEffects b.endEffects) (keptActions t o) T.actions.toList ∧
      ∀ a ∈ t.actions, (Mutex.fixpoint t o.passLimit).fired.getD a.index false = true →
        (∀ e ∈ a.effects, t.isProposition e.var = true →
          e.value = .truth ∨ e.value = .falsity) →
        enc.AddsApart a.startEffects ∧ enc.AddsApart a.endEffects := by
  have ht := Grounding.ground_isOrderly hground
  obtain ⟨places, hencoder, hp, hshares, hactions⟩ := encode_eq_ok hencode
  refine ⟨_, hencoder, ?_, fun a ha hfired hproper => ?_⟩
  · have hkept : ∀ a ∈ keptActions t o,
        (a.startEffects.map (·.var)).Nodup ∧ (a.endEffects.map (·.var)).Nodup :=
      fun a ha => hsingle a (List.mem_filter.mp ha).1
    refine ((List.forall₂_and_left _ _).mpr ⟨hkept, hactions⟩).imp fun a b ⟨hsingle, hb⟩ => ?_
    exact ⟨hb.startEffects.setsOnce hp hsingle.1, hb.endEffects.setsOnce hp hsingle.2⟩
  · obtain ⟨hstart, hend⟩ := pairwise_of_fired ht ha hfired
    exact ⟨addsApart_of_pairwise hshares
        (fun e he => hproper e (List.mem_append_left _ he)) ht.numbered hstart,
      addsApart_of_pairwise hshares
        (fun e he => hproper e (List.mem_append_right _ he)) ht.numbered hend⟩

section Decidability

variable (enc : Encoder) (es : List Grounded.Condition)

instance : Decidable (enc.AddsApart es) :=
  decidable_of_iff (∀ e ∈ es, ∀ d ∈ es, ∀ var ∈ (enc.placeOf e.var).toList,
    enc.IsIn e.var var → enc.IsIn d.var var → e.value ≠ .falsity → d.value ≠ .falsity →
      e.var = d.var)
    ⟨fun h e he d hd var hein => h e he d hd var (Option.mem_toList.mpr hein.2) hein,
      fun h e he d hd var _ => h e he d hd var⟩

instance : Decidable (enc.DeletesApart es) :=
  decidable_of_iff (∀ e ∈ es, ∀ d ∈ es, ∀ var ∈ (enc.placeOf e.var).toList,
    enc.IsIn e.var var → enc.IsIn d.var var → e.value = .falsity → ¬enc.Adds es var →
      e.var = d.var)
    ⟨fun h e he d hd var hein => h e he d hd var (Option.mem_toList.mpr hein.2) hein,
      fun h e he d hd var _ => h e he d hd var⟩

end Decidability

open Lifted in
/-- Brings a parcel from here to there. -/
def bring : Operator :=
  .ofHappenings "bring"
    ⟨[.ofProposition 0 .truth], [], [.ofProposition 0 .falsity, .ofProposition 1 .truth], []⟩ .empty

open Lifted in
/-- Loses a parcel, which is then neither here nor there. -/
def lose : Operator :=
  .ofHappenings "lose"
    ⟨[.ofProposition 0 .truth], [], [.ofProposition 0 .falsity, .ofProposition 1 .falsity], []⟩
    .empty

/-- A parcel is here at the beginning. -/
def bringing (operators : List Lifted.Operator) : Lifted.Problem :=
  ⟨.ofPropositions ["here", "there"] [0], operators⟩

/-- Bringing the parcel there sets the one variable once. -/
theorem bring_sets_once : ∃ (t : Grounded.Task) (T : Task),
    Grounding.ground (bringing [bring]) false = .ok t ∧ (encode t {}).result = .ok T ∧
      T.vars.size = 1 ∧ ∃ ab ∈ (keptActions t {}).zip T.actions.toList,
        ab.1.startEffects.length = 2 ∧ (ab.2.startEffects.map (·.var)).Nodup := by
  have hrun : ∃ t ∈ (Grounding.ground (bringing [bring]) false).toOption,
      (∀ a ∈ t.actions,
        (a.startEffects.map (·.var)).Nodup ∧ (a.endEffects.map (·.var)).Nodup) ∧
      ∃ T ∈ (encode t {}).result.toOption, T.vars.size = 1 ∧
        ∃ enc ∈ (encoderOf t {}).toOption, ∃ ab ∈ (keptActions t {}).zip T.actions.toList,
          ab.1.startEffects.length = 2 ∧ enc.AddsApart ab.1.startEffects ∧
          enc.DeletesApart ab.1.startEffects := by
    decide +kernel
  obtain ⟨t, ht, hsingle, T, hT, hsize, enc, henc, ab, hab, hlength, hapart⟩ := hrun
  have hground := Grounding.eq_ok_of_mem_toOption ht
  have hencode := Grounding.eq_ok_of_mem_toOption hT
  obtain ⟨enc', hencoder, hactions, -⟩ := encode_sets_once hground hsingle hencode
  rw [Grounding.eq_ok_of_mem_toOption henc] at hencoder
  cases hencoder
  have honce := (List.forall₂_zip hactions hab).1
  exact ⟨t, T, hground, hencode, hsize, ab, hab, hlength, honce.mpr hapart⟩

/-- Losing the parcel sets the one variable twice: that it is here is deleted, and that it is
there. -/
theorem exists_set_twice : ∃ (t : Grounded.Task) (T : Task),
    Grounding.ground (bringing [bring, lose]) false = .ok t ∧
      (∀ a ∈ t.actions,
        (a.startEffects.map (·.var)).Nodup ∧ (a.endEffects.map (·.var)).Nodup) ∧
      (encode t {}).result = .ok T ∧ ∃ b ∈ T.actions.toList,
        b.startEffects = [.plain 0 .undefined, .plain 0 .undefined] := by
  have hrun : ∃ t ∈ (Grounding.ground (bringing [bring, lose]) false).toOption,
      (∀ a ∈ t.actions,
        (a.startEffects.map (·.var)).Nodup ∧ (a.endEffects.map (·.var)).Nodup) ∧
      ∃ T ∈ (encode t {}).result.toOption, ∃ b ∈ T.actions.toList,
        b.startEffects = [.plain 0 .undefined, .plain 0 .undefined] := by
    decide +kernel
  obtain ⟨t, ht, hsingle, T, hT, htwice⟩ := hrun
  exact ⟨t, T, Grounding.eq_ok_of_mem_toOption ht, hsingle, Grounding.eq_ok_of_mem_toOption hT,
    htwice⟩

end TemporalPlanning.Encoding
