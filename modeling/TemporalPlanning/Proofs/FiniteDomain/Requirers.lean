import TemporalPlanning.Proofs.FiniteDomain.Creation
import TemporalPlanning.Proofs.FiniteDomain.Derived
/-!
Which actions require a fact.

Conditions and effects are pairs of a variable and a value, the indexes of a task have codes of such
pairs as their keys. Wherever an index could be built, all pairs could be packed, so that its entry
for a code tells which actions have the fact with this code among their conditions.
-/
set_option autoImplicit false

namespace TemporalPlanning.FiniteDomain

/-! ## Facts among conditions -/

namespace FactCode

/-- A fact is one of some conditions or effects. -/
def IsAmong (f : FactCode) (cs : List Condition) : Prop :=
  ∃ c ∈ cs, c.var = f.var ∧ c.value = f.value

instance (f : FactCode) (cs : List Condition) : Decidable (f.IsAmong cs) :=
  inferInstanceAs (Decidable (∃ c ∈ cs, _))

theorem not_isAmong_nil (f : FactCode) : ¬f.IsAmong [] := by
  rintro ⟨c, hc, -⟩
  exact List.not_mem_nil hc

/-- The first of some conditions that can be packed is the fact with its code. -/
theorem isAmong_cons {f g : FactCode} {c : Condition} {cs : List Condition} (hc : c.fact = .ok g) :
    f.IsAmong (c :: cs) ↔ f = g ∨ f.IsAmong cs := by
  obtain ⟨hvar, hvalue⟩ := pack_eq_ok hc
  have hfirst : (c.var = f.var ∧ c.value = f.value) ↔ f = g := by
    rw [← hvar, ← hvalue]
    constructor
    · rintro ⟨hv, hx⟩
      exact ext_of_parts hv.symm hx.symm
    · rintro rfl
      exact ⟨rfl, rfl⟩
  rw [IsAmong, IsAmong, List.exists_mem_cons_iff, hfirst]

end FactCode

/-! ## Indexes of actions -/

namespace ActionIndex

variable {index index' : ActionIndex} {action n b : Nat}

theorem mem_actionsOf_add {f : FactCode} :
    b ∈ (index.add f action).actionsOf n ↔
      b ∈ index.actionsOf n ∨ ((⟨n⟩ : FactCode) = f ∧ b = action) := by
  have hcode : (⟨n⟩ : FactCode) = f ↔ f.code = n := by
    cases f
    rw [FactCode.mk.injEq]
    exact eq_comm
  rw [actionsOf, actionsOf, add, Std.TreeMap.getD_alter, hcode]
  by_cases hn : f.code = n
  · subst hn
    rw [if_pos (Std.compare_self), Std.TreeMap.getD_eq_getD_getElem?]
    cases index[f.code]? with
    | none => simp
    | some actions =>
      simp only [Option.getD_some, List.contains_iff_mem, true_and]
      split
      next hmem =>
        constructor
        · exact Or.inl
        · rintro (hb | rfl)
          · exact hb
          · exact hmem
      next => rw [List.mem_append, List.mem_singleton]
  · rw [if_neg (Std.compare_eq_iff_eq.not.mpr hn)]
    simp only [hn, false_and, or_false]

/-- An action is recorded for the facts among its conditions, or among its effects. -/
theorem mem_actionsOf_addAll {cs : List Condition} (h : index.addAll cs action = .ok index') :
    b ∈ index'.actionsOf n ↔
      b ∈ index.actionsOf n ∨ ((⟨n⟩ : FactCode).IsAmong cs ∧ b = action) := by
  induction cs generalizing index with
  | nil =>
    cases h
    simp only [FactCode.not_isAmong_nil, false_and, or_false]
  | cons c cs ih =>
    obtain ⟨next, hnext, hrest⟩ := Grounding.except_bind_eq_ok.mp h
    obtain ⟨f, hf, hadd⟩ := Grounding.except_bind_eq_ok.mp hnext
    cases hadd
    rw [ih hrest, mem_actionsOf_add, FactCode.isAmong_cons hf, or_and_right, or_assoc]

end ActionIndex

/-! ## Requirers -/

/-- The requirers of every fact are the actions that have it among their conditions. -/
def Task.HasRequirers (t : Task) : Prop :=
  ∀ n i, i ∈ t.requirers.actionsOf n ↔
    ∃ a ∈ t.actions, (⟨n⟩ : FactCode).IsAmong a.conditions ∧ i = a.index

theorem indexConditions_ensures (index : ActionIndex) (a : Action) (t : Task) :
    (indexConditions index a).Ensures t fun index' _ => ∀ n b, b ∈ index'.actionsOf n ↔
      b ∈ index.actionsOf n ∨ ((⟨n⟩ : FactCode).IsAmong a.conditions ∧ b = a.index) := by
  unfold indexConditions
  split
  next hempty =>
    refine Update.ensures_bind.mpr (Update.ensures_modify.mpr (Update.ensures_pure.mpr ?_))
    intro n b
    rw [List.isEmpty_iff.mp hempty]
    simp only [FactCode.not_isAmong_nil, false_and, or_false]
  next =>
    refine Update.ensures_lift.mpr fun index' hindex n b => ?_
    exact ActionIndex.mem_actionsOf_addAll hindex

theorem foldlM_indexConditions_ensures (actions : List Action) (index : ActionIndex) (t : Task) :
    (actions.foldlM indexConditions index).Ensures t fun index' _ => ∀ n b,
      b ∈ index'.actionsOf n ↔ b ∈ index.actionsOf n ∨
        ∃ a ∈ actions, (⟨n⟩ : FactCode).IsAmong a.conditions ∧ b = a.index := by
  induction actions generalizing index t with
  | nil =>
    refine Update.ensures_pure.mpr fun n b => ?_
    simp only [List.not_mem_nil, false_and, exists_false, or_false]
  | cons a actions ih =>
    rw [List.foldlM_cons, Update.ensures_bind]
    refine (indexConditions_ensures index a t).mono fun next t' hnext => ?_
    refine (ih next t').mono fun index' _ hindex n b => ?_
    rw [hindex, hnext, List.exists_mem_cons_iff, or_assoc]

theorem computeRequirers_ensures (t : Task) :
    computeRequirers.Ensures t fun _ t' => t'.actions = t.actions ∧ t'.HasRequirers := by
  have hclear : t.SameActions { t with unconditioned := #[] } := .of_eq rfl rfl rfl
  refine Update.ensures_bind.mpr (Update.ensures_modify.mpr ?_)
  refine Update.ensures_bind.mpr (Update.ensures_get.mpr (Update.ensures_bind.mpr ?_))
  have hsame := Update.ensures_foldlM (f := indexConditions) (l := t.actions.toList) (b := ∅)
    (I := fun _ t' => t.SameActions t') (fun index a _ t' ht' =>
      (indexConditions_sameActions index a t').mono fun _ _ ht'' => ht'.trans ht'') hclear
  have hindex := foldlM_indexConditions_ensures t.actions.toList ∅ { t with unconditioned := #[] }
  refine (hsame.and hindex).mono fun requirers t' h => Update.ensures_modify.mpr ?_
  refine ⟨h.1.actions, fun n i => ?_⟩
  rw [h.2 n i, ActionIndex.actionsOf, Std.TreeMap.getD_emptyc, h.1.actions]
  simp only [List.not_mem_nil, false_or, Array.mem_toList_iff]

end TemporalPlanning.FiniteDomain
