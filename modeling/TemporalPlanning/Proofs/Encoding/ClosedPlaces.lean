import TemporalPlanning.Proofs.Encoding.Frames
import TemporalPlanning.Proofs.Encoding.Placement
import TemporalPlanning.Proofs.FiniteDomain.ClosedTables
import TemporalPlanning.Proofs.FiniteDomain.InitialValues
/-!
Placing variables leaves closed tables.

A value is added to a domain when the object or the proposition it is named after is placed there.
Names of objects differ, and so do names of mutex propositions; hence the value is not in the domain
yet. What takes the place of a displaced value is not there yet either.
-/
set_option autoImplicit false

namespace TemporalPlanning.Encoding

open FiniteDomain

/-! ## Named values -/

/-- The values of a variable have names that are not among some others. -/
def HasOtherNames (T : Task) (var : Nat) (names : List String) : Prop :=
  ∀ x, T.vars[var]? = some x → ∀ value ∈ x.domain, ∃ name, name ∉ names ∧
    T.value? name = some value

section Naming

variable {T : Task} {var : Nat} {names : List String}

/-- A new variable has no values. -/
theorem hasOtherNames_of_push {x : Variable} (hvars : T.vars[var]? = some x)
    (hdomain : x.domain = []) (names : List String) : HasOtherNames T var names := by
  intro y hy value hvalue
  rw [Option.some.inj (hy.symm.trans hvars), hdomain] at hvalue
  cases hvalue

/-- A value that has one of the names is not in the domain. -/
theorem HasOtherNames.not_mem (h : HasOtherNames T var names) {x : Variable}
    (hx : T.vars[var]? = some x) {name : String} (hname : name ∈ names) {value : ValueId}
    (hvalue : T.value? name = some value) : value ∉ x.domain := by
  intro hmem
  obtain ⟨other, hother, hnamed⟩ := h x hx value hmem
  exact hother (Task.value?_inj hvalue hnamed ▸ hname)

/-- The value with the next name is added to the domain. -/
theorem addNamedValue_closedDomains (h : T.HasClosedDomains) {name : String}
    (hnames : HasOtherNames T var (name :: names)) (hnew : name ∉ names)
    (function : Option FunctionId) :
    (addNamedValue var name function).Ensures T fun _ T' =>
      T'.HasClosedDomains ∧ HasOtherNames T' var names := by
  refine Update.ensures_bind.mpr (((createValue_ensures name function T).and
    (createValue_closedDomains h name function)).mono ?_)
  rintro value T₁ ⟨⟨hgrows, hvalue, hvars⟩, h₁⟩
  -- creating the value leaves the names of the others alone
  have hnames₁ : HasOtherNames T₁ var (name :: names) := by
    intro x hx other hother
    rw [hvars] at hx
    obtain ⟨n, hn, hnamed⟩ := hnames x hx other hother
    exact ⟨n, hn, hgrows.values n other hnamed⟩
  refine Update.ensures_bind.mpr (Update.Ensures.mono (Update.Ensures.and
    (modifyVariable_closedDomains h₁ fun x hx hdomain => ⟨rfl, hdomain.addValue
      (hnames₁.not_mem hx List.mem_cons_self hvalue) (Task.lt_size_of_value? hvalue)⟩)
    (Update.ensures_modify.mpr ?_)) fun _ T₂ h₂ => Update.ensures_pure.mpr h₂)
  intro x hx other hother
  rw [Array.getElem?_modify, if_pos rfl] at hx
  obtain ⟨y, hy, rfl⟩ := Option.map_eq_some_iff.mp hx
  rcases List.mem_append.mp hother with hother | hother
  · obtain ⟨n, hn, hnamed⟩ := hnames₁ y hy other hother
    exact ⟨n, fun hmem => hn (List.mem_cons_of_mem _ hmem), hnamed⟩
  · rw [List.mem_singleton.mp hother]
    exact ⟨name, hnew, hvalue⟩

end Naming

/-! ## Variables over objects -/

/-- Objects with different names become the values of a variable. -/
theorem addObjects_closedDomains {T : Task} {var : Nat} {objects : List Lifted.ObjectEntry}
    (h : T.HasClosedDomains) (hnodup : (objects.map (·.name)).Nodup)
    (hnames : HasOtherNames T var (objects.map (·.name))) :
    Update.Ensures (objects.forM fun o => discard (addNamedValue var o.name none)) T
      fun _ T' => T'.HasClosedDomains := by
  induction objects generalizing T with
  | nil => exact Update.ensures_pure.mpr h
  | cons o objects ih =>
    obtain ⟨hnew, hrest⟩ := List.nodup_cons.mp hnodup
    refine Update.ensures_bind.mpr (Update.ensures_map.mpr ?_)
    exact (addNamedValue_closedDomains h hnames hnew none).mono fun _ T₁ h₁ => ih h₁.1 hrest h₁.2

section Placing

variable (t : Grounded.Task) {T : Task}

theorem placeVariable_closedDomains (hobjects : (t.task.objects.toList.map (·.name)).Nodup)
    (h : T.HasClosedDomains) (isProposition : Array Bool) (p : Placement) (v : Grounded.Variable) :
    (placeVariable t isProposition p v).Ensures T fun _ T' => T'.HasClosedDomains := by
  unfold placeVariable
  split
  · exact Update.ensures_bind.mpr ((createNumericVariable_closedDomains h _).mono fun _ T₁ h₁ =>
      Update.ensures_pure.mpr h₁)
  split
  · exact Update.ensures_pure.mpr h
  · refine Update.ensures_bind.mpr (((createVariable_ensures _ T).and
      (createVariable_closedDomains h _)).mono ?_)
    rintro var T₁ ⟨⟨-, rfl, -, hvars⟩, h₁⟩
    have hnew : T₁.vars[T.vars.size]? = some ⟨T.vars.size, t.varName v.index, [], []⟩ := by
      rw [hvars, Array.getElem?_push, if_pos rfl]
    -- the objects that the function can take are some of all
    have hnodup : ((objectsFor t v.function).map (·.name)).Nodup :=
      hobjects.sublist (List.filter_sublist.map _)
    exact Update.ensures_bind.mpr ((addObjects_closedDomains h₁ hnodup
      (hasOtherNames_of_push hnew rfl _)).mono fun _ T₂ h₂ => Update.ensures_pure.mpr h₂)

/-! ## Propositions -/

theorem placeBoolean_closedDomains (h : T.HasClosedDomains) (p : Placement) (v : VarId) :
    (placeBoolean t p v).Ensures T fun _ T' => T'.HasClosedDomains := by
  refine Update.ensures_bind.mpr (((createVariable_ensures _ T).and
    (createVariable_closedDomains h _)).mono ?_)
  rintro var T₁ ⟨⟨-, rfl, -, hvars⟩, h₁⟩
  refine Update.ensures_bind.mpr ((modifyVariable_closedDomains h₁ fun x hx hdomain => ?_).mono
    fun _ T₂ h₂ => Update.ensures_bind.mpr (Update.ensures_lift.mpr fun f _ =>
      Update.ensures_pure.mpr h₂))
  rw [hvars, Array.getElem?_push, if_pos rfl] at hx
  cases hx
  refine ⟨rfl, Variable.HasClosedDomain.addValue (hdomain.addValue List.not_mem_nil ?_) ?_ ?_⟩
  · exact Task.lt_size_of_value? h₁.reserved.falsity
  · show ValueId.truth ∉ [ValueId.falsity]
    decide
  · exact Task.lt_size_of_value? h₁.reserved.truth

/-- Propositions with different names become the values of a variable, none of which is the one for
none of them. -/
theorem placeMembers_closedDomains {var : Nat} {members : List VarId} (h : T.HasClosedDomains)
    (hmembers : members.Pairwise fun v w => t.varName v ≠ t.varName w)
    (hnames : HasOtherNames T var (members.map t.varName ++ ["<undefined>"])) (p : Placement) :
    Update.Ensures (members.foldlM (placeMember t var) p) T fun _ T' =>
      T'.HasClosedDomains ∧ HasOtherNames T' var ["<undefined>"] := by
  induction members generalizing p T with
  | nil => exact Update.ensures_pure.mpr ⟨h, hnames⟩
  | cons v members ih =>
    obtain ⟨hv, hrest⟩ := List.pairwise_cons.mp hmembers
    have hnew : t.varName v ∉ members.map t.varName ++ ["<undefined>"] := by
      intro hmem
      rcases List.mem_append.mp hmem with hmem | hmem
      · obtain ⟨w, hw, hname⟩ := List.mem_map.mp hmem
        exact hv w hw hname.symm
      · exact varName_ne t (by decide) (List.mem_singleton.mp hmem)
    rw [List.foldlM_cons]
    refine Update.ensures_bind.mpr (Update.ensures_bind.mpr
      ((addNamedValue_closedDomains h hnames hnew _).mono fun value T₁ h₁ => ?_))
    exact Update.ensures_bind.mpr (Update.ensures_lift.mpr fun f _ => Update.ensures_pure.mpr
      (ih h₁.1 hrest h₁.2 _))

theorem placeTogether_closedDomains (h : T.HasClosedDomains) (p : Placement) {g : Mutex.Group}
    (hg : g.propositions.Pairwise fun v w => t.varName v ≠ t.varName w) :
    (placeTogether t p g).Ensures T fun _ T' => T'.HasClosedDomains := by
  refine Update.ensures_bind.mpr (Update.ensures_bind.mpr (Update.ensures_get.mpr ?_))
  refine ((createVariable_ensures _ T).and (createVariable_closedDomains h _)).mono ?_
  rintro var T₁ ⟨⟨-, rfl, -, hvars⟩, h₁⟩
  have hnew : T₁.vars[T.vars.size]? = some ⟨T.vars.size, "var" ++ toString T.vars.size, [], []⟩ := by
    rw [hvars, Array.getElem?_push, if_pos rfl]
  refine Update.ensures_bind.mpr ((placeMembers_closedDomains t h₁ hg
    (hasOtherNames_of_push hnew rfl _) p).mono fun p' T₂ h₂ => ?_)
  dsimp only
  split
  · refine Update.ensures_bind.mpr ((modifyVariable_closedDomains h₂.1 fun x hx hdomain => ?_).mono
      fun _ T₃ h₃ => Update.ensures_pure.mpr h₃)
    have hundefined := h₂.2.not_mem hx List.mem_cons_self h₂.1.reserved.undefined
    exact ⟨rfl, hdomain.addValue hundefined h₂.1.reserved.lt_size⟩
  · exact Update.ensures_pure.mpr h₂.1

theorem placeGroup_closedDomains (h : T.HasClosedDomains) (isNegated : Array Bool) (p : Placement)
    {g : Mutex.Group} (hg : g.propositions.Pairwise fun v w => t.varName v ≠ t.varName w) :
    (placeGroup t isNegated p g).Ensures T fun _ T' => T'.HasClosedDomains := by
  unfold placeGroup
  split
  · exact placeBoolean_closedDomains t h p _
  split
  · refine Update.ensures_foldlM (fun p' v _ T' h' => ?_) h
    unfold placeIfMissing
    split
    · exact placeBoolean_closedDomains t h' p' v
    · exact Update.ensures_pure.mpr h'
  · exact placeTogether_closedDomains t h p hg

/-! ## Displaced values -/

theorem nodup_replace {α : Type} [BEq α] [LawfulBEq α] {a b : α} {l : List α} (h : l.Nodup)
    (hb : b ∉ l) : (l.replace a b).Nodup := by
  induction l with
  | nil => exact h
  | cons c l ih =>
    obtain ⟨hc, hl⟩ := List.nodup_cons.mp h
    obtain ⟨hbc, hbl⟩ := not_or.mp (List.mem_cons.not.mp hb)
    rw [List.replace_cons]
    split
    · exact List.nodup_cons.mpr ⟨hbl, hl⟩
    · refine List.nodup_cons.mpr ⟨fun hmem => ?_, ih hl hbl⟩
      -- after a replacement an element is the new one or an old one
      rcases eq_or_mem_of_mem_replace hmem with hcb | hmem
      · exact hbc hcb.symm
      · exact hc hmem

/-- A displaced value leaves a closed domain. -/
theorem displace_closedDomain {size : Nat} {x : Variable} (h : x.HasClosedDomain size)
    (hsize : ValueId.undefined.index < size) (value : ValueId) :
    (x.displace value).HasClosedDomain size := by
  unfold Variable.displace
  by_cases hhas : x.hasValue .undefined = true
  · rw [if_pos hhas]
    exact ⟨h.nodup.erase value, fun other hother => h.lt_size other (List.mem_of_mem_erase hother)⟩
  · rw [if_neg hhas]
    have hnew : .undefined ∉ x.domain := fun hmem => hhas (List.contains_iff_mem.mpr hmem)
    refine ⟨nodup_replace h.nodup hnew, fun other hother => ?_⟩
    rcases eq_or_mem_of_mem_replace hother with rfl | hother
    · exact hsize
    · exact h.lt_size other hother

theorem keepFirst_closedDomains (h : T.HasClosedDomains) (p : Placement) :
    (keepFirst p).Ensures T fun _ T' => T'.HasClosedDomains := by
  refine Update.ensures_bind.mpr (Update.Ensures.mono (Update.ensures_forM (fun facts _ T₁ h₁ =>
    Update.ensures_forM (fun fact _ T₂ h₂ => ?_) h₁) h) fun _ T' h' => Update.ensures_pure.mpr h')
  exact modifyVariable_closedDomains h₂ fun x _ hdomain =>
    ⟨rfl, displace_closedDomain hdomain h₂.reserved.lt_size _⟩

end Placing

/-- **Placing variables leaves closed tables**, if names tell objects apart, and mutex
propositions. -/
theorem place_closedTables (t : Grounded.Task)
    (hobjects : (t.task.objects.toList.map (·.name)).Nodup) (o : Options)
    {isProposition : Array Bool} {mutex : Mutex.Relation}
    (hmutex : ∀ v w, mutex.Lists v w → t.varName v ≠ t.varName w)
    (actions : List Grounded.Action) :
    (place t o isProposition mutex actions).Ensures .empty fun _ T => T.HasClosedTables := by
  have hdomains : (place t o isProposition mutex actions).Ensures .empty fun _ T =>
      T.HasClosedDomains := by
    refine Update.ensures_bind.mpr ((Update.ensures_foldlM (fun p v _ T h =>
      placeVariable_closedDomains t hobjects h isProposition p v)
      Task.hasClosedDomains_empty).mono fun p₀ T₀ h₀ => ?_)
    split
    · exact Update.ensures_foldlM (fun p v _ T h => placeBoolean_closedDomains t h p v) h₀
    · have hgroups := isGrouping_mutexGroups isProposition mutex o.grouping
      refine Update.ensures_bind.mpr ((Update.ensures_foldlM (I := fun _ T => T.HasClosedDomains)
        (fun p g hg T h => placeGroup_closedDomains t h _ p
          ((hgroups.related g hg).imp fun hlisted => hmutex _ _ hlisted)) h₀).mono
        fun p T h => ?_)
      exact keepFirst_closedDomains h p
  -- no variable has received an initial value
  refine (hdomains.and (place_keeps t Task.initialValuesAt_ignoresPlacing o _ _ _ .empty)).mono ?_
  rintro p T ⟨h, hinitial⟩
  refine ⟨h, fun i x hx entry hentry => ?_⟩
  have hnone : T.initialValuesAt i = [] := congrFun hinitial i
  rw [Task.initialValuesAt, hx, Option.map_some, Option.getD_some] at hnone
  rw [hnone] at hentry
  cases hentry

end TemporalPlanning.Encoding
