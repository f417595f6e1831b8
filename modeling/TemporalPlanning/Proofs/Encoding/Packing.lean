import TemporalPlanning.Proofs.Encoding.MutexFacts
import TemporalPlanning.Proofs.Encoding.Situations
import TemporalPlanning.Proofs.Mutex.Members
import TemporalPlanning.Proofs.Mutex.Soundness
/-!
Packing propositions into variables.

Every proposition is a member of some group and receives a fact for it, so it has a place when only
its first fact is kept. Two propositions have different facts, as their values are named after
them, and they share a variable only if they are mutex. Mutex facts are therefore the images of
mutex pairs: the encoded task knows two facts of propositions as mutex exactly when the computation
has left the propositions mutex.
-/
set_option autoImplicit false

namespace TemporalPlanning.Encoding

open FiniteDomain

/-! ## Facts for all propositions -/

/-- Facts are added for listed propositions: one at least for each, and no more than the times it is
listed. Other variables keep their places. -/
structure Adds (vs : List VarId) (p p' : Placement) : Prop where
  numeric : p'.numeric = p.numeric
  finite : p'.finite = p.finite
  size : p'.facts.size = p.facts.size
  placed : ∀ v, p.factsOf v ≠ [] ∨ (v ∈ vs ∧ v.index < p.facts.size) → p'.factsOf v ≠ []
  length_le : ∀ v, (p'.factsOf v).length ≤ (p.factsOf v).length + vs.count v

namespace Adds

variable {vs ws : List VarId} {p p' p'' : Placement}

theorem refl (p : Placement) : Adds [] p p :=
  ⟨rfl, rfl, rfl, fun _ h => h.resolve_right fun h => List.not_mem_nil h.1,
    fun _ => Nat.le_refl _⟩

theorem append (h : Adds vs p p') (h' : Adds ws p' p'') : Adds (vs ++ ws) p p'' := by
  refine ⟨h'.numeric.trans h.numeric, h'.finite.trans h.finite, h'.size.trans h.size,
    fun v hv => ?_, fun v => ?_⟩
  · rcases hv with hv | ⟨hv, hlt⟩
    · exact h'.placed v (Or.inl (h.placed v (Or.inl hv)))
    · rcases List.mem_append.mp hv with hv | hv
      · exact h'.placed v (Or.inl (h.placed v (Or.inr ⟨hv, hlt⟩)))
      · exact h'.placed v (Or.inr ⟨hv, h.size ▸ hlt⟩)
  · have hle := h.length_le v
    have hle' := h'.length_le v
    rw [List.count_append]
    omega

theorem addFact (p : Placement) (v : VarId) (f : FactCode) : Adds [v] p (p.addFact v f) := by
  refine ⟨rfl, rfl, Array.size_modify, fun w hw => ?_, fun w => ?_⟩
  · rw [factsOf_addFact]
    split
    · exact List.concat_ne_nil f _
    next hvw =>
      refine hw.resolve_right fun ⟨hmem, hlt⟩ => hvw ?_
      cases List.mem_singleton.mp hmem
      exact ⟨rfl, hlt⟩
  · rw [factsOf_addFact]
    split
    next hvw =>
      refine Nat.le_of_eq ?_
      rw [hvw.1, List.count_singleton_self, List.length_append, List.length_singleton]
    · exact Nat.le_add_right _ _

/-- A proposition that has a fact already needs no other. -/
theorem of_placed {v : VarId} (h : p.factsOf v ≠ []) : Adds [v] p p := by
  refine ⟨rfl, rfl, rfl, fun w hw => ?_, fun w => Nat.le_add_right _ _⟩
  rcases hw with hw | ⟨hw, -⟩
  · exact hw
  · rwa [List.mem_singleton.mp hw]

end Adds

section Placing

variable (t : Grounded.Task)

/-- Updates of places that are repeated for a list add facts for all its elements. -/
theorem foldlM_adds {α : Type} {f : Placement → α → Update Placement} {vs : α → List VarId}
    (h : ∀ p a T, (f p a).Ensures T fun p' _ => Adds (vs a) p p') (l : List α) (p : Placement)
    (T : Task) : Update.Ensures (l.foldlM f p) T fun p' _ => Adds (l.flatMap vs) p p' := by
  induction l generalizing p T with
  | nil => exact Update.ensures_pure.mpr (.refl p)
  | cons a l ih =>
    rw [List.foldlM_cons, List.flatMap_cons]
    refine Update.ensures_bind.mpr ((h p a T).mono fun p₁ T₁ h₁ => ?_)
    exact (ih p₁ T₁).mono fun p₂ _ h₂ => h₁.append h₂

theorem foldlM_addsEach {f : Placement → VarId → Update Placement}
    (h : ∀ p v T, (f p v).Ensures T fun p' _ => Adds [v] p p') (l : List VarId) (p : Placement)
    (T : Task) : Update.Ensures (l.foldlM f p) T fun p' _ => Adds l p p' := by
  have hall := foldlM_adds h l p T
  rwa [List.flatMap_singleton'] at hall

theorem placeBoolean_addsFact (p : Placement) (v : VarId) (T : Task) :
    (placeBoolean t p v).Ensures T fun p' _ => Adds [v] p p' := by
  refine (placeBoolean_adds t p T v).mono ?_
  rintro _ _ ⟨f, rfl, -⟩
  exact .addFact p v f

theorem placeTogether_addsFacts (p : Placement) (g : Mutex.Group) (T : Task) :
    (placeTogether t p g).Ensures T fun p' _ => Adds g.propositions p p' := by
  refine Update.ensures_bind.mpr fun var T₁ _ => ?_
  have hmember : ∀ p v T, (placeMember t var p v).Ensures T fun p' _ => Adds [v] p p' := by
    intro p v T
    refine Update.ensures_bind.mpr fun value T₁ _ => ?_
    exact Update.ensures_bind.mpr
      (Update.ensures_lift.mpr fun f _ => Update.ensures_pure.mpr (.addFact p v f))
  refine Update.ensures_bind.mpr ((foldlM_addsEach hmember g.propositions p T₁).mono
    fun p' T₂ h' => ?_)
  dsimp only
  split
  · exact Update.ensures_bind.mpr fun _ _ _ => Update.ensures_pure.mpr h'
  · exact Update.ensures_pure.mpr h'

theorem placeGroup_addsFacts (isNegated : Array Bool) (p : Placement) (g : Mutex.Group)
    (T : Task) : (placeGroup t isNegated p g).Ensures T fun p' _ => Adds g.propositions p p' := by
  unfold placeGroup
  split
  next v hsingle =>
    rw [hsingle]
    exact placeBoolean_addsFact t p v T
  split
  · refine foldlM_addsEach (fun p v T => ?_) g.propositions p T
    unfold placeIfMissing
    split
    · exact placeBoolean_addsFact t p v T
    next hplaced =>
      refine Update.ensures_pure.mpr (.of_placed fun hnone => hplaced ?_)
      rw [hnone]
      rfl
  · exact placeTogether_addsFacts t p g T

theorem placeVariable_facts (isProposition : Array Bool) (p : Placement) (v : Grounded.Variable)
    (T : Task) :
    (placeVariable t isProposition p v).Ensures T fun p' _ => p'.facts = p.facts := by
  unfold placeVariable
  split
  · exact Update.ensures_bind.mpr fun _ _ _ => Update.ensures_pure.mpr rfl
  split
  · exact Update.ensures_pure.mpr rfl
  · refine Update.ensures_bind.mpr fun var _ _ => ?_
    exact Update.ensures_bind.mpr fun _ _ _ => Update.ensures_pure.mpr rfl

theorem factsOf_take (p : Placement) (v : VarId) :
    { p with facts := p.facts.map (List.take 1) }.factsOf v = (p.factsOf v).take 1 := by
  rw [Placement.factsOf, Placement.factsOf, Array.getD_eq_getD_getElem?,
    Array.getD_eq_getD_getElem?, Array.getElem?_map]
  cases p.facts[v.index]? <;> rfl

/-- **Every proposition has exactly one fact.** -/
theorem place_single (o : Options) (isProposition : Array Bool) (mutex : Mutex.Relation)
    (actions : List Grounded.Action) :
    (place t o isProposition mutex actions).Ensures .empty fun p _ =>
      ∀ v, Mutex.isMarked isProposition v = true → v.index < t.vars.size →
        ∃ f, p.factsOf v = [f] := by
  have hobjects : Update.Ensures (t.vars.toList.foldlM (placeVariable t isProposition)
      (.empty t.vars.size)) .empty fun p _ => p.facts = Array.replicate t.vars.size [] :=
    Update.ensures_foldlM (I := fun p _ => p.facts = Array.replicate t.vars.size [])
      (fun p v _ T h => (placeVariable_facts t isProposition p v T).mono fun _ _ h' => h'.trans h)
      rfl
  refine Update.ensures_bind.mpr (hobjects.mono fun p₀ T₀ h₀ => ?_)
  have hsize : p₀.facts.size = t.vars.size := by
    rw [h₀, Array.size_replicate]
  split
  · -- a marked variable is listed once, and has had no fact
    refine (foldlM_addsEach (placeBoolean_addsFact t) (Mutex.marked isProposition) p₀ T₀).mono
      fun p _ h v hv hlt => ?_
    have hmem := Mutex.mem_marked.mpr hv
    have hnonempty := h.placed v (Or.inr ⟨hmem, hsize ▸ hlt⟩)
    have hle := h.length_le v
    have hnone : p₀.factsOf v = [] := by
      rw [Placement.factsOf, h₀]
      exact getD_replicate _ _ _
    rw [hnone, List.length_nil, Nat.zero_add,
      List.count_eq_one_of_mem (Mutex.nodup_marked isProposition) hmem] at hle
    have hpos := List.length_pos_iff.mpr hnonempty
    exact List.length_eq_one_iff.mp (by omega)
  · have hgroups := isGrouping_mutexGroups isProposition mutex o.grouping
    refine Update.ensures_bind.mpr ((foldlM_adds (placeGroup_addsFacts t _) _ p₀ T₀).mono
      fun p T h => ?_)
    refine Update.ensures_bind.mpr fun _ _ _ => Update.ensures_pure.mpr fun v hv hlt => ?_
    obtain ⟨g, hg, hmem⟩ := hgroups.complete v hv
    have hnonempty := h.placed v (Or.inr ⟨List.mem_flatMap.mpr ⟨g, hg, hmem⟩, hsize ▸ hlt⟩)
    obtain ⟨f, fs, hfacts⟩ := List.exists_cons_of_ne_nil hnonempty
    exact ⟨f, by rw [factsOf_take, hfacts]; rfl⟩

end Placing

/-! ## The encoded task -/

/-- Propositions are packed into variables: every one has one fact, which its variable can have as
its value, and different propositions have different ones. Only mutex propositions share a variable,
and exactly they have mutex facts. -/
structure IsPacking (t : Grounded.Task) (mutex : Mutex.Relation) (p : Placement) (T : Task) :
    Prop where
  single : ∀ v, t.isProposition v = true → ∃ f, p.factsOf v = [f]
  held : ∀ v f, t.isProposition v = true → p.fact? v = some f → T.HasValueAt f.var f.value
  distinct : ∀ v w f, t.isProposition v = true → t.isProposition w = true →
    p.fact? v = some f → p.fact? w = some f → v = w
  shared : ∀ v w f g, t.isProposition v = true → t.isProposition w = true → v ≠ w →
    p.fact? v = some f → p.fact? w = some g → f.var = g.var → mutex.contains v w = true
  isMutex_iff : ∀ v w f g, t.isProposition v = true → t.isProposition w = true →
    p.fact? v = some f → p.fact? w = some g →
      (T.isMutex f g = true ↔ mutex.contains v w = true)

/-- **Packing is sound and loses no proposition.** -/
theorem encode_packs {p : Lifted.Problem} {keepStatic : Bool} {t : Grounded.Task}
    (hground : Grounding.ground p keepStatic = .ok t) (hnames : NamesPropositions t) {o : Options}
    {T : Task} (hencode : (encode t o).result = .ok T) :
    ∃ enc, encoderOf t o = .ok enc ∧
      IsPacking t (Mutex.fixpoint t o.passLimit).mutex enc.placement T := by
  have ht := (Grounding.ground_isOrderly hground).numbered
  obtain ⟨q, hencoder, hplacement, hshares, -⟩ := encode_eq_ok hencode
  refine ⟨_, hencoder, ?_⟩
  obtain ⟨T₀, hplace⟩ := exists_place_of_encoderOf hencoder
  have hover := Mutex.isOver_fixpoint t o.passLimit
  have hproposition : ∀ {v}, Mutex.isMarked (Mutex.propositions t) v = true →
      t.isProposition v = true := fun hv => (Mutex.isMarked_propositions ht _).mp hv
  -- mutex propositions are different, and so are their names
  have hdifferent : ∀ v w, (Mutex.fixpoint t o.passLimit).mutex.Lists v w →
      t.varName v ≠ t.varName w := by
    intro v w hlisted hname
    obtain ⟨hne, hv, hw⟩ := hover.of_contains ((hover.contains_iff v w).mpr hlisted)
    exact hne (hnames.varName_inj ht (hproposition hv) (hproposition hw) hname)
  refine ⟨fun v hv => ?_, fun v f _ hf => hshares.held hdifferent v f hf,
    fun v w f hv hw hf hg => hplacement.eq_of_fact? ht hnames hv hw hf hg rfl rfl,
    fun v w f g _ _ hne hf hg hvar => ?_, fun v w f g hv hw hf hg => ?_⟩
  · have hmarked := (Mutex.isMarked_propositions ht v).mpr hv
    refine place_single t o _ _ _ q T₀ hplace v hmarked ?_
    exact Mutex.size_propositions t ▸ Mutex.lt_size_of_isMarked hmarked
  · rw [hover.contains_iff]
    exact (hshares.shared v w f g hf hg hvar).resolve_left hne
  · rw [encode_isMutex hencode hencoder]
    constructor
    · -- a fact tells which proposition it belongs to
      rintro ⟨v', w', hlisted, hf', hg', -⟩
      have hcontains := (hover.contains_iff v' w').mpr hlisted
      obtain ⟨-, hv', hw'⟩ := hover.of_contains hcontains
      rw [hplacement.eq_of_fact? ht hnames hv (hproposition hv') hf hf' rfl rfl,
        hplacement.eq_of_fact? ht hnames hw (hproposition hw') hg hg' rfl rfl]
      exact hcontains
    · intro hcontains
      refine ⟨v, w, (hover.contains_iff v w).mp hcontains, hf, hg, fun hfg => ?_⟩
      subst hfg
      exact (hover.of_contains hcontains).1 (hplacement.eq_of_fact? ht hnames hv hw hf hg rfl rfl)

/-- Swapped propositions share a variable, and their facts are mutex. -/
theorem packs_swap : ∃ (t : Grounded.Task) (T : Task) (enc : Encoder) (f g : FactCode),
    Grounding.ground (Mutex.swapping [Mutex.swap]) true = .ok t ∧ NamesPropositions t ∧
      (encode t {}).result = .ok T ∧ encoderOf t {} = .ok enc ∧
      enc.placement.factsOf ⟨0⟩ = [f] ∧ enc.placement.factsOf ⟨1⟩ = [g] ∧ f.var = g.var ∧ f ≠ g ∧
      T.HasValueAt f.var f.value ∧ T.HasValueAt g.var g.value ∧ T.isMutex f g = true := by
  have hrun : ∃ t ∈ (Grounding.ground (Mutex.swapping [Mutex.swap]) true).toOption,
      NamesPropositions t ∧ t.isProposition ⟨0⟩ = true ∧ t.isProposition ⟨1⟩ = true ∧
      ∃ T ∈ (encode t {}).result.toOption, ∃ enc ∈ (encoderOf t {}).toOption,
        ∃ f ∈ enc.placement.fact? ⟨0⟩, ∃ g ∈ enc.placement.fact? ⟨1⟩, f.var = g.var := by
    decide +kernel
  obtain ⟨t, ht, hnames, hs, hr, T, hT, enc, henc, f, hf, g, hg, hvar⟩ := hrun
  have hground := Grounding.eq_ok_of_mem_toOption ht
  have hencode := Grounding.eq_ok_of_mem_toOption hT
  have hencoder := Grounding.eq_ok_of_mem_toOption henc
  obtain ⟨enc', hencoder', hpacking⟩ := encode_packs hground hnames hencode
  rw [hencoder] at hencoder'
  cases hencoder'
  have hsingle : ∀ {v f}, t.isProposition v = true → enc.placement.fact? v = some f →
      enc.placement.factsOf v = [f] := by
    intro v f hv hf
    obtain ⟨f', hf'⟩ := hpacking.single v hv
    rw [Placement.fact?, hf'] at hf
    cases hf
    exact hf'
  have hne : (⟨0⟩ : VarId) ≠ ⟨1⟩ := by decide
  refine ⟨t, T, enc, f, g, hground, hnames, hencode, hencoder, hsingle hs hf, hsingle hr hg, hvar,
    fun hfg => hne ?_, hpacking.held _ f hs hf, hpacking.held _ g hr hg,
    (hpacking.isMutex_iff _ _ f g hs hr hf hg).mpr ?_⟩
  · exact hpacking.distinct _ _ f hs hr hf (hfg ▸ hg)
  · exact hpacking.shared _ _ f g hs hr hne hf hg hvar

end TemporalPlanning.Encoding
