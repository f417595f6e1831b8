import Mathlib.Algebra.Order.BigOperators.Group.Finset
import TemporalPlanning.Proofs.Mutex.Convergence
import TemporalPlanning.Proofs.Mutex.Members
/-!
The number of passes until nothing changes.

Passes insert pairs and remove pairs, so the relation alone says nothing about how long they go on.
What bounds them is that a pair is only inserted together with a proposition that has not been
reached, and that an action which inserts pairs for a proposition reaches it at once. With `n`
propositions, fewer than `n` pairs are inserted for each of them. So the number of propositions
that have not been reached, weighted by `n`, plus the number of pairs never grows, and it sinks
whenever something is counted: this is `potential`.

The argument goes through the stages of an application. The first stage inserts pairs
(`size_excluded_le`), the later ones only remove pairs and count each of them (`Trades`), and the
last one reaches the new propositions (`card_missing_add_le`). An application without new
propositions inserts nothing, so whatever it counts has been removed.
-/
set_option autoImplicit false

namespace TemporalPlanning.Mutex

open Grounded State

variable (t : Task)

/-! ## Counting propositions and pairs -/

/-- The number of propositions of a task. -/
def propositionCount : Nat := t.vars.toList.countP fun v => t.task.isPredicate v.function

/-- The propositions of a task. -/
def propositionSet : Finset VarId := (marked (propositions t)).toFinset

/-- The propositions that have not been reached. -/
def missing (s : State) : Finset VarId :=
  (propositionSet t).filter fun v => isMarked s.reached v = false

/-- What is left for the passes to do. -/
def potential (s : State) : Nat :=
  (propositionSet t).card * (missing t s).card + s.mutex.size

variable {t}

theorem mem_propositionSet {v : VarId} :
    v ∈ propositionSet t ↔ isMarked (propositions t) v = true := by
  simp only [propositionSet, List.mem_toFinset, mem_marked]

theorem mem_missing {s : State} {v : VarId} :
    v ∈ missing t s ↔ isMarked (propositions t) v = true ∧ isMarked s.reached v = false := by
  simp only [missing, Finset.mem_filter, mem_propositionSet]

/-- The variables of a numbered table are different. -/
theorem nodup_indices (ht : t.IsNumbered) : (t.vars.toList.map (·.index)).Nodup := by
  have hindices : t.vars.toList.map (·.index) = (List.range t.vars.size).map VarId.mk := by
    apply List.ext_getElem
    · simp
    · intro i hi _
      have hlt : i < t.vars.size := by simpa using hi
      simpa using ht i t.vars[i] (Array.getElem?_eq_getElem hlt)
  rw [hindices]
  exact List.nodup_range.map fun _ _ h => VarId.mk.inj h

/-- In a numbered task, every proposition is counted once. -/
theorem card_propositionSet (ht : t.IsNumbered) :
    (propositionSet t).card = propositionCount t := by
  have hset : propositionSet t
      = ((t.vars.toList.filter fun v => t.task.isPredicate v.function).map (·.index)).toFinset := by
    ext w
    simp only [mem_propositionSet, isMarked_propositions ht, List.mem_toFinset, List.mem_map,
      List.mem_filter, Task.isProposition]
    constructor
    · intro h
      cases hw : t.vars[w.index]? with
      | none => simp [hw] at h
      | some v =>
        rw [hw] at h
        refine ⟨v, ⟨List.mem_of_getElem? (Array.getElem?_toList.symm ▸ hw), h⟩, ht _ _ hw⟩
    · rintro ⟨v, ⟨hv, hpred⟩, rfl⟩
      rw [(ht.mem_vars_iff).mp hv]
      exact hpred
  rw [hset, List.toFinset_card_of_nodup, List.length_map, propositionCount,
    List.countP_eq_length_filter]
  exact (nodup_indices ht).sublist ((List.filter_sublist).map _)

/-! ## Pairs that an application inserts -/

namespace Relation

/-- Every pair of `r'` is one of `r`, or consists of one of `new` and another of `all`. -/
def ExtendsBy (new all : Finset VarId) (r r' : Relation) : Prop :=
  ∀ p ∈ r'.pairs, p ∈ r.pairs ∨ ∃ v ∈ new, ∃ w ∈ all.erase v, p = pair v w

variable {new all : Finset VarId} {r r' r'' : Relation}

theorem ExtendsBy.refl (r : Relation) : r.ExtendsBy new all r := fun _ hp => Or.inl hp

theorem ExtendsBy.trans (h : r.ExtendsBy new all r') (h' : r'.ExtendsBy new all r'') :
    r.ExtendsBy new all r'' := by
  intro p hp
  rcases h' p hp with hold | hnew
  · exact h p hold
  · exact Or.inr hnew

theorem insert_extendsBy (r : Relation) {v w : VarId} (hv : v ∈ new) (hw : w ∈ all) :
    r.ExtendsBy new all (r.insert v w).1 := by
  intro p hp
  unfold insert at hp
  split at hp
  · exact Or.inl hp
  next hfresh =>
    rcases Std.TreeSet.mem_insert.mp hp with heq | hold
    · -- the variables are different, since otherwise nothing is inserted
      have hne : w ≠ v := by
        intro hwv
        simp [hwv] at hfresh
      refine Or.inr ⟨v, hv, w, Finset.mem_erase.mpr ⟨hne, hw⟩, ?_⟩
      exact (Std.LawfulEqCmp.eq_of_compare heq).symm
    · exact Or.inl hold

/-- The pairs as a finite set. -/
def pairSet (r : Relation) : Finset (Nat × Nat) := r.pairs.toList.toFinset

theorem card_pairSet (r : Relation) : r.pairSet.card = r.size := by
  rw [pairSet, List.toFinset_card_of_nodup, Std.TreeSet.length_toList, size]
  refine Std.TreeSet.distinct_toList.imp ?_
  rintro p q hne rfl
  exact hne Std.ReflCmp.compare_self

/-- For each new proposition there are fewer pairs than propositions. -/
theorem ExtendsBy.size_le (h : r.ExtendsBy new all r') (hsub : new ⊆ all) :
    r'.size ≤ r.size + new.card * (all.card - 1) := by
  have hpairs : r'.pairSet ⊆
      r.pairSet ∪ new.biUnion fun v => (all.erase v).image (pair v) := by
    intro p hp
    rw [pairSet, List.mem_toFinset, Std.TreeSet.mem_toList] at hp
    rw [Finset.mem_union, pairSet, List.mem_toFinset, Std.TreeSet.mem_toList]
    rcases h p hp with hold | ⟨v, hv, w, hw, rfl⟩
    · exact Or.inl hold
    · exact Or.inr (Finset.mem_biUnion.mpr ⟨v, hv, Finset.mem_image_of_mem _ hw⟩)
  have hnew : (new.biUnion fun v => (all.erase v).image (pair v)).card
      ≤ new.card * (all.card - 1) := by
    apply Finset.card_biUnion_le_card_mul
    intro v hv
    calc ((all.erase v).image (pair v)).card
        ≤ (all.erase v).card := Finset.card_image_le
      _ = all.card - 1 := Finset.card_erase_of_mem (hsub hv)
  calc r'.size = r'.pairSet.card := r'.card_pairSet.symm
    _ ≤ r.pairSet.card + (new.biUnion fun v => (all.erase v).image (pair v)).card :=
        (Finset.card_le_card hpairs).trans (Finset.card_union_le _ _)
    _ ≤ r.size + new.card * (all.card - 1) := by
        rw [card_pairSet]
        exact Nat.add_le_add_left hnew _

/-- A removal that is reported makes the relation smaller by one pair. -/
theorem size_erase (r : Relation) (v w : VarId) :
    (r.erase v w).1.size + (r.erase v w).2.toNat = r.size := by
  unfold erase
  by_cases hvw : r.contains v w = true
  · have hmem : pair v w ∈ r.pairs.toList :=
      Std.TreeSet.mem_toList.mpr (Std.TreeSet.contains_iff_mem.mp hvw)
    have hpos : 0 < r.pairs.size := by
      rw [← Std.TreeSet.length_toList]
      exact List.length_pos_of_mem hmem
    have hcontains : r.pairs.contains (pair v w) = true := hvw
    rw [if_pos hvw]
    simp only [size, Std.TreeSet.size_erase, hcontains, if_true, Bool.toNat_true]
    omega
  · rw [if_neg hvw]
    simp

end Relation

section Application

variable {p : Profile} {s : State} {new all : Finset VarId}

theorem excludeNew_extendsBy {props deletes : List VarId} (conditions : List VarId) {v : VarId}
    (hv : v ∈ new) (hprops : ∀ q ∈ props, q ∈ all) (hdeletes : ∀ d ∈ deletes, d ∈ all) :
    s.mutex.ExtendsBy new all (excludeNew props p deletes conditions s v).mutex := by
  refine List.foldlRecOn conditions _
    (motive := fun s' : State => s.mutex.ExtendsBy new all s'.mutex) ?_ fun s' hs' c _ => ?_
  · refine List.foldlRecOn deletes _
      (motive := fun s' : State => s.mutex.ExtendsBy new all s'.mutex) (Relation.ExtendsBy.refl _)
      fun s' hs' d hd => ?_
    split
    · exact hs'.trans (s'.mutex.insert_extendsBy hv (hdeletes d hd))
    · exact hs'
  · refine List.foldlRecOn props _
      (motive := fun s' : State => s.mutex.ExtendsBy new all s'.mutex) hs' fun s'' hs'' q hq => ?_
    split
    · exact hs''.trans (s''.mutex.insert_extendsBy hv (hprops q hq))
    · exact hs''

/-- The first stage inserts pairs of new propositions only. -/
theorem excluded_extendsBy {props : List VarId} (hnew : ∀ v ∈ newAdds p s, v ∈ new)
    (hprops : ∀ q ∈ props, q ∈ all) (hdeletes : ∀ d ∈ p.deletes, d ∈ all) :
    s.mutex.ExtendsBy new all (excluded props p s).mutex := by
  refine List.foldlRecOn (fresh s p.endAdds) _
    (motive := fun s' : State => s.mutex.ExtendsBy new all s'.mutex) ?_ fun s' hs' v hv => ?_
  · refine List.foldlRecOn (fresh s p.startAdds) _
      (motive := fun s' : State => s.mutex.ExtendsBy new all s'.mutex)
      (Relation.ExtendsBy.refl _) fun s' hs' v hv => ?_
    refine hs'.trans (excludeNew_extendsBy _ (hnew v (List.mem_append_left _ hv)) hprops ?_)
    exact fun d hd => hdeletes d (List.mem_append_left _ hd)
  · exact hs'.trans
      (excludeNew_extendsBy _ (hnew v (List.mem_append_right _ hv)) hprops hdeletes)

/-! ## Pairs that an application removes -/

/-- Propositions stay as they are, and as many pairs are removed as are counted. -/
structure Trades (s s' : State) : Prop where
  reached : s'.reached = s.reached
  sum : s'.mutex.size + s'.work = s.mutex.size + s.work

namespace Trades

theorem refl (s : State) : Trades s s := ⟨rfl, rfl⟩

theorem trans {s s' s'' : State} (h : Trades s s') (h' : Trades s' s'') : Trades s s'' :=
  ⟨h'.reached.trans h.reached, h'.sum.trans h.sum⟩

theorem foldl {α : Type} {f : State → α → State} (h : ∀ s a, Trades s (f s a)) (l : List α)
    (s : State) : Trades s (l.foldl f s) :=
  foldl_rel refl trans fun s' _ a _ => h s' a

end Trades

theorem deleteMutex_trades (s : State) (v w : VarId) : Trades s (s.deleteMutex v w) := by
  refine ⟨rfl, ?_⟩
  have hsize := s.mutex.size_erase v w
  simp only [deleteMutex, work]
  omega

theorem foldl_deleteMutex_trades (v : VarId) (l : List VarId) (s : State) :
    Trades s (l.foldl (fun s w => s.deleteMutex v w) s) :=
  Trades.foldl (fun s' w => deleteMutex_trades s' v w) l s

theorem allowTogether_trades (l : List VarId) (s : State) : Trades s (allowTogether s l) := by
  induction l generalizing s with
  | nil => exact Trades.refl s
  | cons v rest ih => exact (foldl_deleteMutex_trades v rest s).trans (ih _)

theorem allowAdds_trades (p : Profile) (l : List VarId) (s : State) :
    Trades s (allowAdds p s l) := by
  induction l generalizing s with
  | nil => exact allowTogether_trades p.endAdds s
  | cons v rest ih =>
    rw [allowAdds]
    refine ((foldl_deleteMutex_trades v rest s).trans ?_).trans (ih _)
    split
    · exact Trades.refl _
    · exact foldl_deleteMutex_trades v p.endAdds _

theorem allowOld_trades (props : List VarId) (p : Profile) (s : State) (old : VarId) :
    Trades s (allowOld props p s old) := by
  apply Trades.foldl
  intro s' q
  split
  · exact deleteMutex_trades s' old q
  · exact Trades.refl s'

/-- After its first stage an application only removes pairs, until it reaches propositions. -/
theorem relaxed_trades (props : List VarId) (index : Nat) (p : Profile) (s : State) :
    Trades (excluded props p s) (relaxed props index p s) := by
  have hallowed : Trades (excluded props p s) (allowed props index p s) := by
    unfold allowed
    split
    · exact Trades.refl _
    · exact allowAdds_trades p p.startAdds _
  exact hallowed.trans (Trades.foldl (allowOld_trades props p) (oldAdds p s) _)

/-! ## One application -/

theorem mutex_applyAction (props : List VarId) (index : Nat) (p : Profile) (s : State) :
    (applyAction props index p s).mutex = (relaxed props index p s).mutex := by
  rw [applyAction_eq]
  exact mutex_foldl_reach _ _

/-- Without new propositions, as many pairs are removed as are counted. -/
theorem applyAction_trades {props : List VarId} {index : Nat} (hnone : newAdds p s = []) :
    Trades s (applyAction props index p s) := by
  obtain ⟨hstart, hend⟩ := List.append_eq_nil_iff.mp hnone
  have hexcluded : excluded props p s = s := by
    rw [excluded, hstart, hend]
    rfl
  have hrelaxed := relaxed_trades props index p s
  rw [hexcluded] at hrelaxed
  rw [applyAction_eq, hnone]
  exact ⟨hrelaxed.reached, hrelaxed.sum⟩

/-- The relation grows by less than one pair per new proposition and proposition. -/
theorem size_applyAction_le {props : List VarId} {index : Nat} (hnew : ∀ v ∈ newAdds p s, v ∈ new)
    (hsub : new ⊆ all) (hprops : ∀ q ∈ props, q ∈ all) (hdeletes : ∀ d ∈ p.deletes, d ∈ all) :
    (applyAction props index p s).mutex.size ≤ s.mutex.size + new.card * (all.card - 1) := by
  have hinserted := (excluded_extendsBy hnew hprops hdeletes).size_le hsub
  have hremoved := (relaxed_trades props index p s).sum
  have hwork : (excluded props p s).work ≤ (relaxed props index p s).work := by
    -- the later stages are steps of the computation, and those never count backwards
    have hallowed : (excluded props p s).work ≤ (allowed props index p s).work := by
      unfold allowed
      split
      · exact le_rfl
      · exact (allowAdds_spec p p.startAdds _).1.work_le
    exact hallowed.trans (relaxed_advances props index p s).work_le
  rw [mutex_applyAction]
  omega

end Application

variable {a : Action} {s : State}

/-- The new propositions of an action are no longer missing once it has been applied. -/
theorem card_missing_add_le (hsize : s.reached.size = (propositions t).size) (props : List VarId)
    (index : Nat) :
    (missing t (applyAction props index (profile t a) s)).card
      + (newAdds (profile t a) s).toFinset.card ≤ (missing t s).card := by
  have hcontinues := applyAction_continues props index (profile t a) s
  rw [← Finset.card_union_of_disjoint]
  · apply Finset.card_le_card
    intro v hv
    rw [Finset.mem_union, List.mem_toFinset, mem_newAdds, mem_missing] at hv
    rw [mem_missing]
    rcases hv with ⟨hprop, hlast⟩ | ⟨hadd, hfirst⟩
    · -- what is missing afterwards has been missing before
      refine ⟨hprop, ?_⟩
      rw [← Bool.not_eq_true] at hlast ⊢
      exact fun h => hlast (hcontinues.reached v h)
    · exact ⟨isMarked_of_mem_adds t hadd, hfirst⟩
  · rw [Finset.disjoint_left]
    intro v hmissing hnew
    rw [List.mem_toFinset, mem_newAdds] at hnew
    have hlt : v.index < s.reached.size := by
      rw [hsize]
      exact lt_size_of_isMarked (isMarked_of_mem_adds t hnew.1)
    have hreached : isMarked (applyAction props index (profile t a) s).reached v = true :=
      isMarked_applyAction hnew.1 hlt
    rw [mem_missing, hreached] at hmissing
    exact Bool.noConfusion hmissing.2

/-- From one state to another the potential does not grow, and sinks if anything is counted. -/
structure Descends (t : Task) (s s' : State) : Prop where
  le : potential t s' ≤ potential t s
  lt : s.work < s'.work → potential t s' < potential t s

theorem Descends.refl (s : State) : Descends t s s := ⟨le_rfl, fun h => absurd h (lt_irrefl _)⟩

theorem Descends.trans {s s' s'' : State} (h : Descends t s s') (h' : Descends t s' s'') :
    Descends t s s'' := by
  refine ⟨h'.le.trans h.le, fun hwork => ?_⟩
  -- something is counted in one of the two parts
  by_cases hfirst : s.work < s'.work
  · exact lt_of_le_of_lt h'.le (h.lt hfirst)
  · exact lt_of_lt_of_le (h'.lt (by omega)) h.le

/-- What new propositions take from the potential outweighs the pairs that are inserted for them. -/
theorem potential_applyAction_lt (hsize : s.reached.size = (propositions t).size) (index : Nat)
    (hnew : newAdds (profile t a) s ≠ []) :
    potential t (applyAction (marked (propositions t)) index (profile t a) s) < potential t s := by
  have hmissing := card_missing_add_le (a := a) hsize (marked (propositions t)) index
  have hsub : (newAdds (profile t a) s).toFinset ⊆ propositionSet t := by
    intro v hv
    rw [List.mem_toFinset, mem_newAdds] at hv
    exact mem_propositionSet.mpr (isMarked_of_mem_adds t hv.1)
  have hpairs : (applyAction (marked (propositions t)) index (profile t a) s).mutex.size
      ≤ s.mutex.size + (newAdds (profile t a) s).toFinset.card * ((propositionSet t).card - 1) :=
    size_applyAction_le (fun v hv => List.mem_toFinset.mpr hv) hsub
      (fun q hq => mem_propositionSet.mpr (mem_marked.mp hq))
      (fun d hd => mem_propositionSet.mpr (isMarked_of_mem_deletes t hd))
  have hfresh : 0 < (newAdds (profile t a) s).toFinset.card := by
    rw [Finset.card_pos, List.toFinset_nonempty_iff]
    exact hnew
  have hcard := Finset.card_le_card hsub
  -- `n` for each new proposition pays for its pairs, of which there are at most `n - 1`
  have hweight := Nat.mul_le_mul_left (propositionSet t).card hmissing
  obtain ⟨k, hk⟩ : ∃ k, (propositionSet t).card = k + 1 :=
    Nat.exists_eq_add_one.mpr (by omega)
  rw [potential, potential]
  rw [hk, Nat.add_sub_cancel] at hpairs
  rw [hk] at hweight ⊢
  rw [Nat.mul_add, Nat.mul_comm (k + 1) (List.toFinset _).card, Nat.mul_add_one] at hweight
  omega

/-- Without new propositions, the potential sinks by what is counted. -/
theorem potential_add_work_of_trades {s' : State} (h : Trades s s') :
    potential t s' + s'.work = potential t s + s.work := by
  have hmissing : missing t s' = missing t s := by
    rw [missing, h.reached]
    rfl
  have hsum := h.sum
  rw [potential, potential, hmissing]
  omega

theorem applyAction_descends (hsize : s.reached.size = (propositions t).size) (index : Nat) :
    Descends t s (applyAction (marked (propositions t)) index (profile t a) s) := by
  by_cases hnone : newAdds (profile t a) s = []
  · -- nothing is inserted, so what is counted is missing from the relation
    have hwork := (applyAction_continues (marked (propositions t)) index (profile t a) s).work_le
    have htrades : Trades s (applyAction (marked (propositions t)) index (profile t a) s) :=
      applyAction_trades hnone
    have hsum := potential_add_work_of_trades (t := t) htrades
    exact ⟨by omega, fun hlt => by omega⟩
  · have hlt := potential_applyAction_lt hsize index hnone
    exact ⟨hlt.le, fun _ => hlt⟩

/-! ## Passes -/

theorem check_descends (hsize : s.reached.size = (propositions t).size) (action : Action × Nat) :
    Descends t s (check t s action) := by
  unfold check checkAction
  dsimp only
  split
  · exact applyAction_descends hsize action.2
  · exact Descends.refl s

theorem passed_descends (hsize : s.reached.size = (propositions t).size) :
    Descends t (opened s) (passed t s) := by
  have h : Sustains t (opened s) (passed t s) ∧ Descends t (opened s) (passed t s) := by
    -- the number of marks is kept along the way, as `Continues` says
    refine foldl_rel (R := fun s s' => Sustains t s s' ∧
      (s.reached.size = (propositions t).size → Descends t s s'))
      (fun s => ⟨Sustains.refl t s, fun _ => Descends.refl s⟩) ?_ ?_ |>.imp_right fun h => h hsize
    · rintro s s' s'' ⟨hs, hd⟩ ⟨hs', hd'⟩
      refine ⟨hs.trans hs', fun hsize => (hd hsize).trans (hd' ?_)⟩
      rw [hs.continues.size]
      exact hsize
    · intro s' _ action ha
      exact ⟨check_sustains t s' ha, fun hsize => check_descends hsize action⟩
  exact h.2

theorem size_reached_pass (hsize : s.reached.size = (propositions t).size) :
    (pass t s).reached.size = (propositions t).size :=
  (passed_sustains t s).continues.size.trans hsize

theorem isQuiet_iff_work (s : State) : s.isQuiet = true ↔ s.work = 0 := by
  simp only [isQuiet, Bool.and_eq_true, beq_iff_eq, work, Nat.add_eq_zero_iff]

/-- A pass that changes something lowers the potential. -/
theorem potential_pass_lt (hsize : s.reached.size = (propositions t).size)
    (hchange : (pass t s).isQuiet ≠ true) : potential t (pass t s) < potential t s := by
  refine (passed_descends hsize).lt ?_
  have hwork : (passed t s).work ≠ 0 := fun h => hchange ((isQuiet_iff_work _).mpr h)
  have hopened : (opened s).work = 0 := rfl
  omega

/-- A pass that counts nothing has led from the same propositions and pairs. -/
theorem eq_of_isQuiet_pass (hquiet : (pass t s).isQuiet = true) :
    (pass t s).reached = s.reached ∧ (pass t s).mutex = s.mutex := by
  have hwork : (passed t s).work = 0 := (isQuiet_iff_work _).mp hquiet
  exact (passed_sustains t s).continues.eq_of_work_le (by omega)

/-! ## The whole computation -/

/-- From any state there are at most as many passes as its potential allows, and one more to find
out that nothing changes. -/
theorem passes_le (hsize : s.reached.size = (propositions t).size) (limit : Nat) :
    (run t limit s).2 ≤ potential t s + 1 := by
  induction limit generalizing s with
  | zero => exact Nat.zero_le _
  | succ limit ih =>
    rw [run]
    split
    · exact Nat.zero_le _
    · show (run t limit (pass t s)).2 + 1 ≤ potential t s + 1
      by_cases hquiet : (pass t s).isQuiet = true
      · rw [run_of_isQuiet hquiet]
        exact Nat.succ_le_succ (Nat.zero_le _)
      · have hlt := potential_pass_lt hsize hquiet
        have hrest := ih (size_reached_pass hsize)
        omega

/-- With that many passes the computation stops by itself. -/
theorem isQuiet_run {limit : Nat} (hsize : s.reached.size = (propositions t).size)
    (hlimit : potential t s < limit) : (run t limit s).1.isQuiet = true := by
  induction limit generalizing s with
  | zero => omega
  | succ limit ih =>
    rw [run]
    split
    · assumption
    · show (run t limit (pass t s)).1.isQuiet = true
      by_cases hquiet : (pass t s).isQuiet = true
      · rw [run_of_isQuiet hquiet]
        exact hquiet
      · have hlt := potential_pass_lt hsize hquiet
        exact ih (size_reached_pass hsize) (by omega)

/-- The last state is the first one or the result of a pass. -/
theorem run_eq_or_exists_pass (limit : Nat) (s : State) :
    (run t limit s = (s, 0)) ∨ ∃ s', (run t limit s).1 = pass t s' := by
  induction limit generalizing s with
  | zero => exact Or.inl rfl
  | succ limit ih =>
    rw [run]
    split
    · exact Or.inl rfl
    · refine Or.inr ?_
      show ∃ s', (run t limit (pass t s)).1 = pass t s'
      rcases ih (pass t s) with heq | hpass
      · exact ⟨s, by rw [heq]⟩
      · exact hpass

theorem potential_initialState_le : potential t (initialState t)
    ≤ (propositionSet t).card * (propositionSet t).card := by
  have hempty : (initialState t).mutex.size = 0 := rfl
  rw [potential, hempty, Nat.add_zero]
  exact Nat.mul_le_mul_left _ (Finset.card_filter_le _ _)

/-- **The passes converge.** With `n` propositions, however many passes are allowed, there are at
most `n * n + 1` of them; and if that many are allowed, the computation does not stop because of
their number. It ends with a pass that leaves propositions and pairs as they are, or without any
pass if no proposition is true at the beginning. -/
theorem run_converges (ht : t.IsNumbered) (limit : Nat) :
    (run t limit (initialState t)).2 ≤ propositionCount t * propositionCount t + 1 ∧
      (propositionCount t * propositionCount t + 1 ≤ limit →
        (fixpoint t limit).isQuiet = true ∧
        ((∃ s, fixpoint t limit = pass t s ∧ (pass t s).reached = s.reached ∧
            (pass t s).mutex = s.mutex) ∨
          ((run t limit (initialState t)).2 = 0 ∧
            ¬∃ v, IsInitiallyTrue t v))) := by
  have hsize := (betweenPasses_initialState t).recorded.size
  have hbound : potential t (initialState t) ≤ propositionCount t * propositionCount t := by
    rw [← card_propositionSet ht]
    exact potential_initialState_le
  refine ⟨(passes_le hsize limit).trans (by omega), fun hlimit => ?_⟩
  have hquiet : (fixpoint t limit).isQuiet = true := isQuiet_run hsize (by omega)
  refine ⟨hquiet, ?_⟩
  rcases run_eq_or_exists_pass limit (initialState t) with hrun | ⟨s, hs⟩
  · -- the first state is quiet only if it has reached nothing
    right
    rw [fixpoint, hrun] at hquiet
    refine ⟨by rw [hrun], fun hinitial => ?_⟩
    rw [isQuiet_initialState.mpr hinitial] at hquiet
    cases hquiet
  · left
    have hpass : (pass t s).isQuiet = true := by
      rw [← hs]
      exact hquiet
    exact ⟨s, hs, eq_of_isQuiet_pass hpass⟩

/-- The three propositions of `swap` and `lift` allow ten passes. The first one reaches `r`, the
second one reaches `p`, and the third one changes nothing. -/
theorem lift_converges : ∃ t : Task, Grounding.ground (swapping [swap, lift]) true = .ok t ∧
    t.IsNumbered ∧ propositionCount t = 3 ∧ (run t 10 (initialState t)).2 = 3 ∧
      (run t 10 (initialState t)).2 ≤ 3 * 3 + 1 ∧ (fixpoint t 10).isQuiet = true := by
  have hrun : ∃ t ∈ (Grounding.ground (swapping [swap, lift]) true).toOption,
      propositionCount t = 3 ∧ (run t 10 (initialState t)).2 = 3 := by
    decide +kernel
  obtain ⟨t, hmem, hcount, hpasses⟩ := hrun
  have hground : Grounding.ground (swapping [swap, lift]) true = .ok t :=
    Grounding.eq_ok_of_mem_toOption hmem
  have ht := (Grounding.ground_isOrderly hground).numbered
  obtain ⟨hle, hquiet⟩ := run_converges ht 10
  rw [hcount] at hle hquiet
  exact ⟨t, hground, ht, hcount, hpasses, hle, (hquiet (by decide)).1⟩

end TemporalPlanning.Mutex
