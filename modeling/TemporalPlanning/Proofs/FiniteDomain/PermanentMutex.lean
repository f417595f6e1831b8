import Mathlib.Logic.Relation
import TemporalPlanning.Proofs.FiniteDomain.Requirers
import TemporalPlanning.Proofs.Mutex.Marks
/-!
Which mutex facts are permanently so.

The search that looks for permanent mutexes goes from facts to the effects of their requirers. What
one step of it keeps is collected in `Search.Follows`; from this follows that the facts left over
are exactly those targets that no chain of requirers leads to. The rounds suffice, because every
round but the last takes an action that was not taken before.
-/
set_option autoImplicit false

namespace TemporalPlanning.FiniteDomain

open Relation

namespace Task

/-- A fact leads to the effects of the actions that require it. -/
def LeadsTo (t : Task) (f g : FactCode) : Prop :=
  ∃ a ∈ t.actions, f.IsAmong a.conditions ∧ g.IsAmong a.effects

/-- Actions carry their positions. -/
def HasNumberedActions (t : Task) : Prop := ∀ (i : Nat) (a : Action), t.actions[i]? = some a →
  a.index = i

theorem HasNumberedActions.getElem? {t : Task} (h : t.HasNumberedActions) {a : Action}
    (ha : a ∈ t.actions) : t.actions[a.index]? = some a := by
  obtain ⟨i, hi⟩ := Array.mem_iff_getElem?.mp ha
  rw [h i a hi]
  exact hi

/-- Actions carry their positions if the list of what they carry is that of all positions. -/
theorem HasNumberedActions.of_map_index {t : Task}
    (h : t.actions.toList.map Action.index = List.range t.actions.size) : t.HasNumberedActions := by
  intro i a ha
  have hlt : i < t.actions.size := (Array.getElem?_eq_some_iff.mp ha).1
  have hi : (t.actions.toList.map Action.index)[i]? = some i := by
    rw [h, List.getElem?_range hlt]
  rw [List.getElem?_map, Array.getElem?_toList, ha] at hi
  exact Option.some.inj hi

end Task

namespace Search

/-! ## Finding facts -/

/-- What finding the facts of some effects changes. -/
structure Finds (effects : List Condition) (s s' : Search) : Prop where
  taken : s'.taken = s.taken
  targets : ∀ n, n ∈ s'.targets ↔ n ∈ s.targets ∧ ¬(⟨n⟩ : FactCode).IsAmong effects
  found : ∀ n, n ∈ s'.found ↔ n ∈ s.found ∨ (⟨n⟩ : FactCode).IsAmong effects
  fresh : ∀ n, n ∈ s'.fresh ↔ n ∈ s.fresh ∨ (n ∈ s'.found ∧ n ∉ s.found)

theorem find_finds {s s' : Search} {e : Condition} (h : s.find e = .ok s') : Finds [e] s s' := by
  obtain ⟨f, hf, hs'⟩ := Grounding.except_bind_eq_ok.mp h
  have hcode : ∀ n, (⟨n⟩ : FactCode).IsAmong [e] ↔ f.code = n := by
    intro n
    rw [FactCode.isAmong_cons hf, or_iff_left (FactCode.not_isAmong_nil _)]
    cases f
    rw [FactCode.mk.injEq]
    exact eq_comm
  have htargets : ∀ n, n ∈ s.targets.erase f.code ↔
      n ∈ s.targets ∧ ¬(⟨n⟩ : FactCode).IsAmong [e] := by
    intro n
    rw [hcode, Std.TreeSet.mem_erase, Ne, Std.compare_eq_iff_eq, and_comm]
  dsimp only at hs'
  split at hs'
  next hknown =>
    cases hs'
    have hmem : f.code ∈ s.found := hknown
    refine ⟨rfl, htargets, fun n => ?_, fun n => ?_⟩
    · rw [hcode]
      constructor
      · exact Or.inl
      · rintro (hn | rfl)
        · exact hn
        · exact hmem
    · exact ⟨Or.inl, fun hn => hn.elim id fun hnew => absurd hnew.1 hnew.2⟩
  next hnew =>
    cases hs'
    have hmem : f.code ∉ s.found := hnew
    have hfound : ∀ n, n ∈ s.found.insert f.code ↔ n ∈ s.found ∨ f.code = n := by
      intro n
      rw [Std.TreeSet.mem_insert, Std.compare_eq_iff_eq, or_comm]
    refine ⟨rfl, htargets, fun n => by rw [hcode]; exact hfound n, fun n => ?_⟩
    show n ∈ f.code :: s.fresh ↔ n ∈ s.fresh ∨ (n ∈ s.found.insert f.code ∧ n ∉ s.found)
    rw [hfound, List.mem_cons]
    constructor
    · rintro (rfl | hn)
      · exact Or.inr ⟨Or.inr rfl, hmem⟩
      · exact Or.inl hn
    · rintro (hn | ⟨hn | rfl, hnot⟩)
      · exact Or.inr hn
      · exact absurd hn hnot
      · exact Or.inl rfl

theorem foldlM_find_finds {effects : List Condition} {s s' : Search}
    (h : effects.foldlM find s = .ok s') : Finds effects s s' := by
  induction effects generalizing s with
  | nil =>
    cases h
    refine ⟨rfl, fun n => ?_, fun n => ?_, fun n => ?_⟩
    · simp only [FactCode.not_isAmong_nil, not_false_iff, and_true]
    · simp only [FactCode.not_isAmong_nil, or_false]
    · simp only [and_not_self, or_false]
  | cons e effects ih =>
    obtain ⟨next, hnext, hrest⟩ := Grounding.except_bind_eq_ok.mp h
    have hfirst := find_finds hnext
    have hlast := ih hrest
    have hsplit : ∀ n, (⟨n⟩ : FactCode).IsAmong (e :: effects) ↔
        (⟨n⟩ : FactCode).IsAmong [e] ∨ (⟨n⟩ : FactCode).IsAmong effects := by
      intro n
      simp only [FactCode.IsAmong, List.exists_mem_cons_iff, List.not_mem_nil, false_and,
        exists_false, or_false]
    refine ⟨hlast.taken.trans hfirst.taken, fun n => ?_, fun n => ?_, fun n => ?_⟩
    · rw [hlast.targets, hfirst.targets, hsplit, not_or, and_assoc]
    · rw [hlast.found, hfirst.found, hsplit, or_assoc]
    · rw [hlast.fresh, hfirst.fresh, hlast.found, hfirst.found]
      tauto

/-! ## What the search keeps -/

/-- The number of actions that have not been taken. -/
def untaken (s : Search) : Nat := s.taken.count false

/-- A search goes on: actions remain taken, and fresh facts come from actions taken only now. -/
structure Advances (s s' : Search) : Prop where
  taken : ∀ i : Nat, s.taken[i]? = some true → s'.taken[i]? = some true
  found : ∀ n ∈ s.found, n ∈ s'.found
  progress : (s'.untaken = s.untaken ∧ s'.fresh = s.fresh) ∨ s'.untaken < s.untaken

theorem Advances.refl (s : Search) : s.Advances s :=
  ⟨fun _ h => h, fun _ h => h, Or.inl ⟨rfl, rfl⟩⟩

theorem Advances.trans {s s' s'' : Search} (h : s.Advances s') (h' : s'.Advances s'') :
    s.Advances s'' := by
  refine ⟨fun i hi => h'.taken i (h.taken i hi), fun n hn => h'.found n (h.found n hn), ?_⟩
  rcases h.progress with ⟨hcount, hfresh⟩ | hlt
  · rw [← hcount, ← hfresh]
    exact h'.progress
  · refine Or.inr ?_
    rcases h'.progress with ⟨hcount, -⟩ | hlt'
    · omega
    · omega

/-- What holds of a search from a fact while some of the facts found are still to be followed. -/
structure Follows (t : Task) (c : FactCode) (targets : Std.TreeSet Nat) (pending : List Nat)
    (s : Search) : Prop where
  size : s.taken.size = t.actions.size
  start : c.code ∈ s.found
  reached : ∀ n ∈ s.found, ReflTransGen t.LeadsTo c ⟨n⟩
  remaining : ∀ n ∈ s.targets, n ∈ targets
  removed : ∀ n ∈ targets, n ∈ s.targets ∨ TransGen t.LeadsTo c ⟨n⟩
  effects : ∀ (i : Nat) (a : Action), t.actions[i]? = some a → s.taken[i]? = some true →
    ∀ n, (⟨n⟩ : FactCode).IsAmong a.effects → n ∈ s.found ∧ n ∉ s.targets
  queued : ∀ n, n ∈ pending ∨ n ∈ s.fresh → n ∈ s.found
  followed : (∀ n, n ∉ s.targets) ∨ ∀ n ∈ s.found, n ∈ pending ∨ n ∈ s.fresh ∨
    ∀ i ∈ t.requirers.actionsOf n, s.taken[i]? = some true

variable {t : Task} {c : FactCode} {targets : Std.TreeSet Nat} {pending : List Nat}
  {s s' : Search}

theorem start_follows : (start t c.code targets).Follows t c targets [c.code] := by
  have hfound : ∀ n, n ∈ (start t c.code targets).found ↔ c.code = n := by
    intro n
    show n ∈ (∅ : Std.TreeSet Nat).insert c.code ↔ c.code = n
    rw [Std.TreeSet.mem_insert, Std.compare_eq_iff_eq, or_iff_left Std.TreeSet.not_mem_emptyc]
  have hnone : ∀ i : Nat, (start t c.code targets).taken[i]? ≠ some true := by
    intro i hi
    rw [start, Array.getElem?_replicate] at hi
    split at hi
    · cases hi
    · cases hi
  refine ⟨Array.size_replicate, (hfound _).mpr rfl, fun n hn => ?_, fun n hn => hn,
    fun n hn => Or.inl hn, fun i a _ hi => absurd hi (hnone i), fun n hn => ?_,
    Or.inr fun n hn => ?_⟩
  · obtain rfl := (hfound n).mp hn
    exact ReflTransGen.refl
  · rcases hn with hn | hn
    · exact (hfound n).mpr (List.mem_singleton.mp hn).symm
    · exact absurd hn List.not_mem_nil
  · exact Or.inl (List.mem_singleton.mpr ((hfound n).mp hn).symm)

/-- An action that has been taken is left alone, the effects of another one are looked at. -/
theorem take_cases {i : Nat} {a : Action} (ha : t.actions[i]? = some a) (hi : i < s.taken.size)
    (h : take t s i = .ok s') :
    (s.taken[i] = true ∧ s' = s) ∨
      (s.taken[i] = false ∧
        Finds a.effects { s with taken := s.taken.setIfInBounds i true } s') := by
  rw [take, Array.getD_eq_getD_getElem?, Array.getElem?_eq_getElem hi, Option.getD_some, ha] at h
  cases hflag : s.taken[i] with
  | true =>
    rw [hflag, if_pos rfl] at h
    cases h
    exact Or.inl ⟨rfl, rfl⟩
  | false =>
    rw [hflag, if_neg Bool.false_ne_true] at h
    exact Or.inr ⟨rfl, foldlM_find_finds h⟩

/-- Looking at the effects of an action that a fact found leads to. -/
theorem Follows.of_finds (h : s.Follows t c targets pending) {i : Nat} {a : Action}
    (ha : t.actions[i]? = some a) (hi : i < s.taken.size)
    (hlink : ∀ n, (⟨n⟩ : FactCode).IsAmong a.effects → TransGen t.LeadsTo c ⟨n⟩)
    (hfinds : Finds a.effects { s with taken := s.taken.setIfInBounds i true } s') :
    s'.Follows t c targets pending ∧ s'.taken[i]? = some true ∧
      ∀ j : Nat, s.taken[j]? = some true → s'.taken[j]? = some true := by
  have hmarked : ∀ j, s'.taken[j]? = some true ↔ j = i ∨ s.taken[j]? = some true := by
    intro j
    rw [hfinds.taken, Array.getElem?_setIfInBounds]
    by_cases hj : i = j
    · subst hj
      simp only [if_pos, hi, true_or]
    · rw [if_neg hj, or_iff_right (Ne.symm hj)]
  refine ⟨⟨?_, ?_, ?_, ?_, ?_, ?_, ?_, ?_⟩, (hmarked i).mpr (Or.inl rfl),
    fun j hj => (hmarked j).mpr (Or.inr hj)⟩
  · rw [hfinds.taken, Array.size_setIfInBounds]
    exact h.size
  · exact (hfinds.found _).mpr (Or.inl h.start)
  · intro m hm
    rcases (hfinds.found m).mp hm with hm | hm
    · exact h.reached m hm
    · exact (hlink m hm).to_reflTransGen
  · intro m hm
    exact h.remaining m ((hfinds.targets m).mp hm).1
  · intro m hm
    rcases h.removed m hm with hleft | hreached
    · by_cases heffect : (⟨m⟩ : FactCode).IsAmong a.effects
      · exact Or.inr (hlink m heffect)
      · exact Or.inl ((hfinds.targets m).mpr ⟨hleft, heffect⟩)
    · exact Or.inr hreached
  · intro j b hj hmark m hm
    rcases (hmarked j).mp hmark with rfl | hbefore
    · rw [ha] at hj
      cases hj
      exact ⟨(hfinds.found m).mpr (Or.inr hm), fun hm' => ((hfinds.targets m).mp hm').2 hm⟩
    · obtain ⟨hfound, hnot⟩ := h.effects j b hj hbefore m hm
      exact ⟨(hfinds.found m).mpr (Or.inl hfound), fun hm' => hnot ((hfinds.targets m).mp hm').1⟩
  · intro m hm
    rcases hm with hm | hm
    · exact (hfinds.found m).mpr (Or.inl (h.queued m (Or.inl hm)))
    · rcases (hfinds.fresh m).mp hm with hm | hm
      · exact (hfinds.found m).mpr (Or.inl (h.queued m (Or.inr hm)))
      · exact hm.1
  · rcases h.followed with hempty | hall
    · exact Or.inl fun m hm => hempty m ((hfinds.targets m).mp hm).1
    · refine Or.inr fun m hm => ?_
      by_cases hbefore : m ∈ s.found
      · rcases hall m hbefore with hpending | hfresh | htaken
        · exact Or.inl hpending
        · exact Or.inr (Or.inl ((hfinds.fresh m).mpr (Or.inl hfresh)))
        · exact Or.inr (Or.inr fun j hj => (hmarked j).mpr (Or.inr (htaken j hj)))
      · exact Or.inr (Or.inl ((hfinds.fresh m).mpr (Or.inr ⟨hm, hbefore⟩)))

/-- A fact all of whose requirers have been taken need not be followed. -/
theorem Follows.drop {n : Nat} (h : s.Follows t c targets (n :: pending))
    (hn : (∀ m, m ∉ s.targets) ∨ ∀ i ∈ t.requirers.actionsOf n, s.taken[i]? = some true) :
    s.Follows t c targets pending := by
  refine { h with queued := fun m hm => ?_, followed := ?_ }
  · exact h.queued m (hm.imp_left (List.mem_cons_of_mem n))
  · rcases hn with hempty | htaken
    · exact Or.inl hempty
    · refine h.followed.imp_right fun hall m hm => ?_
      rcases hall m hm with hpending | hrest
      · rcases List.mem_cons.mp hpending with rfl | hpending
        · exact Or.inr (Or.inr htaken)
        · exact Or.inl hpending
      · exact Or.inr hrest

/-- The facts found last are followed next. -/
theorem Follows.requeue (h : s.Follows t c targets []) :
    { s with fresh := [] }.Follows t c targets s.fresh.reverse := by
  refine { h with queued := fun m hm => ?_, followed := h.followed.imp_right fun hall m hm => ?_ }
  · rcases hm with hm | hm
    · exact h.queued m (Or.inr (List.mem_reverse.mp hm))
    · exact absurd hm List.not_mem_nil
  · rcases hall m hm with hpending | hfresh | htaken
    · exact absurd hpending List.not_mem_nil
    · exact Or.inl (List.mem_reverse.mpr hfresh)
    · exact Or.inr (Or.inr htaken)

/-! ## Steps and rounds -/

section Steps

variable (hindex : t.HasRequirers) (hnumbered : t.HasNumberedActions)
include hindex hnumbered

/-- Taking an action that requires a fact found. -/
theorem take_follows (h : s.Follows t c targets pending) {n i : Nat} (hn : n ∈ s.found)
    (hi : i ∈ t.requirers.actionsOf n) (htake : take t s i = .ok s') :
    s'.Follows t c targets pending ∧ s.Advances s' ∧ s'.taken[i]? = some true := by
  obtain ⟨a, ha, hcondition, rfl⟩ := (hindex n i).mp hi
  have hget := hnumbered.getElem? ha
  have hlt : a.index < s.taken.size := by
    rw [h.size]
    exact (Array.getElem?_eq_some_iff.mp hget).1
  rcases take_cases hget hlt htake with ⟨hflag, rfl⟩ | ⟨hflag, hfinds⟩
  · exact ⟨h, .refl _, Array.getElem?_eq_some_iff.mpr ⟨hlt, hflag⟩⟩
  · -- the chain to the fact found goes on to the effects of its requirer
    have hlink : ∀ m, (⟨m⟩ : FactCode).IsAmong a.effects → TransGen t.LeadsTo c ⟨m⟩ :=
      fun m hm => TransGen.tail' (h.reached n hn) ⟨a, ha, hcondition, hm⟩
    obtain ⟨hfollows, htaken, hmono⟩ := h.of_finds hget hlt hlink hfinds
    refine ⟨hfollows, ⟨hmono, fun m hm => (hfinds.found m).mpr (Or.inl hm), Or.inr ?_⟩, htaken⟩
    rw [untaken, untaken, hfinds.taken]
    exact count_false_set_lt hlt hflag

/-- Taking several actions that require a fact found. -/
theorem foldlM_take_follows {actions : List Nat} {n : Nat}
    (hactions : ∀ i ∈ actions, i ∈ t.requirers.actionsOf n) (h : s.Follows t c targets pending)
    (hn : n ∈ s.found) (hfold : actions.foldlM (take t) s = .ok s') :
    s'.Follows t c targets pending ∧ s.Advances s' ∧ ∀ i ∈ actions, s'.taken[i]? = some true := by
  induction actions generalizing s with
  | nil =>
    cases hfold
    exact ⟨h, .refl _, fun i hi => absurd hi List.not_mem_nil⟩
  | cons i actions ih =>
    obtain ⟨next, hnext, hrest⟩ := Grounding.except_bind_eq_ok.mp hfold
    obtain ⟨hfirst, hadv, htaken⟩ :=
      take_follows hindex hnumbered h hn (hactions i List.mem_cons_self) hnext
    obtain ⟨hlast, hadv', htaken'⟩ :=
      ih (fun j hj => hactions j (List.mem_cons_of_mem i hj)) hfirst (hadv.found n hn) hrest
    refine ⟨hlast, hadv.trans hadv', fun j hj => ?_⟩
    rcases List.mem_cons.mp hj with rfl | hj
    · exact hadv'.taken j htaken
    · exact htaken' j hj

/-- Following a fact that has been found. -/
theorem follow_follows {n : Nat} (h : s.Follows t c targets (n :: pending))
    (hfollow : follow t s n = .ok s') :
    s'.Follows t c targets pending ∧ s.Advances s' := by
  rw [follow] at hfollow
  split at hfollow
  next hempty =>
    cases hfollow
    have hnone : ∀ m, m ∉ s.targets := Std.TreeSet.isEmpty_iff_forall_not_mem.mp hempty
    exact ⟨h.drop (Or.inl hnone), .refl s⟩
  next =>
    have hn : n ∈ s.found := h.queued n (Or.inl List.mem_cons_self)
    obtain ⟨hfollows, hadv, htaken⟩ :=
      foldlM_take_follows hindex hnumbered (fun _ hi => hi) h hn hfollow
    exact ⟨hfollows.drop (Or.inr htaken), hadv⟩

/-- A round follows all facts that were found in the round before. -/
theorem foldlM_follow_follows {facts : List Nat} (h : s.Follows t c targets facts)
    (hfold : facts.foldlM (follow t) s = .ok s') :
    s'.Follows t c targets [] ∧ s.Advances s' := by
  induction facts generalizing s with
  | nil =>
    cases hfold
    exact ⟨h, .refl _⟩
  | cons n facts ih =>
    obtain ⟨next, hnext, hrest⟩ := Grounding.except_bind_eq_ok.mp hfold
    obtain ⟨hfirst, hadv⟩ := follow_follows hindex hnumbered h hnext
    obtain ⟨hlast, hadv'⟩ := ih hfirst hrest
    exact ⟨hlast, hadv.trans hadv'⟩

/-- A search with enough rounds ends with nothing left to be followed. The measure is the number of
actions not taken; it falls in every round after which there are fresh facts. -/
theorem run_follows {rounds : Nat} {facts : List Nat}
    (h : { s with fresh := [] }.Follows t c targets facts)
    (hrounds : facts = [] ∨ s.untaken < rounds) (hrun : run t rounds facts s = .ok s') :
    { s' with fresh := [] }.Follows t c targets [] := by
  induction rounds generalizing facts s with
  | zero =>
    have hfacts : facts = [] := hrounds.resolve_right (Nat.not_lt_zero _)
    subst hfacts
    cases hrun
    exact h
  | succ rounds ih =>
    rw [run] at hrun
    split at hrun
    next hempty =>
      cases hrun
      rw [List.isEmpty_iff.mp hempty] at h
      exact h
    next hfacts =>
      obtain ⟨next, hnext, hrest⟩ := Grounding.except_bind_eq_ok.mp hrun
      obtain ⟨hfollows, hadv⟩ := foldlM_follow_follows hindex hnumbered h hnext
      refine ih hfollows.requeue ?_ hrest
      have hlt : s.untaken < rounds + 1 := hrounds.resolve_left fun hnil =>
        hfacts (List.isEmpty_iff.mpr hnil)
      rcases hadv.progress with ⟨-, hfresh⟩ | hless
      · refine Or.inl ?_
        rw [hfresh, List.reverse_nil]
      · have hless' : next.untaken < s.untaken := hless
        exact Or.inr (by omega)

end Steps

/-- What is left of the targets of a finished search is what no chain leads to. -/
theorem Follows.mem_targets_iff (hindex : t.HasRequirers) (hnumbered : t.HasNumberedActions)
    (h : s.Follows t c targets []) (hfresh : s.fresh = []) (n : Nat) :
    n ∈ s.targets ↔ n ∈ targets ∧ ¬TransGen t.LeadsTo c ⟨n⟩ := by
  constructor
  · intro hn
    -- nothing is left to be followed, since a target is left
    have hall : ∀ m ∈ s.found, ∀ i ∈ t.requirers.actionsOf m, s.taken[i]? = some true := by
      rcases h.followed with hempty | hall
      · exact absurd hn (hempty n)
      · intro m hm
        rcases hall m hm with hpending | hlast | htaken
        · exact absurd hpending List.not_mem_nil
        · rw [hfresh] at hlast
          exact absurd hlast List.not_mem_nil
        · exact htaken
    have hstep : ∀ f g, f.code ∈ s.found → t.LeadsTo f g →
        g.code ∈ s.found ∧ g.code ∉ s.targets := by
      rintro f g hf ⟨a, ha, hcondition, heffect⟩
      have hrequirer : a.index ∈ t.requirers.actionsOf f.code :=
        (hindex f.code a.index).mpr ⟨a, ha, hcondition, rfl⟩
      exact h.effects a.index a (hnumbered.getElem? ha) (hall f.code hf a.index hrequirer) g.code
        heffect
    have hchain : ∀ g, TransGen t.LeadsTo c g → g.code ∈ s.found ∧ g.code ∉ s.targets := by
      intro g hg
      induction hg with
      | single hlast => exact hstep c _ h.start hlast
      | tail _ hlast ih => exact hstep _ _ ih.1 hlast
    exact ⟨h.remaining n hn, fun hg => (hchain ⟨n⟩ hg).2 hn⟩
  · rintro ⟨hn, hnot⟩
    exact (h.removed n hn).resolve_right hnot

end Search

/-! ## Permanent mutexes -/

section Permanent

variable {t : Task} (hindex : t.HasRequirers) (hnumbered : t.HasNumberedActions)
include hindex hnumbered

theorem mem_unreachable {c : FactCode} {targets left : Std.TreeSet Nat}
    (h : unreachable t c.code targets = .ok left) (n : Nat) :
    n ∈ left ↔ n ∈ targets ∧ ¬TransGen t.LeadsTo c ⟨n⟩ := by
  obtain ⟨s, hrun, hleft⟩ := Grounding.except_bind_eq_ok.mp h
  cases hleft
  have huntaken : (Search.start t c.code targets).untaken < t.actions.size + 1 := by
    have hsize : (Search.start t c.code targets).taken.size = t.actions.size := Array.size_replicate
    have hcount : (Search.start t c.code targets).taken.count false ≤
        (Search.start t c.code targets).taken.size := Array.count_le_size
    rw [Search.untaken]
    omega
  have hend := Search.run_follows hindex hnumbered Search.start_follows (Or.inr huntaken) hrun
  exact hend.mem_targets_iff hindex hnumbered rfl n

omit hindex hnumbered in
theorem mem_foldl_insert (fact c d : Nat) (others : List Nat) (pairs : PairSet) :
    (c, d) ∈ others.foldl (fun pairs other => pairs.insert (fact, other)) pairs ↔
      (c, d) ∈ pairs ∨ (fact = c ∧ d ∈ others) := by
  induction others generalizing pairs with
  | nil => simp only [List.foldl_nil, List.not_mem_nil, and_false, or_false]
  | cons other others ih =>
    rw [List.foldl_cons, ih, Std.TreeSet.mem_insert, Std.LawfulEqCmp.compare_eq_iff_eq,
      Prod.mk.injEq, List.mem_cons]
    tauto

omit hindex hnumbered in
theorem mem_partners (mutex : PairSet) (c d : Nat) :
    d ∈ (partners mutex).getD c ∅ ↔ (c, d) ∈ mutex := by
  have hfold : ∀ (l : List (Nat × Nat)) (index : PartnerIndex),
      d ∈ (l.foldl (fun index (p : Nat × Nat) =>
        index.alter p.1 fun others => some ((others.getD ∅).insert p.2)) index).getD c ∅ ↔
          d ∈ index.getD c ∅ ∨ (c, d) ∈ l := by
    intro l
    induction l with
    | nil => intro index; simp only [List.foldl_nil, List.not_mem_nil, or_false]
    | cons p l ih =>
      intro index
      rw [List.foldl_cons, ih, Std.TreeMap.getD_alter, List.mem_cons]
      by_cases hp : p.1 = c
      · rw [if_pos (Std.compare_eq_iff_eq.mpr hp), Option.getD_some, Std.TreeSet.mem_insert,
          Std.compare_eq_iff_eq, ← hp, Std.TreeMap.getD_eq_getD_getElem?, Prod.ext_iff]
        tauto
      · rw [if_neg (Std.compare_eq_iff_eq.not.mpr hp), Prod.ext_iff]
        tauto
  rw [partners]
  refine (hfold mutex.toList ∅).trans ?_
  rw [Std.TreeMap.getD_emptyc, or_iff_right Std.TreeSet.not_mem_emptyc, Std.TreeSet.mem_toList]

theorem mem_foldlM_unreachable (l : List (Nat × Std.TreeSet Nat)) (pairs pairs' : PairSet)
    (h : l.foldlM (fun (pairs : PairSet) (fact, others) => do
      let excluded ← unreachable t fact others
      return excluded.foldl (fun (pairs : PairSet) other => pairs.insert (fact, other))
        pairs) pairs = .ok pairs') (c d : Nat) :
    (c, d) ∈ pairs' ↔ (c, d) ∈ pairs ∨
      ∃ others, (c, others) ∈ l ∧ d ∈ others ∧ ¬TransGen t.LeadsTo ⟨c⟩ ⟨d⟩ := by
  induction l generalizing pairs with
  | nil =>
    cases h
    simp only [List.not_mem_nil, false_and, exists_false, or_false]
  | cons p l ih =>
    obtain ⟨fact, targets⟩ := p
    obtain ⟨next, hnext, hrest⟩ := Grounding.except_bind_eq_ok.mp h
    obtain ⟨left, hleft, hpairs⟩ := Grounding.except_bind_eq_ok.mp hnext
    cases hpairs
    have hmem := mem_unreachable hindex hnumbered (c := ⟨fact⟩) hleft d
    rw [ih _ hrest, Std.TreeSet.foldl_eq_foldl_toList, mem_foldl_insert, Std.TreeSet.mem_toList,
      hmem]
    constructor
    · rintro ((hbefore | ⟨rfl, hd, hnot⟩) | ⟨others, hothers, hd, hnot⟩)
      · exact Or.inl hbefore
      · exact Or.inr ⟨targets, List.mem_cons_self, hd, hnot⟩
      · exact Or.inr ⟨others, List.mem_cons_of_mem _ hothers, hd, hnot⟩
    · rintro (hbefore | ⟨others, hothers, hd, hnot⟩)
      · exact Or.inl (Or.inl hbefore)
      · rcases List.mem_cons.mp hothers with heq | hothers
        · cases heq
          exact Or.inl (Or.inr ⟨rfl, hd, hnot⟩)
        · exact Or.inr ⟨others, hothers, hd, hnot⟩

/-- The permanent mutexes are the mutexes whose first fact does not lead to the second. -/
theorem mem_permanentFacts {pairs : PairSet} (h : permanentFacts t = .ok pairs) (c d : Nat) :
    (c, d) ∈ pairs ↔ (c, d) ∈ t.mutex ∧ ¬TransGen t.LeadsTo ⟨c⟩ ⟨d⟩ := by
  rw [mem_foldlM_unreachable hindex hnumbered _ ∅ pairs h c d,
    or_iff_right Std.TreeSet.not_mem_emptyc, ← mem_partners t.mutex c d,
    Std.TreeMap.getD_eq_getD_getElem?]
  simp only [Std.TreeMap.mem_toList_iff_getElem?_eq_some]
  cases (partners t.mutex)[c]? with
  | none => simp only [reduceCtorEq, false_and, exists_false, Option.getD_none,
      Std.TreeSet.not_mem_emptyc]
  | some others => simp only [Option.some.injEq, Option.getD_some, exists_eq_left']

end Permanent

/-- What is known of permanent mutexes after they have been computed. -/
theorem computePermanentMutex_ensures {t : Task} (hindex : t.HasRequirers)
    (hnumbered : t.HasNumberedActions) :
    computePermanentMutex.Ensures t fun _ T => T.actions = t.actions ∧ T.mutex = t.mutex ∧
      ∀ c d, T.isPermanentMutex c d = true ↔
        t.isMutex c d = true ∧ ¬TransGen t.LeadsTo c d := by
  refine Update.ensures_bind.mpr (Update.ensures_get.mpr ?_)
  refine Update.ensures_bind.mpr (Update.ensures_lift.mpr fun pairs hpairs => ?_)
  refine Update.ensures_bind.mpr (Update.ensures_modify.mpr ?_)
  refine Update.ensures_bind.mpr (Update.ensures_get.mpr ?_)
  -- whichever pairs of actions exclude each other
  have hlast : ∀ exclusive : PairSet, Update.Ensures
      (modify fun t => { t with permanentMutexActions := exclusive })
      { t with permanentMutex := pairs } fun _ T => T.actions = t.actions ∧ T.mutex = t.mutex ∧
        ∀ c d, T.isPermanentMutex c d = true ↔
          t.isMutex c d = true ∧ ¬TransGen t.LeadsTo c d := fun _ =>
    Update.ensures_modify.mpr ⟨rfl, rfl, fun c d =>
      mem_permanentFacts hindex hnumbered hpairs c.code d.code⟩
  dsimp only
  split
  · exact Update.ensures_bind.mpr (Update.ensures_pure.mpr (hlast _))
  · exact Update.ensures_bind.mpr (Update.ensures_lift.mpr fun exclusive _ => hlast exclusive)

/-- After both computations the permanent mutexes are the mutexes whose first fact does not lead to
the second one. -/
theorem isPermanentMutex_iff {t T : Task} (hnumbered : t.HasNumberedActions)
    (hrun : (do computeRequirers; computePermanentMutex).runOn t = (.ok (), T)) (c d : FactCode) :
    T.isPermanentMutex c d = true ↔ T.isMutex c d = true ∧ ¬TransGen T.LeadsTo c d := by
  obtain ⟨_, t', hfirst, hlast⟩ := Update.exists_runOn_of_bind hrun
  obtain ⟨hactions, hindex⟩ := computeRequirers_ensures t _ _ hfirst
  have hnumbered' : t'.HasNumberedActions := by
    rw [Task.HasNumberedActions, hactions]
    exact hnumbered
  obtain ⟨hactions', hmutex', hpermanent⟩ :=
    computePermanentMutex_ensures hindex hnumbered' _ _ hlast
  have hleads : T.LeadsTo = t'.LeadsTo := by
    funext f g
    rw [Task.LeadsTo, Task.LeadsTo, hactions']
  rw [hpermanent, hleads, Task.isMutex, Task.isMutex, hmutex']

end TemporalPlanning.FiniteDomain
