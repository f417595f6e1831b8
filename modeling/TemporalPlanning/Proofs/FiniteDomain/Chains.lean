import TemporalPlanning.Proofs.FiniteDomain.Frames
import TemporalPlanning.Proofs.FiniteDomain.Runs
/-!
Chains of actions, and actions that never follow each other.

What the search for permanent mutexes leaves over is said here with chains of actions instead of a
relation between facts: the first action of a chain requires a fact, every later one an effect of
the action before it. From the permanent mutexes of facts come those of actions. Every pair of
actions is looked at once, in the order of the table, and recorded in both orders; with actions that
carry their positions the result is therefore a symmetric, irreflexive relation, and it is the one
that the facts give.
-/
set_option autoImplicit false

namespace TemporalPlanning.FiniteDomain

open Relation

/-! ## Chains -/

/-- A chain of actions from a fact to another one. The first action has the fact as a condition,
every later one an effect of the action before it, and the other fact is an effect of the last
one. -/
structure Task.IsChain (t : Task) (f g : FactCode) (chain : List Action) : Prop where
  actions : ∀ a ∈ chain, a ∈ t.actions
  first : ∃ a ∈ chain.head?, f.IsAmong a.conditions
  linked : chain.IsChain fun a b => ∃ h : FactCode, h.IsAmong a.effects ∧ h.IsAmong b.conditions
  last : ∃ a ∈ chain.getLast?, g.IsAmong a.effects

namespace Task

variable {t : Task} {f g h : FactCode} {a : Action} {chain : List Action}

theorem isChain_singleton (ha : a ∈ t.actions) (hf : f.IsAmong a.conditions)
    (hg : g.IsAmong a.effects) : t.IsChain f g [a] where
  actions b hb := by
    rw [List.mem_singleton.mp hb]
    exact ha
  first := ⟨a, rfl, hf⟩
  linked := .singleton a
  last := ⟨a, rfl, hg⟩

theorem IsChain.cons (hchain : t.IsChain h g chain) (ha : a ∈ t.actions)
    (hf : f.IsAmong a.conditions) (hh : h.IsAmong a.effects) : t.IsChain f g (a :: chain) := by
  obtain ⟨b, hb, hcondition⟩ := hchain.first
  obtain ⟨rest, rfl⟩ : ∃ rest, chain = b :: rest := List.head?_eq_some_iff.mp hb
  refine ⟨fun c hc => ?_, ⟨a, rfl, hf⟩, ?_, ?_⟩
  · rcases List.mem_cons.mp hc with rfl | hc
    · exact ha
    · exact hchain.actions c hc
  · exact List.isChain_cons_cons.mpr ⟨⟨h, hh, hcondition⟩, hchain.linked⟩
  · rw [List.getLast?_cons_cons]
    exact hchain.last

/-- A chain of two or more actions goes on from an effect of the first one. -/
theorem IsChain.exists_tail {b : Action} (hchain : t.IsChain f g (a :: b :: chain)) :
    ∃ h, t.LeadsTo f h ∧ t.IsChain h g (b :: chain) := by
  obtain ⟨c, hc, hf⟩ := hchain.first
  cases hc
  obtain ⟨⟨h, heffect, hcondition⟩, hlinked⟩ := List.isChain_cons_cons.mp hchain.linked
  refine ⟨h, ⟨a, hchain.actions a List.mem_cons_self, hf, heffect⟩, ?_, ⟨b, rfl, hcondition⟩,
    hlinked, ?_⟩
  · exact fun c hc => hchain.actions c (List.mem_cons_of_mem a hc)
  · have hlast := hchain.last
    rw [List.getLast?_cons_cons] at hlast
    exact hlast

/-- One fact leads to another through the relation between facts exactly if it does so through a
chain of actions. -/
theorem transGen_leadsTo_iff : TransGen t.LeadsTo f g ↔ ∃ chain, t.IsChain f g chain := by
  constructor
  · intro hfg
    induction hfg using TransGen.head_induction_on with
    | single hlast =>
      obtain ⟨a, ha, hf, hg⟩ := hlast
      exact ⟨[a], isChain_singleton ha hf hg⟩
    | head hfirst _ ih =>
      obtain ⟨a, ha, hf, hh⟩ := hfirst
      obtain ⟨chain, hchain⟩ := ih
      exact ⟨a :: chain, hchain.cons ha hf hh⟩
  · rintro ⟨chain, hchain⟩
    induction chain generalizing f with
    | nil =>
      obtain ⟨a, ha, -⟩ := hchain.first
      cases ha
    | cons a rest ih =>
      cases rest with
      | nil =>
        obtain ⟨b, hb, hf⟩ := hchain.first
        obtain ⟨c, hc, hg⟩ := hchain.last
        cases hb
        cases hc
        exact TransGen.single ⟨a, hchain.actions a List.mem_cons_self, hf, hg⟩
      | cons b rest =>
        obtain ⟨h, hfirst, htail⟩ := hchain.exists_tail
        exact TransGen.head hfirst (ih htail)

end Task

/-! ## Effects that permanently exclude conditions -/

/-- An effect of the first action permanently excludes a condition of the second one. -/
def Task.Precludes (t : Task) (a b : Action) : Prop :=
  ∃ e c : FactCode, e.IsAmong a.effects ∧ c.IsAmong b.conditions ∧ t.isPermanentMutex e c = true

/-- A test of a list that reports no error finds an element with the property that the tests of the
elements decide. -/
theorem anyM_eq_ok {α : Type} {test : α → Except Error Bool} {P : α → Prop} {l : List α}
    {found : Bool} (htest : ∀ a ∈ l, ∀ b, test a = .ok b → (b = true ↔ P a))
    (h : l.anyM test = .ok found) : found = true ↔ ∃ a ∈ l, P a := by
  induction l with
  | nil =>
    cases h
    simp only [Bool.false_eq_true, List.not_mem_nil, false_and, exists_false]
  | cons a l ih =>
    rw [List.anyM_cons, Grounding.except_bind_eq_ok] at h
    obtain ⟨first, hfirst, h⟩ := h
    have ha := htest a List.mem_cons_self first hfirst
    rw [List.exists_mem_cons_iff, ← ha]
    cases first with
    | true =>
      cases h
      simp only [true_or]
    | false =>
      rw [ih (fun b hb => htest b (List.mem_cons_of_mem a hb)) h]
      simp only [Bool.false_eq_true, false_or]

theorem FactCode.isAmong_iff_exists_singleton {f : FactCode} {cs : List Condition} :
    f.IsAmong cs ↔ ∃ c ∈ cs, f.IsAmong [c] := by
  simp only [FactCode.IsAmong, List.exists_mem_cons_iff, List.not_mem_nil, false_and, exists_false,
    or_false]

theorem FactCode.isAmong_singleton {f g : FactCode} {c : Condition} (hc : c.fact = .ok g) :
    f.IsAmong [c] ↔ f = g := by
  rw [FactCode.isAmong_cons hc, or_iff_left (FactCode.not_isAmong_nil f)]

theorem precludes_eq_ok {t : Task} {a b : Action} {found : Bool} (h : t.precludes a b = .ok found) :
    found = true ↔ t.Precludes a b := by
  have hcondition : ∀ (f : FactCode), ∀ c ∈ b.conditions, ∀ r,
      (do return t.isPermanentMutex f (← c.fact) : Except Error Bool) = .ok r →
        (r = true ↔ ∃ g : FactCode, g.IsAmong [c] ∧ t.isPermanentMutex f g = true) := by
    intro f c _ r hr
    obtain ⟨g, hg, hr⟩ := Grounding.except_bind_eq_ok.mp hr
    cases hr
    simp only [FactCode.isAmong_singleton hg, exists_eq_left]
  have heffect : ∀ e ∈ a.effects, ∀ r,
      (do
        let fact ← e.fact
        b.conditions.anyM fun (c : Condition) => do
          return t.isPermanentMutex fact (← c.fact) : Except Error Bool) = .ok r →
        (r = true ↔ ∃ f : FactCode, f.IsAmong [e] ∧
          ∃ c ∈ b.conditions, ∃ g : FactCode, g.IsAmong [c] ∧ t.isPermanentMutex f g = true) := by
    intro e _ r hr
    obtain ⟨f, hf, hr⟩ := Grounding.except_bind_eq_ok.mp hr
    rw [anyM_eq_ok (hcondition f) hr]
    simp only [FactCode.isAmong_singleton hf, exists_eq_left]
  rw [anyM_eq_ok heffect h, Task.Precludes]
  constructor
  · rintro ⟨e, he, f, hf, c, hc, g, hg, hpermanent⟩
    exact ⟨f, g, FactCode.isAmong_iff_exists_singleton.mpr ⟨e, he, hf⟩,
      FactCode.isAmong_iff_exists_singleton.mpr ⟨c, hc, hg⟩, hpermanent⟩
  · rintro ⟨f, g, hf, hg, hpermanent⟩
    obtain ⟨e, he, hf⟩ := FactCode.isAmong_iff_exists_singleton.mp hf
    obtain ⟨c, hc, hg⟩ := FactCode.isAmong_iff_exists_singleton.mp hg
    exact ⟨e, he, f, hf, c, hc, g, hg, hpermanent⟩

/-! ## Pairs of actions -/

section Pairs

variable {t : Task} {pairs pairs' : PairSet} {i j : Nat}

/-- Each of two actions precludes the other. -/
def Task.AreExclusive (t : Task) (a b : Action) : Prop := t.Precludes a b ∧ t.Precludes b a

theorem Task.AreExclusive.symm {a b : Action} (h : t.AreExclusive a b) : t.AreExclusive b a :=
  ⟨h.2, h.1⟩

/-- A pair of positions is that of two actions, in one order or the other. -/
def IsPairOf (a b : Action) (i j : Nat) : Prop :=
  (a.index = i ∧ b.index = j) ∨ (b.index = i ∧ a.index = j)

theorem mem_addIfExclusive {a b : Action} (h : addIfExclusive t a pairs b = .ok pairs') :
    (i, j) ∈ pairs' ↔ (i, j) ∈ pairs ∨ (t.AreExclusive a b ∧ IsPairOf a b i j) := by
  obtain ⟨first, hfirst, h⟩ := Grounding.except_bind_eq_ok.mp h
  have ha := precludes_eq_ok hfirst
  cases first with
  | false =>
    cases h
    have hnot : ¬t.AreExclusive a b := fun hab => Bool.false_ne_true (ha.mpr hab.1)
    simp only [hnot, false_and, or_false]
  | true =>
    rw [if_pos rfl] at h
    obtain ⟨second, hsecond, h⟩ := Grounding.except_bind_eq_ok.mp h
    have hb := precludes_eq_ok hsecond
    cases second with
    | false =>
      cases h
      have hnot : ¬t.AreExclusive a b := fun hab => Bool.false_ne_true (hb.mpr hab.2)
      simp only [hnot, false_and, or_false]
    | true =>
      cases h
      have hexclusive : t.AreExclusive a b := ⟨ha.mp rfl, hb.mp rfl⟩
      simp only [Std.TreeSet.mem_insert, Std.LawfulEqCmp.compare_eq_iff_eq, Prod.mk.injEq,
        hexclusive, true_and, IsPairOf]
      tauto

theorem mem_foldlM_addIfExclusive {a : Action} {l : List Action}
    (h : l.foldlM (addIfExclusive t a) pairs = .ok pairs') :
    (i, j) ∈ pairs' ↔ (i, j) ∈ pairs ∨ ∃ b ∈ l, t.AreExclusive a b ∧ IsPairOf a b i j := by
  induction l generalizing pairs with
  | nil =>
    cases h
    simp only [List.not_mem_nil, false_and, exists_false, or_false]
  | cons b l ih =>
    obtain ⟨next, hnext, hrest⟩ := Grounding.except_bind_eq_ok.mp h
    rw [ih hrest, mem_addIfExclusive hnext, List.exists_mem_cons_iff, or_assoc]

/-- The pairs that are found are those of two actions at different places of the list. -/
theorem mem_exclusiveActions {l : List Action} (h : exclusiveActions t l pairs = .ok pairs') :
    (i, j) ∈ pairs' ↔ (i, j) ∈ pairs ∨ ∃ (m n : Nat) (a b : Action), m < n ∧ l[m]? = some a ∧
      l[n]? = some b ∧ t.AreExclusive a b ∧ IsPairOf a b i j := by
  induction l generalizing pairs with
  | nil =>
    cases h
    simp only [List.getElem?_nil, reduceCtorEq, false_and, and_false, exists_false, or_false]
  | cons a l ih =>
    obtain ⟨next, hnext, hrest⟩ := Grounding.except_bind_eq_ok.mp h
    rw [ih hrest, mem_foldlM_addIfExclusive hnext, or_assoc]
    refine or_congr_right ⟨?_, ?_⟩
    · rintro (⟨b, hb, hpair⟩ | ⟨m, n, b, c, hlt, hm, hn, hpair⟩)
      · obtain ⟨n, hn⟩ := List.mem_iff_getElem?.mp hb
        exact ⟨0, n + 1, a, b, Nat.succ_pos n, rfl, hn, hpair⟩
      · exact ⟨m + 1, n + 1, b, c, Nat.succ_lt_succ hlt, hm, hn, hpair⟩
    · rintro ⟨m, n, b, c, hlt, hm, hn, hpair⟩
      obtain ⟨k, rfl⟩ : ∃ k, n = k + 1 := ⟨n - 1, by omega⟩
      rw [List.getElem?_cons_succ] at hn
      cases m with
      | zero =>
        cases hm
        exact Or.inl ⟨c, List.mem_of_getElem? hn, hpair⟩
      | succ m =>
        exact Or.inr ⟨m, k, b, c, by omega, hm, hn, hpair⟩

/-- The pairs of actions are exclusive actions at different positions, in both orders. -/
theorem mem_exclusiveActions_iff (hnumbered : t.HasNumberedActions)
    (h : exclusiveActions t t.actions.toList ∅ = .ok pairs) :
    (i, j) ∈ pairs ↔ i ≠ j ∧ ∃ a b, t.actions[i]? = some a ∧ t.actions[j]? = some b ∧
      t.AreExclusive a b := by
  rw [mem_exclusiveActions h, or_iff_right Std.TreeSet.not_mem_emptyc]
  simp only [Array.getElem?_toList]
  constructor
  · rintro ⟨m, n, a, b, hlt, hm, hn, hexclusive, hpair⟩
    rw [IsPairOf, hnumbered m a hm, hnumbered n b hn] at hpair
    rcases hpair with ⟨rfl, rfl⟩ | ⟨rfl, rfl⟩
    · exact ⟨Nat.ne_of_lt hlt, a, b, hm, hn, hexclusive⟩
    · exact ⟨Nat.ne_of_gt hlt, b, a, hn, hm, hexclusive.symm⟩
  · rintro ⟨hne, a, b, ha, hb, hexclusive⟩
    have hi := hnumbered i a ha
    have hj := hnumbered j b hb
    by_cases hlt : i < j
    · exact ⟨i, j, a, b, hlt, ha, hb, hexclusive, Or.inl ⟨hi, hj⟩⟩
    · exact ⟨j, i, b, a, by omega, hb, ha, hexclusive.symm, Or.inr ⟨hi, hj⟩⟩

/-- What is known of the pairs of actions after permanent mutexes have been computed. -/
theorem computePermanentMutex_actions (hnumbered : t.HasNumberedActions) :
    computePermanentMutex.Ensures t fun _ T => T.actions = t.actions ∧
      ∀ i j, (i, j) ∈ T.permanentMutexActions ↔ i ≠ j ∧ ∃ a b, T.actions[i]? = some a ∧
        T.actions[j]? = some b ∧ T.AreExclusive a b := by
  refine Update.ensures_bind.mpr (Update.ensures_get.mpr ?_)
  refine Update.ensures_bind.mpr (Update.ensures_lift.mpr fun facts _ => ?_)
  refine Update.ensures_bind.mpr (Update.ensures_modify.mpr ?_)
  refine Update.ensures_bind.mpr (Update.ensures_get.mpr ?_)
  dsimp only
  split
  next hempty =>
    refine Update.ensures_bind.mpr (Update.ensures_pure.mpr (Update.ensures_modify.mpr ?_))
    refine ⟨rfl, fun i j => ?_⟩
    -- without permanent mutexes no effect precludes a condition
    have hnone : ∀ a b, ¬Task.Precludes { t with permanentMutex := facts } a b := by
      rintro a b ⟨e, c, -, -, hpermanent⟩
      exact Std.TreeSet.isEmpty_iff_forall_not_mem.mp hempty _ hpermanent
    constructor
    · exact fun hij => absurd hij Std.TreeSet.not_mem_emptyc
    · rintro ⟨-, a, b, -, -, hexclusive⟩
      exact absurd hexclusive.1 (hnone a b)
  next =>
    refine Update.ensures_bind.mpr (Update.ensures_lift.mpr fun exclusive hexclusive => ?_)
    refine Update.ensures_modify.mpr ⟨rfl, fun i j => ?_⟩
    exact mem_exclusiveActions_iff (t := { t with permanentMutex := facts }) hnumbered hexclusive

end Pairs

/-! ## Exactness -/

/-- The permanent mutexes of facts are the mutexes without a chain of actions from the first fact to
the second one, and the permanent mutexes of actions are the pairs of different actions each of
which has an effect that permanently excludes a condition of the other. -/
theorem permanentMutex_iff_no_chain {t T : Task} (hnumbered : t.HasNumberedActions)
    (hrun : (do computeRequirers; computePermanentMutex).runOn t = (.ok (), T)) :
    T.actions = t.actions ∧ T.mutex = t.mutex ∧
      (∀ f g : FactCode, (f.code, g.code) ∈ T.permanentMutex ↔
        (f.code, g.code) ∈ T.mutex ∧ ¬∃ chain, T.IsChain f g chain) ∧
      ∀ i j : Nat, (i, j) ∈ T.permanentMutexActions ↔
        i ≠ j ∧ ∃ a b : Action, T.actions[i]? = some a ∧ T.actions[j]? = some b ∧
          (∃ e c : FactCode, e.IsAmong a.effects ∧ c.IsAmong b.conditions ∧
            (e.code, c.code) ∈ T.permanentMutex) ∧
          ∃ e c : FactCode, e.IsAmong b.effects ∧ c.IsAmong a.conditions ∧
            (e.code, c.code) ∈ T.permanentMutex := by
  obtain ⟨_, t', hfirst, hlast⟩ := Update.exists_runOn_of_bind hrun
  have hsame := computeRequirers_sameActions t _ _ hfirst
  have hnumbered' : t'.HasNumberedActions := by
    rw [Task.HasNumberedActions, hsame.actions]
    exact hnumbered
  obtain ⟨hactions, hpairs⟩ := computePermanentMutex_actions hnumbered' _ _ hlast
  have hkeeps : Update.Keeps Task.mutex (do computeRequirers; computePermanentMutex) :=
    (computeRequirers_keeps (fun _ _ => rfl) fun _ _ => rfl).bind fun _ =>
      computePermanentMutex_keeps (fun _ _ => rfl) fun _ _ => rfl
  refine ⟨hactions.trans hsame.actions, hkeeps t _ _ hrun, fun f g => ?_, hpairs⟩
  rw [← Task.transGen_leadsTo_iff]
  exact isPermanentMutex_iff hnumbered hrun f g

namespace Lamp

/-- Two switches that both switch the lamp on. -/
def switches : Task :=
  { task with
    actions := #[action 0 "switch-on" [.plain off.var off.value] on,
      action 1 "press" [.plain off.var off.value] on] }

theorem switches_hasNumberedActions : switches.HasNumberedActions :=
  .of_map_index (by decide +kernel)

/-- The two switches with their permanent mutexes. -/
def exclusiveSwitches : Task := ((do computeRequirers; computePermanentMutex).runOn switches).2

/-- A lamp that is on cannot be switched off, so only one of the switches is ever used. -/
theorem switches_exclude_each_other :
    switches.HasNumberedActions ∧
      (do computeRequirers; computePermanentMutex).runOn switches = (.ok (), exclusiveSwitches) ∧
      (¬∃ chain, exclusiveSwitches.IsChain on off chain) ∧
      (0, 1) ∈ exclusiveSwitches.permanentMutexActions := by
  have hrun : (do computeRequirers; computePermanentMutex).runOn switches =
      (.ok (), exclusiveSwitches) :=
    Prod.ext (Grounding.eq_ok_of_mem_toOption (by decide +kernel)) rfl
  obtain ⟨hactions, -, hfacts, hpairs⟩ :=
    permanentMutex_iff_no_chain switches_hasNumberedActions hrun
  have hpermanent : (on.code, off.code) ∈ exclusiveSwitches.permanentMutex := by decide +kernel
  refine ⟨switches_hasNumberedActions, hrun, ((hfacts on off).mp hpermanent).2,
    (hpairs 0 1).mpr ⟨Nat.zero_ne_one, ?_⟩⟩
  rw [hactions]
  exact ⟨_, _, rfl, rfl, ⟨on, off, by decide, by decide, hpermanent⟩, on, off, by decide, by decide,
    hpermanent⟩

end Lamp

end TemporalPlanning.FiniteDomain
