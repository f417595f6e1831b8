import Mathlib.Data.List.Induction
import Mathlib.Data.List.Nodup
import TemporalPlanning.Proofs.Mutex.Members
/-!
Mutex relations and the history of their changes.

Pairs are inserted and removed in any order, many of them repeatedly and in both directions. What a
relation is after all changes is stated without it: two different variables are mutex if the last
change of their pair was an insertion (`Present`). Everything a table of pairs can be asked follows
from this, so `Answers.Describe` collects the questions with the answers that are right for a given
relation between variables; the answers determine the listed pairs with their order.
-/
set_option autoImplicit false

namespace TemporalPlanning.Mutex

/-! ## Histories -/

/-- An insertion or a removal of a pair. -/
structure Change where
  inserts : Bool
  first : VarId
  second : VarId
deriving DecidableEq

namespace Change

/-- A change is about a pair, in either order. -/
def Concerns (c : Change) (v w : VarId) : Prop :=
  (c.first = v ∧ c.second = w) ∨ (c.first = w ∧ c.second = v)

/-- A change is about variables below a width. -/
def IsBelow (n : Nat) (c : Change) : Prop := c.first.index < n ∧ c.second.index < n

instance (n : Nat) (c : Change) : Decidable (c.IsBelow n) := inferInstanceAs (Decidable (_ ∧ _))

theorem concerns_iff {c : Change} {v w : VarId} :
    c.Concerns v w ↔ Relation.pair v w = Relation.pair c.first c.second := by
  rw [eq_comm, Relation.pair_eq_iff]
  rfl

end Change

/-- Two variables are mutex after the changes: they are different, and the last change of their
pair, in either order, was an insertion. -/
def Present (changes : List Change) (v w : VarId) : Prop :=
  v ≠ w ∧ ∃ before change after, changes = before ++ change :: after ∧
    change.Concerns v w ∧ change.inserts = true ∧ ∀ later ∈ after, ¬later.Concerns v w

theorem not_present_nil (v w : VarId) : ¬Present [] v w := by
  rintro ⟨-, before, change, after, h, -⟩
  simp at h

/-- The last change decides about the pair that it concerns, and about no other. -/
theorem present_append_singleton (changes : List Change) (c : Change) (v w : VarId) :
    Present (changes ++ [c]) v w ↔
      (c.Concerns v w ∧ c.inserts = true ∧ v ≠ w) ∨ (¬c.Concerns v w ∧ Present changes v w) := by
  constructor
  · rintro ⟨hne, before, change, after, heq, hconcerns, hinserts, hlater⟩
    rcases List.eq_nil_or_concat after with rfl | ⟨after, last, rfl⟩
    · -- nothing follows the insertion, so it is the last change
      obtain ⟨-, hc⟩ := List.append_inj' heq rfl
      cases hc
      exact Or.inl ⟨hconcerns, hinserts, hne⟩
    · rw [List.concat_eq_append, ← List.cons_append, ← List.append_assoc] at heq
      obtain ⟨hchanges, hc⟩ := List.append_inj' heq rfl
      cases hc
      rw [List.concat_eq_append] at hlater
      exact Or.inr ⟨hlater c (by simp), hne, before, change, after, hchanges, hconcerns, hinserts,
        fun later h => hlater later (List.mem_append_left _ h)⟩
  · rintro (⟨hconcerns, hinserts, hne⟩ | ⟨hother, hne, before, change, after, heq, hc, hi, hlater⟩)
    · exact ⟨hne, changes, c, [], rfl, hconcerns, hinserts, by simp⟩
    · refine ⟨hne, before, change, after ++ [c], ?_, hc, hi, fun later h => ?_⟩
      · rw [heq, List.append_assoc, List.cons_append]
      · rcases List.mem_append.mp h with h | h
        · exact hlater later h
        · rw [List.mem_singleton.mp h]
          exact hother

/-! ## What a table tells -/

/-- Pairs of variables in the order of their first and then of their second members. -/
def Precedes (p q : VarId × VarId) : Prop :=
  comparePairs (p.1.index, p.2.index) (q.1.index, q.2.index) = .lt

/-- Nothing is listed twice in ascending order. -/
theorem nodup_of_ascending {l : List (VarId × VarId)} (h : l.Pairwise Precedes) : l.Nodup := by
  refine h.imp fun {p q} hpq heq => ?_
  have hself : comparePairs (q.1.index, q.2.index) (q.1.index, q.2.index) = .eq :=
    Std.ReflCmp.compare_self
  rw [heq, Precedes, hself] at hpq
  cases hpq

/-- Everything that a table of mutex pairs tells: which variables are mutex, what an insertion or
removal would report, and which pairs are listed and counted. -/
structure Answers where
  contains : VarId → VarId → Bool
  insertReports : VarId → VarId → Bool
  eraseReports : VarId → VarId → Bool
  listed : List (VarId × VarId)
  count : Nat

def Relation.answers (r : Relation) : Answers where
  contains := r.contains
  insertReports v w := (r.insert v w).2
  eraseReports v w := (r.erase v w).2
  listed := r.toList
  count := r.size

/-- Answers describe a relation between the variables below `n`. -/
structure Answers.Describe (a : Answers) (n : Nat) (mutex : VarId → VarId → Prop) : Prop where
  contains_iff : ∀ v w, v.index < n → w.index < n → (a.contains v w = true ↔ mutex v w)
  insert_iff : ∀ v w, v.index < n → w.index < n →
    (a.insertReports v w = true ↔ v ≠ w ∧ ¬mutex v w)
  erase_iff : ∀ v w, v.index < n → w.index < n → (a.eraseReports v w = true ↔ mutex v w)
  mem_listed_iff : ∀ v w, (v, w) ∈ a.listed ↔ v.index < w.index ∧ w.index < n ∧ mutex v w
  /-- In strictly ascending order, so that nothing is listed twice. -/
  ascending : a.listed.Pairwise Precedes
  count_eq : a.count = a.listed.length

namespace Answers.Describe

variable {a a' : Answers} {n : Nat} {mutex : VarId → VarId → Prop}

/-- What is told is all there is to tell: the pairs can only be listed in one way. -/
theorem listed_eq (h : a.Describe n mutex) (h' : a'.Describe n mutex) : a.listed = a'.listed := by
  refine List.Perm.eq_of_pairwise (fun p q _ _ hpq hqp => ?_) h.ascending h'.ascending ?_
  · exact absurd hqp (Std.OrientedCmp.not_lt_of_lt hpq)
  · refine (List.perm_ext_iff_of_nodup (nodup_of_ascending h.ascending)
      (nodup_of_ascending h'.ascending)).mpr fun p => ?_
    rw [h.mem_listed_iff, h'.mem_listed_iff]

end Answers.Describe

/-! ## The relation of a history -/

namespace Relation

variable {r : Relation}

/-- The relation after one change. -/
def apply (r : Relation) (c : Change) : Relation :=
  if c.inserts then (r.insert c.first c.second).1 else (r.erase c.first c.second).1

/-- The relation that a history leaves. -/
def after (changes : List Change) : Relation := changes.foldl apply empty

/-- The variables below `n` are marked. -/
def below (n : Nat) : Array Bool := Array.replicate n true

theorem isMarked_below {n : Nat} {v : VarId} : isMarked (below n) v = true ↔ v.index < n := by
  rw [isMarked, below, Array.getD_eq_getD_getElem?, Array.getElem?_replicate]
  split <;> simp [*]

theorem IsOver.apply {n : Nat} (h : r.IsOver (below n)) {c : Change} (hc : c.IsBelow n) :
    (r.apply c).IsOver (below n) := by
  unfold Relation.apply
  split
  · exact h.insert (isMarked_below.mpr hc.1) (isMarked_below.mpr hc.2)
  · exact h.erase _ _

theorem isOver_after {n : Nat} {changes : List Change} (hbelow : ∀ c ∈ changes, c.IsBelow n) :
    (after changes).IsOver (below n) :=
  List.foldlRecOn changes _ isOver_empty fun _ h c hc => h.apply (hbelow c hc)

/-- One change decides about its pair and leaves the others. -/
theorem contains_apply (r : Relation) (c : Change) {v w : VarId} (hne : v ≠ w) :
    (r.apply c).contains v w = true ↔
      (c.Concerns v w ∧ c.inserts = true) ∨ (¬c.Concerns v w ∧ r.contains v w = true) := by
  -- a pair of two different variables is only equal to another such pair
  have hfirst : c.Concerns v w → c.first ≠ c.second := by
    rintro (⟨rfl, rfl⟩ | ⟨rfl, rfl⟩)
    · exact hne
    · exact hne.symm
  unfold apply
  cases hinserts : c.inserts
  · rw [if_neg (by simp), contains_erase, ne_eq, ← Change.concerns_iff]
    simp [and_comm]
  · rw [if_pos rfl, contains_insert, ← Change.concerns_iff]
    by_cases hconcerns : c.Concerns v w
    · simp [hconcerns, hfirst hconcerns]
    · simp [hconcerns]

/-- **What a history leaves**: a pair is in the relation if its last change inserts it. -/
theorem contains_after {n : Nat} (changes : List Change)
    (hbelow : ∀ c ∈ changes, c.IsBelow n) (v w : VarId) :
    (after changes).contains v w = true ↔ Present changes v w := by
  induction changes using List.reverseRecOn with
  | nil =>
    rw [after, List.foldl_nil, contains_empty]
    simp [not_present_nil]
  | append_singleton changes c ih =>
    have hbefore : ∀ d ∈ changes, d.IsBelow n := fun d hd => hbelow d (List.mem_append_left _ hd)
    have hover := isOver_after hbelow
    have hafter : after (changes ++ [c]) = (after changes).apply c := List.foldl_append
    by_cases hne : v = w
    · -- neither the relation nor its history pairs a variable with itself
      constructor
      · intro h
        exact absurd hne (hover.of_contains h).1
      · intro h
        exact absurd hne h.1
    · rw [hafter, contains_apply _ _ hne, ih hbefore, present_append_singleton]
      simp [hne]

/-- The pairs of a relation are listed with the smaller variable first. -/
theorem IsOver.mem_toList_iff {n : Nat} (h : r.IsOver (below n)) {v w : VarId} :
    (v, w) ∈ r.toList ↔ v.index < w.index ∧ r.contains v w = true := by
  have hcontains : v.index < w.index → (r.contains v w = true ↔ (v, w) ∈ r.toList) := by
    intro hlt
    rw [mem_toList, contains, Std.TreeSet.contains_iff_mem, pair,
      Nat.min_eq_left (Nat.le_of_lt hlt), Nat.max_eq_right (Nat.le_of_lt hlt)]
  constructor
  · intro hmem
    obtain ⟨x, y, hne, -, -, hpair⟩ := h _ (mem_toList.mp hmem)
    obtain ⟨hv, hw⟩ := Prod.mk.inj hpair
    have hindices : x.index ≠ y.index := fun heq => hne (congrArg VarId.mk heq)
    have hlt : v.index < w.index := by omega
    exact ⟨hlt, (hcontains hlt).mpr hmem⟩
  · rintro ⟨hlt, hvw⟩
    exact (hcontains hlt).mp hvw

theorem toList_ascending (r : Relation) : r.toList.Pairwise Precedes := by
  have hordered : r.pairs.toList.Pairwise fun p q => comparePairs p q = .lt :=
    Std.TreeSet.ordered_toList
  exact List.pairwise_map.mpr hordered

theorem insert_reports (r : Relation) (v w : VarId) :
    (r.insert v w).2 = true ↔ v ≠ w ∧ r.contains v w = false := by
  unfold insert
  by_cases h : v = w <;> cases hr : r.contains v w <;> simp [h]

theorem erase_reports (r : Relation) (v w : VarId) : (r.erase v w).2 = r.contains v w := by
  unfold erase
  cases hr : r.contains v w <;> simp

/-- A relation whose members are a history's is described by it. -/
theorem IsOver.answers_describe {n : Nat} (h : r.IsOver (below n)) {mutex : VarId → VarId → Prop}
    (hmutex : ∀ v w, r.contains v w = true ↔ mutex v w) : r.answers.Describe n mutex where
  contains_iff v w _ _ := hmutex v w
  insert_iff v w _ _ := by
    rw [← hmutex, Bool.not_eq_true]
    exact insert_reports r v w
  erase_iff v w _ _ := by
    rw [← hmutex, ← erase_reports]
    rfl
  mem_listed_iff v w := by
    rw [← hmutex]
    constructor
    · intro hmem
      obtain ⟨hlt, hvw⟩ := h.mem_toList_iff.mp hmem
      exact ⟨hlt, isMarked_below.mp (h.of_contains hvw).2.2, hvw⟩
    · rintro ⟨hlt, -, hvw⟩
      exact h.mem_toList_iff.mpr ⟨hlt, hvw⟩
  ascending := r.toList_ascending
  count_eq := by
    show r.pairs.size = (r.pairs.toList.map _).length
    rw [List.length_map, Std.TreeSet.length_toList]

end Relation

end TemporalPlanning.Mutex
