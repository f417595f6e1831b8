import TemporalPlanning.Proofs.FlatTables
import TemporalPlanning.Proofs.Mutex.Changes
/-!
A mutex relation as a flat table.

The relation between `n` variables can be stored as a set of single numbers: the ordered pair of
`v` and `w` is the number `n * v + w`, an unordered pair is stored in both orders, and a number is
taken apart again by division and remainder. This is compact, and for up to `2 ^ 32` variables the
numbers fit in words of 64 bits. But it keeps three things only by the way it is used: that both
orders of a pair are there or neither, that no variable is paired with itself, and that every number
is one of a pair of variables of the relation.

`Bitmap.Represents` states these three against the set of unordered pairs of `Relation`. Insertions
and removals keep it and report the same on both sides, and all answers can be read off it, so
after any changes the two tables cannot be told apart.
-/
set_option autoImplicit false

namespace TemporalPlanning.Mutex

/-! ## The flat table -/

/-- A relation between the variables below a width, as a set of numbers of ordered pairs. -/
structure Bitmap where
  width : Nat
  codes : Std.TreeSet Nat

namespace Bitmap

/-- The table for `n` variables in which nothing is mutex. -/
def empty (n : Nat) : Bitmap := ⟨n, ∅⟩

variable (b : Bitmap)

/-- The number of an ordered pair. -/
def code (v w : VarId) : Nat := b.width * v.index + w.index

/-- The number of an ordered pair as it is computed in words of 64 bits. -/
def word (v w : VarId) : UInt64 := b.width.toUInt64 * v.index.toUInt64 + w.index.toUInt64

/-- The ordered pair of a number. The width is not zero where a number is stored. -/
def decode (c : Nat) : VarId × VarId := (⟨c / max b.width 1⟩, ⟨c % max b.width 1⟩)

/-- Whether two variables are mutex. Only one order is looked up. -/
def contains (v w : VarId) : Bool := b.codes.contains (b.code v w)

/-- Makes two different variables mutex, and tells whether they were not before. -/
def insert (v w : VarId) : Bitmap × Bool :=
  if v = w then (b, false)
  else
    let swapped := b.codes.insert (b.code w v)
    ({ b with codes := swapped.insert (b.code v w) }, !swapped.contains (b.code v w))

/-- Makes two variables not mutex, and tells whether they were before. -/
def erase (v w : VarId) : Bitmap × Bool :=
  let swapped := b.codes.erase (b.code w v)
  ({ b with codes := swapped.erase (b.code v w) }, swapped.contains (b.code v w))

/-- Every mutex pair once: of the two orders, the one with the smaller variable first. -/
def toList : List (VarId × VarId) :=
  (b.codes.toList.map b.decode).filter fun p => decide (p.1.index < p.2.index)

/-- The number of mutex pairs, each of which is stored twice. -/
def size : Nat := b.codes.size / 2

def answers : Answers where
  contains := b.contains
  insertReports v w := (b.insert v w).2
  eraseReports v w := (b.erase v w).2
  listed := b.toList
  count := b.size

end Bitmap

/-! ## Both orders of each pair -/

namespace Bitmap

variable {b : Bitmap} {r : Relation} {v w : VarId}

theorem code_eq (b : Bitmap) (v w : VarId) : b.code v w = v.index * b.width + w.index := by
  rw [code, Nat.mul_comm]

/-- Different ordered pairs have different places. -/
theorem code_eq_iff {x y : VarId} (hw : w.index < b.width) (hy : y.index < b.width) :
    b.code v w = b.code x y ↔ v = x ∧ w = y := by
  constructor
  · intro h
    rw [code_eq, code_eq] at h
    obtain ⟨hv, hw⟩ := code_inj hw hy h
    exact ⟨congrArg VarId.mk hv, congrArg VarId.mk hw⟩
  · rintro ⟨rfl, rfl⟩
    rfl

/-- Up to a width of `2 ^ 32`, neither the product nor the sum leaves a word. -/
theorem toNat_word (hwidth : b.width ≤ Nat.pow 2 32) (hv : v.index < b.width)
    (hw : w.index < b.width) : (b.word v w).toNat = b.code v w := by
  have hbound : b.code v w < UInt64.size := by
    calc b.code v w = v.index * b.width + w.index := code_eq b v w
      _ < b.width * b.width := code_lt_mul hv hw
      _ ≤ Nat.pow 2 32 * Nat.pow 2 32 := Nat.mul_le_mul hwidth hwidth
      _ = UInt64.size := by decide +kernel
  -- words are numbers modulo their size, and so is their arithmetic
  have hexact : b.word v w = UInt64.ofNat (b.code v w) := by
    rw [word, code, UInt64.ofNat_add, UInt64.ofNat_mul]
  rw [hexact, UInt64.toNat_ofNat_of_lt' hbound]

/-- The two orders of a pair have different places. -/
theorem code_swap_ne (hv : v.index < b.width) (hw : w.index < b.width) (hne : v ≠ w) :
    b.code w v ≠ b.code v w := by
  intro heq
  exact hne ((code_eq_iff hv hw).mp heq).2

theorem decode_code (hw : w.index < b.width) : b.decode (b.code v w) = (v, w) := by
  have hwidth : max b.width 1 = b.width := by omega
  rw [decode, hwidth, code_eq, div_of_code hw, mod_of_code hw]

/-- A table stores a relation between the variables below its width: its numbers are those of the
pairs, in both orders. -/
structure Represents (b : Bitmap) (r : Relation) : Prop where
  isOver : r.IsOver (Relation.below b.width)
  mem_iff : ∀ c, c ∈ b.codes ↔ ∃ v w, r.contains v w = true ∧ c = b.code v w

theorem represents_empty (n : Nat) : (empty n).Represents Relation.empty where
  isOver := Relation.isOver_empty
  mem_iff c := by
    simp [empty]

/-! ### Insertion and removal -/

theorem mem_insert (hne : v ≠ w) {c : Nat} :
    c ∈ (b.insert v w).1.codes ↔ c = b.code v w ∨ c = b.code w v ∨ c ∈ b.codes := by
  rw [insert, if_neg hne]
  simp only [Std.TreeSet.mem_insert, Nat.compare_eq_eq]
  rw [eq_comm, @eq_comm _ (b.code w v)]

theorem mem_erase {c : Nat} :
    c ∈ (b.erase v w).1.codes ↔ c ≠ b.code v w ∧ c ≠ b.code w v ∧ c ∈ b.codes := by
  simp only [erase, Std.TreeSet.mem_erase, Nat.compare_eq_eq, ne_eq]
  rw [@eq_comm _ c, @eq_comm _ c]

@[simp] theorem width_insert : (b.insert v w).1.width = b.width := by
  unfold insert
  split <;> rfl

@[simp] theorem width_erase : (b.erase v w).1.width = b.width := rfl

namespace Represents

variable (h : b.Represents r)
include h

theorem lt_width (hvw : r.contains v w = true) : v.index < b.width ∧ w.index < b.width :=
  ⟨Relation.isMarked_below.mp (h.isOver.of_contains hvw).2.1,
    Relation.isMarked_below.mp (h.isOver.of_contains hvw).2.2⟩

/-- One order of a pair is enough to look it up. -/
theorem code_mem_iff (hw : w.index < b.width) : b.code v w ∈ b.codes ↔ r.contains v w = true := by
  rw [h.mem_iff]
  constructor
  · rintro ⟨x, y, hxy, hcode⟩
    obtain ⟨rfl, rfl⟩ := (code_eq_iff hw (h.lt_width hxy).2).mp hcode
    exact hxy
  · intro hvw
    exact ⟨v, w, hvw, rfl⟩

theorem contains_eq (hw : w.index < b.width) : b.contains v w = r.contains v w := by
  rw [Bool.eq_iff_iff, contains, Std.TreeSet.contains_iff_mem]
  exact h.code_mem_iff hw

/-- **Insertion** keeps both orders together. -/
theorem insert (hv : v.index < b.width) (hw : w.index < b.width) :
    (b.insert v w).1.Represents (r.insert v w).1 := by
  by_cases hne : v = w
  · -- nothing is inserted on either side
    rw [Bitmap.insert, Relation.insert, if_pos hne, if_pos (by simp [hne])]
    exact h
  refine ⟨?_, fun c => ?_⟩
  · rw [width_insert]
    exact h.isOver.insert (Relation.isMarked_below.mpr hv) (Relation.isMarked_below.mpr hw)
  rw [mem_insert hne, h.mem_iff]
  simp only [Relation.contains_insert, Relation.pair_eq_iff, code, width_insert]
  constructor
  · rintro (rfl | rfl | ⟨x, y, hxy, rfl⟩)
    · exact ⟨v, w, Or.inr ⟨hne, Or.inl ⟨rfl, rfl⟩⟩, rfl⟩
    · exact ⟨w, v, Or.inr ⟨hne, Or.inr ⟨rfl, rfl⟩⟩, rfl⟩
    · exact ⟨x, y, Or.inl hxy, rfl⟩
  · rintro ⟨x, y, hxy | ⟨-, ⟨rfl, rfl⟩ | ⟨rfl, rfl⟩⟩, rfl⟩
    · exact Or.inr (Or.inr ⟨x, y, hxy, rfl⟩)
    · exact Or.inl rfl
    · exact Or.inr (Or.inl rfl)

/-- **Removal** takes away both orders. -/
theorem erase (hv : v.index < b.width) (hw : w.index < b.width) :
    (b.erase v w).1.Represents (r.erase v w).1 := by
  refine ⟨h.isOver.erase v w, fun c => ?_⟩
  rw [mem_erase, h.mem_iff]
  simp only [Relation.contains_erase, ne_eq, Relation.pair_eq_iff]
  constructor
  · rintro ⟨hvw, hwv, x, y, hxy, rfl⟩
    refine ⟨x, y, ⟨hxy, ?_⟩, rfl⟩
    rintro (⟨rfl, rfl⟩ | ⟨rfl, rfl⟩)
    · exact hvw rfl
    · exact hwv rfl
  · rintro ⟨x, y, ⟨hxy, hother⟩, rfl⟩
    refine ⟨fun heq => hother (Or.inl ?_), fun heq => hother (Or.inr ?_), x, y, hxy, rfl⟩
    · exact (code_eq_iff (h.lt_width hxy).2 hw).mp heq
    · exact (code_eq_iff (h.lt_width hxy).2 hv).mp heq

/-! ### Answers -/

theorem insert_reports (hv : v.index < b.width) (hw : w.index < b.width) :
    (b.insert v w).2 = true ↔ v ≠ w ∧ ¬r.contains v w = true := by
  by_cases hne : v = w
  · simp [Bitmap.insert, hne]
  · -- the swapped pair is inserted first, and it does not count as the pair itself
    have hplace := code_swap_ne hv hw hne
    rw [Bitmap.insert, if_neg hne]
    simp [Std.TreeSet.contains_insert, hplace, hne, ← h.code_mem_iff hw, ← Bool.not_eq_true]

theorem erase_reports (hv : v.index < b.width) (hw : w.index < b.width) :
    (b.erase v w).2 = true ↔ r.contains v w = true := by
  rw [← h.contains_eq hw, contains, Bitmap.erase]
  by_cases hne : v = w
  · -- a variable is not paired with itself, so its number is not there in the first place
    subst hne
    have habsent : ¬b.codes.contains (b.code v v) = true := by
      intro hvv
      rw [Std.TreeSet.contains_iff_mem, h.code_mem_iff hw] at hvv
      exact (h.isOver.of_contains hvv).1 rfl
    simp [Std.TreeSet.contains_erase, habsent]
  · have hplace := code_swap_ne hv hw hne
    simp [Std.TreeSet.contains_erase, hplace]

theorem mem_toList_iff :
    (v, w) ∈ b.toList ↔ v.index < w.index ∧ r.contains v w = true := by
  simp only [toList, List.mem_filter, List.mem_map, Std.TreeSet.mem_toList, decide_eq_true_eq]
  constructor
  · rintro ⟨⟨c, hc, hdecode⟩, hlt⟩
    obtain ⟨x, y, hxy, rfl⟩ := (h.mem_iff c).mp hc
    rw [decode_code (h.lt_width hxy).2] at hdecode
    cases hdecode
    exact ⟨hlt, hxy⟩
  · rintro ⟨hlt, hvw⟩
    exact ⟨⟨b.code v w, (h.mem_iff _).mpr ⟨v, w, hvw, rfl⟩, decode_code (h.lt_width hvw).2⟩, hlt⟩

/-- Ascending numbers stand for ascending pairs. -/
theorem toList_ascending : b.toList.Pairwise Precedes := by
  have hordered : b.codes.toList.Pairwise fun c d => compare c d = .lt :=
    Std.TreeSet.ordered_toList
  refine List.Pairwise.filter _ (List.pairwise_map.mpr (hordered.imp_of_mem ?_))
  intro c d hc hd hlt
  obtain ⟨v, w, hvw, rfl⟩ := (h.mem_iff c).mp (Std.TreeSet.mem_toList.mp hc)
  obtain ⟨x, y, hxy, rfl⟩ := (h.mem_iff d).mp (Std.TreeSet.mem_toList.mp hd)
  have hw := (h.lt_width hvw).2
  have hy := (h.lt_width hxy).2
  rw [code_eq, code_eq, compare_code hw hy] at hlt
  rw [decode_code hw, decode_code hy]
  exact hlt

/-- The numbers are those of the listed pairs, once in each order. -/
theorem codes_perm : b.codes.toList.Perm
    (b.toList.map (fun p => b.code p.1 p.2) ++ b.toList.map fun p => b.code p.2 p.1) := by
  have hlisted : ∀ p ∈ b.toList,
      p.1.index < p.2.index ∧ p.1.index < b.width ∧ p.2.index < b.width := by
    intro p hp
    obtain ⟨hlt, hvw⟩ := h.mem_toList_iff.mp hp
    exact ⟨hlt, h.lt_width hvw⟩
  have hcodes : b.codes.toList.Nodup := by
    have hdistinct : b.codes.toList.Pairwise fun c d => ¬compare c d = .eq :=
      Std.TreeSet.distinct_toList
    exact hdistinct.imp fun hne heq => hne (Nat.compare_eq_eq.mpr heq)
  refine (List.perm_ext_iff_of_nodup hcodes (List.nodup_append.mpr ⟨?_, ?_, ?_⟩)).mpr fun c => ?_
  · refine List.Nodup.map_on (fun p hp q hq heq => ?_) (nodup_of_ascending h.toList_ascending)
    obtain ⟨hfirst, hsecond⟩ := (code_eq_iff (hlisted p hp).2.2 (hlisted q hq).2.2).mp heq
    exact Prod.ext hfirst hsecond
  · refine List.Nodup.map_on (fun p hp q hq heq => ?_) (nodup_of_ascending h.toList_ascending)
    obtain ⟨hsecond, hfirst⟩ := (code_eq_iff (hlisted p hp).2.1 (hlisted q hq).2.1).mp heq
    exact Prod.ext hfirst hsecond
  · -- a number has the smaller variable either first or second
    intro c hc d hd heq
    obtain ⟨p, hp, rfl⟩ := List.mem_map.mp hc
    obtain ⟨q, hq, rfl⟩ := List.mem_map.mp hd
    obtain ⟨hpq, hqp⟩ := (code_eq_iff (hlisted p hp).2.2 (hlisted q hq).2.1).mp heq
    have hlt := (hlisted p hp).1
    rw [hpq, hqp] at hlt
    exact Nat.lt_asymm hlt (hlisted q hq).1
  · rw [Std.TreeSet.mem_toList, h.mem_iff, List.mem_append, List.mem_map, List.mem_map]
    constructor
    · rintro ⟨v, w, hvw, rfl⟩
      have hindices : v.index ≠ w.index := fun heq =>
        (h.isOver.of_contains hvw).1 (congrArg VarId.mk heq)
      rcases Nat.lt_or_gt_of_ne hindices with hlt | hgt
      · exact Or.inl ⟨(v, w), h.mem_toList_iff.mpr ⟨hlt, hvw⟩, rfl⟩
      · rw [Relation.contains_comm] at hvw
        exact Or.inr ⟨(w, v), h.mem_toList_iff.mpr ⟨hgt, hvw⟩, rfl⟩
    · rintro (⟨⟨v, w⟩, hp, rfl⟩ | ⟨⟨v, w⟩, hp, rfl⟩)
      · exact ⟨v, w, (h.mem_toList_iff.mp hp).2, rfl⟩
      · refine ⟨w, v, ?_, rfl⟩
        rw [Relation.contains_comm]
        exact (h.mem_toList_iff.mp hp).2

theorem size_eq : b.size = b.toList.length := by
  have hlength := h.codes_perm.length_eq
  rw [Std.TreeSet.length_toList, List.length_append, List.length_map, List.length_map] at hlength
  rw [size]
  omega

/-- A table tells what the relation tells that it stores. -/
theorem answers_describe {mutex : VarId → VarId → Prop}
    (hmutex : ∀ v w, r.contains v w = true ↔ mutex v w) : b.answers.Describe b.width mutex where
  contains_iff v w _ hw := by
    rw [← hmutex, ← h.contains_eq hw]
    rfl
  insert_iff v w hv hw := by
    rw [← hmutex]
    exact h.insert_reports hv hw
  erase_iff v w hv hw := by
    rw [← hmutex]
    exact h.erase_reports hv hw
  mem_listed_iff v w := by
    rw [← hmutex]
    constructor
    · intro hmem
      obtain ⟨hlt, hvw⟩ := h.mem_toList_iff.mp hmem
      exact ⟨hlt, (h.lt_width hvw).2, hvw⟩
    · rintro ⟨hlt, -, hvw⟩
      exact h.mem_toList_iff.mpr ⟨hlt, hvw⟩
  ascending := h.toList_ascending
  count_eq := h.size_eq

end Represents

/-! ### Histories -/

/-- The table after one change. -/
def apply (b : Bitmap) (c : Change) : Bitmap :=
  if c.inserts then (b.insert c.first c.second).1 else (b.erase c.first c.second).1

/-- The table for `n` variables that a history leaves. -/
def after (n : Nat) (changes : List Change) : Bitmap := changes.foldl apply (empty n)

theorem Represents.apply (h : b.Represents r) {c : Change} (hc : c.IsBelow b.width) :
    (b.apply c).Represents (r.apply c) := by
  unfold Bitmap.apply Relation.apply
  split
  · exact h.insert hc.1 hc.2
  · exact h.erase hc.1 hc.2

@[simp] theorem width_apply (b : Bitmap) (c : Change) : (b.apply c).width = b.width := by
  unfold apply
  split <;> simp

theorem width_after (n : Nat) (changes : List Change) : (after n changes).width = n :=
  List.foldlRecOn changes _ (motive := fun b : Bitmap => b.width = n) rfl fun b hb c _ => by
    rw [width_apply, hb]

/-- **Flat tables store relations**, through all changes of variables below their widths. -/
theorem represents_after {n : Nat} {changes : List Change} (hbelow : ∀ c ∈ changes, c.IsBelow n) :
    (after n changes).Represents (Relation.after changes) := by
  induction changes using List.reverseRecOn with
  | nil => exact represents_empty n
  | append_singleton changes c ih =>
    have hbefore := ih fun d hd => hbelow d (List.mem_append_left _ hd)
    have hc : c.IsBelow (after n changes).width := by
      rw [width_after]
      exact hbelow c (by simp)
    have hleft : after n (changes ++ [c]) = (after n changes).apply c := List.foldl_append
    have hright : Relation.after (changes ++ [c]) = (Relation.after changes).apply c :=
      List.foldl_append
    rw [hleft, hright]
    exact hbefore.apply hc

end Bitmap

/-- **Tables of mutex pairs tell the history of their changes.** After any insertions and removals
of variables below `n`, the flat table and the set of unordered pairs both describe the relation in
which two different variables are if the last change of their pair was an insertion. The numbers of
the flat table are below `n * n`, so 64 bits are enough for a table of up to `2 ^ 32` variables. -/
theorem tables_describe_history (n : Nat) (changes : List Change)
    (hbelow : ∀ c ∈ changes, c.IsBelow n) :
    (Bitmap.after n changes).answers.Describe n (Present changes) ∧
      (Relation.after changes).answers.Describe n (Present changes) ∧
      (Bitmap.after n changes).toList = (Relation.after changes).toList ∧
      ∀ v w : VarId, v.index < n → w.index < n → (Bitmap.after n changes).code v w < n * n ∧
        (n ≤ Nat.pow 2 32 →
          ((Bitmap.after n changes).word v w).toNat = (Bitmap.after n changes).code v w) := by
  have hmutex := Relation.contains_after changes hbelow
  have hflat := (Bitmap.represents_after hbelow).answers_describe hmutex
  rw [Bitmap.width_after] at hflat
  have hpairs := (Relation.isOver_after hbelow).answers_describe hmutex
  have hwidth := Bitmap.width_after n changes
  refine ⟨hflat, hpairs, hflat.listed_eq hpairs, fun v w hv hw => ⟨?_, fun hn => ?_⟩⟩
  · rw [Bitmap.code_eq, hwidth]
    exact code_lt_mul hv hw
  · rw [← hwidth] at hn hv hw
    exact Bitmap.toNat_word hn hv hw

/-- Among four variables, two pairs are inserted, one of them twice and in both orders, and the
other is removed the other way round. -/
def crossedChanges : List Change :=
  [⟨true, ⟨3⟩, ⟨1⟩⟩, ⟨true, ⟨1⟩, ⟨3⟩⟩, ⟨true, ⟨2⟩, ⟨2⟩⟩, ⟨true, ⟨0⟩, ⟨2⟩⟩, ⟨false, ⟨2⟩, ⟨0⟩⟩]

/-- One pair is left, stored in both orders. -/
theorem crossedChanges_leave_one_pair :
    (∀ c ∈ crossedChanges, c.IsBelow 4) ∧
      (Bitmap.after 4 crossedChanges).answers.Describe 4 (Present crossedChanges) ∧
      (Bitmap.after 4 crossedChanges).toList = [(⟨1⟩, ⟨3⟩)] ∧
      (Bitmap.after 4 crossedChanges).codes.toList = [7, 13] ∧
      Present crossedChanges ⟨1⟩ ⟨3⟩ ∧ ¬Present crossedChanges ⟨0⟩ ⟨2⟩ := by
  have hbelow : ∀ c ∈ crossedChanges, c.IsBelow 4 := by decide
  have hdescribe := (tables_describe_history 4 crossedChanges hbelow).1
  refine ⟨hbelow, hdescribe, by decide +kernel, by decide +kernel, ?_, ?_⟩
  · rw [← hdescribe.contains_iff ⟨1⟩ ⟨3⟩ (by decide) (by decide)]
    decide +kernel
  · rw [← hdescribe.contains_iff ⟨0⟩ ⟨2⟩ (by decide) (by decide)]
    decide +kernel

end TemporalPlanning.Mutex
