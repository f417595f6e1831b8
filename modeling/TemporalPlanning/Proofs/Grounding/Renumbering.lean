import TemporalPlanning.Proofs.Grounding.Substitution
import TemporalPlanning.Proofs.Mutex.Marks
/-!
Which variables remain.

What is known about a variable depends on its facts and on whether an action writes it. The
variables that change are numbered anew and keep everything else; a variable that is known stands
for its value, and one without a value for nothing.

A situation of the variables that remain is a situation of all variables: those that are known have
their value in it, and those without a value have none.
-/
set_option autoImplicit false

namespace TemporalPlanning.Grounding

open Grounded

/-! ## What is known about a variable -/

/-- What is known about the value of a variable, if there is such a variable. -/
def constancy? (t : Task) (v : VarId) : Option Constancy :=
  t.vars[v.index]?.map (constancyOf t.task (t.actions.any (·.writes v)))

theorem isMarked_foldl_mark {vs : List VarId} {marks : Array Bool} {w : VarId}
    (hw : w.index < marks.size) :
    Mutex.isMarked (vs.foldl mark marks) w = true ↔ Mutex.isMarked marks w = true ∨ w ∈ vs := by
  induction vs generalizing marks with
  | nil => simp
  | cons v vs ih =>
    rw [List.foldl_cons, ih (by rwa [mark, Array.size_setIfInBounds]), mark, Mutex.isMarked_set,
      List.mem_cons, or_assoc]
    refine or_congr_right (or_congr_left ⟨fun h => h.1.symm, ?_⟩)
    rintro rfl
    exact ⟨rfl, hw⟩

theorem writes_iff (a : Action) (v : VarId) :
    a.writes v = true ↔ v ∈ a.effects.map (·.var) ++ a.numericEffects.map (·.var) := by
  simp [Action.writes]

/-- The variables that are marked as written are those that an action writes. -/
theorem getD_writtenVariables {t : Task} {v : VarId} (hv : v.index < t.vars.size) :
    (writtenVariables t).getD v.index false = t.actions.any (·.writes v) := by
  rw [Bool.eq_iff_iff, writtenVariables, ← List.foldl_flatMap]
  refine (isMarked_foldl_mark (by rwa [Array.size_replicate])).trans ?_
  rw [Mutex.isMarked, getD_replicate, List.any_eq_true, List.mem_flatMap]
  simp only [Bool.false_eq_true, false_or, writes_iff]

theorem getElem?_constancies (t : Task) (v : VarId) :
    (constancies t)[v.index]? = constancy? t v := by
  rw [constancies, Array.getElem?_mapIdx, constancy?]
  cases h : t.vars[v.index]? with
  | none => rfl
  | some entry =>
    rw [Option.map_some, Option.map_some,
      getD_writtenVariables (Array.getElem?_eq_some_iff.mp h).1]

section Remaining

variable {vars : Array Variable} {cs : Array Constancy}

theorem lt_size_of_mem_remaining {i : Nat} (hi : i ∈ remaining vars cs) : i < vars.size := by
  obtain ⟨entry, hentry, rfl⟩ := List.mem_map.mp hi
  -- numeric variables come first, but both lists are taken from the table
  have hmem : entry ∈ (vars.toList.zip cs.toList).zipIdx := by
    rcases List.mem_append.mp hentry with h | h
    · exact (List.mem_filter.mp (List.mem_filter.mp h).1).1
    · exact (List.mem_filter.mp (List.mem_filter.mp h).1).1
  have hlt := List.snd_lt_of_mem_zipIdx hmem
  rw [List.length_zip, Array.length_toList] at hlt
  omega

/-- The positions that remain are those of the changing variables, in another order. -/
theorem remaining_perm : (remaining vars cs).Perm
    (((vars.toList.zip cs.toList).zipIdx.filter fun entry => entry.1.2 = .changing).map
      Prod.snd) := by
  refine List.Perm.map _ (List.perm_append_comm.trans ?_)
  exact List.filter_append_perm _ _

theorem nodup_remaining : (remaining vars cs).Nodup := by
  refine remaining_perm.nodup_iff.mpr ?_
  refine (List.Sublist.map Prod.snd List.filter_sublist).nodup ?_
  rw [List.zipIdx_map_snd]
  exact List.nodup_range'

theorem mem_remaining {i : Nat} : i ∈ remaining vars cs ↔
    (∃ v, vars[i]? = some v) ∧ cs[i]? = some .changing := by
  rw [remaining_perm.mem_iff, List.mem_map]
  constructor
  · rintro ⟨⟨⟨v, c⟩, j⟩, hmem, rfl⟩
    obtain ⟨hmem, hc⟩ := List.mem_filter.mp hmem
    obtain ⟨hv, hj⟩ := List.getElem?_zip_eq_some.mp (List.mem_zipIdx_iff_getElem?.mp hmem)
    rw [of_decide_eq_true hc] at hj
    exact ⟨⟨v, by simpa using hv⟩, by simpa using hj⟩
  · rintro ⟨⟨v, hv⟩, hc⟩
    refine ⟨((v, .changing), i), List.mem_filter.mpr ⟨?_, decide_eq_true rfl⟩, rfl⟩
    refine List.mem_zipIdx_iff_getElem?.mpr (List.getElem?_zip_eq_some.mpr ⟨?_, ?_⟩)
    · simpa using hv
    · simpa using hc

/-- A variable that remains keeps everything but its position. -/
theorem getElem?_remainingVariables {l : List Nat} (hl : ∀ i ∈ l, i < vars.size) (j : Nat) :
    (remainingVariables vars l)[j]? =
      l[j]?.bind fun i => vars[i]?.map fun v => { v with index := ⟨j⟩ } := by
  have hlist : ∀ (l : List Nat) (n : Nat), (∀ i ∈ l, i < vars.size) → ∀ j : Nat,
      ((l.zipIdx n).filterMap fun entry =>
        vars[entry.1]?.map fun v => { v with index := (⟨entry.2⟩ : VarId) })[j]? =
        l[j]?.bind fun i => vars[i]?.map fun v => { v with index := ⟨n + j⟩ } := by
    intro l
    induction l with
    | nil => exact fun _ _ _ => rfl
    | cons i l ih =>
      intro n hl j
      obtain ⟨hi, hl⟩ := List.forall_mem_cons.mp hl
      rw [List.zipIdx_cons, List.filterMap_cons]
      dsimp only
      rw [Array.getElem?_eq_getElem hi]
      cases j with
      | zero =>
        show some _ = Option.map _ vars[i]?
        rw [Array.getElem?_eq_getElem hi]
        rfl
      | succ j =>
        show (List.filterMap _ _)[j]? = _
        rw [ih (n + 1) hl j, List.getElem?_cons_succ, Nat.add_right_comm, Nat.add_assoc]
  rw [remainingVariables, List.getElem?_toArray]
  refine (hlist l 0 hl j).trans ?_
  rw [Nat.zero_add]

end Remaining

/-! ## What stands for a variable -/

section Replacements

theorem getElem?_foldl_renumbered_of_notMem {l : List Nat} {i : Nat} (hi : i ∉ l) (n : Nat)
    (replaced : Array Replacement) :
    ((l.zipIdx n).foldl (fun replaced (old, new) =>
      replaced.setIfInBounds old (.renumbered ⟨new⟩)) replaced)[i]? = replaced[i]? := by
  induction l generalizing n replaced with
  | nil => rfl
  | cons k l ih =>
    rw [List.mem_cons, not_or] at hi
    rw [List.zipIdx_cons, List.foldl_cons, ih hi.2, Array.getElem?_setIfInBounds_ne (Ne.symm hi.1)]

theorem getElem?_foldl_renumbered {l : List Nat} (hl : l.Nodup) {i j : Nat} (hj : l[j]? = some i)
    (n : Nat) {replaced : Array Replacement} (hi : i < replaced.size) :
    ((l.zipIdx n).foldl (fun replaced (old, new) =>
      replaced.setIfInBounds old (.renumbered ⟨new⟩)) replaced)[i]? =
        some (.renumbered ⟨n + j⟩) := by
  induction l generalizing n replaced j with
  | nil => cases hj
  | cons k l ih =>
    obtain ⟨hk, hl⟩ := List.nodup_cons.mp hl
    rw [List.zipIdx_cons, List.foldl_cons]
    cases j with
    | zero =>
      -- positions are distinct, so those that follow leave this one alone
      cases hj
      rw [getElem?_foldl_renumbered_of_notMem hk, Array.getElem?_setIfInBounds_self_of_lt hi]
      rfl
    | succ j =>
      rw [ih hl hj (n + 1) (by rwa [Array.size_setIfInBounds]), Nat.add_assoc, Nat.add_comm 1 j]

/-- What stands for a variable that does not change. -/
def Constancy.replacement : Constancy → Replacement
  | .fixed value => .fixed value
  | .changing | .undefined => .missing

theorem replacements_eq (cs : Array Constancy) (l : List Nat) :
    replacements cs l = l.zipIdx.foldl (fun replaced (old, new) =>
      replaced.setIfInBounds old (.renumbered ⟨new⟩)) (cs.map Constancy.replacement) := rfl

variable (t : Task)

/-- What stands for every variable of a task. -/
abbrev substitution : Array Replacement :=
  replacements (constancies t) (remaining t.vars (constancies t))

variable {t} {v v' : VarId}

theorem mem_remaining_iff :
    v.index ∈ remaining t.vars (constancies t) ↔ constancy? t v = some .changing := by
  rw [mem_remaining, getElem?_constancies]
  refine and_iff_right_of_imp fun h => ?_
  obtain ⟨entry, hentry, -⟩ := Option.map_eq_some_iff.mp h
  exact ⟨entry, hentry⟩

/-- What stands for a variable that changes is its new position. -/
theorem lookup_of_remaining (h : (remaining t.vars (constancies t))[v'.index]? = some v.index) :
    lookup (substitution t) v = .renumbered v' := by
  have hsize : v.index < (constancies t).size := by
    rw [constancies, Array.size_mapIdx]
    exact lt_size_of_mem_remaining (List.mem_of_getElem? h)
  rw [lookup, Array.getD_eq_getD_getElem?, substitution, replacements_eq,
    getElem?_foldl_renumbered nodup_remaining h 0 (by rwa [Array.size_map]), Nat.zero_add]
  rfl

/-- What stands for a variable that does not change is what is known about it. -/
theorem lookup_of_ne_changing (h : constancy? t v ≠ some .changing) :
    lookup (substitution t) v = ((constancy? t v).map Constancy.replacement).getD .missing := by
  rw [lookup, Array.getD_eq_getD_getElem?, substitution, replacements_eq,
    getElem?_foldl_renumbered_of_notMem (mt mem_remaining_iff.mp h), Array.getElem?_map,
    getElem?_constancies]

/-- A variable that changes has a new position. -/
theorem exists_lookup_eq_renumbered (h : constancy? t v = some .changing) :
    ∃ v', (remaining t.vars (constancies t))[v'.index]? = some v.index ∧
      lookup (substitution t) v = .renumbered v' := by
  obtain ⟨j, hj⟩ := List.mem_iff_getElem?.mp (mem_remaining_iff.mpr h)
  exact ⟨⟨j⟩, hj, lookup_of_remaining hj⟩

theorem lookup_eq_renumbered_iff : lookup (substitution t) v = .renumbered v' ↔
    (remaining t.vars (constancies t))[v'.index]? = some v.index := by
  refine ⟨fun h => ?_, lookup_of_remaining⟩
  by_cases hc : constancy? t v = some .changing
  · obtain ⟨w, hw, hlookup⟩ := exists_lookup_eq_renumbered hc
    rw [hlookup] at h
    cases h
    exact hw
  · -- nothing else has a new position
    rw [lookup_of_ne_changing hc] at h
    rcases hv : constancy? t v with _ | _ | _ | value <;> rw [hv] at h <;> cases h

end Replacements

/-! ## Renumbering -/

/-- Variables that change are numbered anew, and nothing else about them is different. -/
structure IsRenumbering (t t' : Task) (rename : VarId → Option VarId) : Prop where
  /-- The variables that change, and no others, have a new position. -/
  isSome : ∀ v, (rename v).isSome = true ↔ constancy? t v = some .changing
  entry : ∀ v v', rename v = some v' → ∃ entry, t.vars[v.index]? = some entry ∧
    t'.vars[v'.index]? = some { entry with index := v' }
  injective : ∀ v w v', rename v = some v' → rename w = some v' → v = w
  surjective : ∀ v', v'.index < t'.vars.size → ∃ v, rename v = some v'

theorem isRenumbering_newPosition {t t' : Task}
    (hvars : t'.vars = remainingVariables t.vars (remaining t.vars (constancies t))) :
    IsRenumbering t t' (newPosition (substitution t)) := by
  have hentries := getElem?_remainingVariables
    (fun i hi => lt_size_of_mem_remaining hi : ∀ i ∈ remaining t.vars (constancies t), _)
  refine ⟨fun v => ?_, fun v v' hv => ?_, fun v w v' hv hw => ?_, fun v' hv' => ?_⟩
  · rw [Option.isSome_iff_exists]
    constructor
    · rintro ⟨v', hv'⟩
      rw [newPosition_eq_some_iff, lookup_eq_renumbered_iff] at hv'
      exact mem_remaining_iff.mp (List.mem_of_getElem? hv')
    · intro h
      obtain ⟨v', -, hv'⟩ := exists_lookup_eq_renumbered h
      exact ⟨v', newPosition_eq_some_iff.mpr hv'⟩
  · rw [newPosition_eq_some_iff, lookup_eq_renumbered_iff] at hv
    have hsize := lt_size_of_mem_remaining (List.mem_of_getElem? hv)
    refine ⟨_, Array.getElem?_eq_getElem hsize, ?_⟩
    rw [hvars, hentries, hv, Option.bind_some, Array.getElem?_eq_getElem hsize]
    rfl
  · rw [newPosition_eq_some_iff, lookup_eq_renumbered_iff] at hv hw
    rw [hv] at hw
    exact congrArg VarId.mk (Option.some.inj hw)
  · have hentry := Array.getElem?_eq_getElem hv'
    simp only [hvars] at hentry
    rw [hentries] at hentry
    obtain ⟨i, hi, -⟩ := Option.bind_eq_some_iff.mp hentry
    exact ⟨⟨i⟩, newPosition_eq_some_iff.mpr (lookup_of_remaining hi)⟩

/-! ## Situations -/

/-- A situation of the variables that remain, extended by what is known about the others. -/
def extend (t : Task) (rename : VarId → Option VarId) (y : Situation Float) : Situation Float where
  objects v := match constancy? t v with
    | some (.fixed value) => value.object?
    | _ => (rename v).bind y.objects
  numbers v := match constancy? t v with
    | some (.fixed value) => value.number?
    | _ => (rename v).bind y.numbers

/-- The situation in which no variable has a value. -/
def emptySituation : Situation Float := ⟨fun _ => none, fun _ => none⟩

/-- What is known about the variables of a task throughout every plan. -/
def known (t : Task) : Situation Float := extend t (fun _ => none) emptySituation

end TemporalPlanning.Grounding
