import TemporalPlanning.Grounded.Basic
/-!
Reachable propositions and mutex pairs of a grounded task.

Two different propositions are mutex if they never hold at the same time. The relation is
symmetric and irreflexive, so it is kept as a set of unordered pairs, each with the smaller
variable first.

Starting from the propositions of the initial state, the set of reachable propositions and the
mutex relation are refined in passes over the actions. An action whose positive conditions are
reachable and not mutex is applied: propositions it adds become reachable, and pairs become or
cease to be mutex as its conditions and effects show. A pass that reaches nothing new and changes
no pair is the last one. Reachability of conditions is judged by the state before the pass.
-/
set_option autoImplicit false

namespace TemporalPlanning.Mutex

open Grounded

/-! ## Mutex relations -/

/-- A symmetric, irreflexive relation between variables. -/
structure Relation where
  pairs : PairSet

namespace Relation

/-- The relation in which nothing is mutex. -/
def empty : Relation := ⟨∅⟩

/-- An unordered pair. -/
def pair (v w : VarId) : Nat × Nat := (min v.index w.index, max v.index w.index)

variable (r : Relation)

/-- Whether two variables are mutex. -/
def contains (v w : VarId) : Bool := r.pairs.contains (pair v w)

/-- Makes two different variables mutex, and tells whether they were not before. -/
def insert (v w : VarId) : Relation × Bool :=
  if v = w || r.contains v w then (r, false) else (⟨r.pairs.insert (pair v w)⟩, true)

/-- Makes two variables not mutex, and tells whether they were before. -/
def erase (v w : VarId) : Relation × Bool :=
  if r.contains v w then (⟨r.pairs.erase (pair v w)⟩, true) else (r, false)

/-- Every mutex pair once, the smaller variable first, in ascending order. -/
def toList : List (VarId × VarId) := r.pairs.toList.map fun p => (⟨p.1⟩, ⟨p.2⟩)

/-- The number of mutex pairs. -/
def size : Nat := r.pairs.size

end Relation

/-! ## Passes -/

/-- For every variable, whether it is a proposition. Only propositions take part in mutexes. -/
def propositions (t : Task) : Array Bool :=
  t.vars.foldl
    (fun marks v => if t.task.isPredicate v.function then marks.setIfInBounds v.index.index true
      else marks)
    (Array.replicate t.vars.size false)

/-- The variables that are marked. -/
def marked (marks : Array Bool) : List VarId :=
  ((List.range marks.size).filter fun i => marks.getD i false).map VarId.mk

/-- Whether a variable is marked. -/
def isMarked (marks : Array Bool) (v : VarId) : Bool := marks.getD v.index false

/-- The state of the computation. -/
structure State where
  reached : Array Bool
  /-- Reachable propositions at the end of the previous pass. -/
  reachedBefore : Array Bool
  /-- Actions that have been applied. -/
  fired : Array Bool
  mutex : Relation
  /-- Propositions that have become reachable in the current pass. -/
  newPropositions : Nat
  /-- Changes to the relation in the current pass. -/
  changes : Nat

namespace State

/-- Makes two propositions mutex. -/
def addMutex (s : State) (v w : VarId) : State :=
  let (mutex, changed) := s.mutex.insert v w
  { s with mutex, changes := s.changes + changed.toNat }

/-- Makes two propositions not mutex. -/
def deleteMutex (s : State) (v w : VarId) : State :=
  let (mutex, changed) := s.mutex.erase v w
  { s with mutex, changes := s.changes + changed.toNat }

/-- Makes a proposition reachable. -/
def reach (s : State) (v : VarId) : State :=
  if isMarked s.reached v then s
  else
    { s with
      reached := s.reached.setIfInBounds v.index true
      newPropositions := s.newPropositions + 1 }

/-- Whether the current pass has changed nothing. -/
def isQuiet (s : State) : Bool := s.newPropositions == 0 && s.changes == 0

end State

/-! ## Conditions and effects -/

/-- Whether some element of a list is related to a later one. -/
def anyPair {α : Type} (related : α → α → Bool) : List α → Bool
  | [] => false
  | a :: rest => rest.any (related a) || anyPair related rest

/-- The propositions that conditions require to be true. -/
def required (isProposition : Array Bool) (conditions : List Condition) : List VarId :=
  (conditions.filter fun c => isMarked isProposition c.var && c.value != .falsity).map (·.var)

/-- The propositions that effects make true. -/
def added (isProposition : Array Bool) (effects : List Condition) : List VarId :=
  (effects.filter fun e => isMarked isProposition e.var && e.value == .truth).map (·.var)

/-- The propositions that effects make false. -/
def deleted (isProposition : Array Bool) (effects : List Condition) : List VarId :=
  (effects.filter fun e => isMarked isProposition e.var && e.value != .truth).map (·.var)

/-- The propositions of an action. -/
structure Profile where
  /-- Required at start or over all. -/
  before : List VarId
  /-- Required at end. -/
  atEnd : List VarId
  startAdds : List VarId
  endAdds : List VarId
  startDeletes : List VarId
  endDeletes : List VarId

namespace Profile

/-- The propositions of an action. -/
def ofAction (isProposition : Array Bool) (a : Action) : Profile where
  before := required isProposition (a.startConditions ++ a.invariants)
  atEnd := required isProposition a.endConditions
  startAdds := added isProposition a.startEffects
  endAdds := added isProposition a.endEffects
  startDeletes := deleted isProposition a.startEffects
  endDeletes := deleted isProposition a.endEffects

variable (p : Profile)

/-- All required propositions. -/
def conditions : List VarId := p.before ++ p.atEnd

/-- All added propositions. -/
def adds : List VarId := p.startAdds ++ p.endAdds

/-- All deleted propositions. -/
def deletes : List VarId := p.startDeletes ++ p.endDeletes

end Profile

/-! ## Applying an action -/

/-- A proposition that is reached for the first time is mutex with the propositions that are
deleted although they were required or added at start, and with everything a condition is mutex
with, unless the action deletes that. -/
def excludeNew (propositions : List VarId) (p : Profile) (deletes conditions : List VarId)
    (s : State) (new : VarId) : State :=
  let s := deletes.foldl
    (fun s d =>
      if p.conditions.contains d || p.startAdds.contains d then s.addMutex new d else s) s
  conditions.foldl
    (fun s c => propositions.foldl
      (fun s q =>
        if q != new && s.mutex.contains c q && !p.deletes.contains q then s.addMutex new q
        else s) s) s

/-- Propositions that are added together are not mutex. -/
def allowTogether (s : State) : List VarId → State
  | [] => s
  | v :: rest => allowTogether (rest.foldl (fun s w => s.deleteMutex v w) s) rest

/-- What an action adds can hold together: the additions of one time point with each other, and
those at start that are not deleted with those at end. -/
def allowAdds (p : Profile) (s : State) : List VarId → State
  | [] => allowTogether s p.endAdds
  | v :: rest =>
    let s := rest.foldl (fun s w => s.deleteMutex v w) s
    let s := if p.deletes.contains v then s else p.endAdds.foldl (fun s w => s.deleteMutex v w) s
    allowAdds p s rest

/-- A proposition that was reachable already and is added again is no longer mutex with one that
is neither deleted nor mutex with a condition. -/
def allowOld (propositions : List VarId) (p : Profile) (s : State) (old : VarId) : State :=
  propositions.foldl
    (fun s q =>
      if s.mutex.contains old q && !p.deletes.contains q
          && !p.conditions.any (fun c => s.mutex.contains c q) then s.deleteMutex old q
      else s) s

/-- Applies an action. -/
def applyAction (propositions : List VarId) (index : Nat) (p : Profile) (s : State) : State :=
  let isNew := fun v => !isMarked s.reached v
  let startNew := p.startAdds.filter isNew
  let endNew := p.endAdds.filter isNew
  let s := startNew.foldl (excludeNew propositions p p.startDeletes p.before) s
  let s := endNew.foldl (excludeNew propositions p p.deletes p.conditions) s
  let s := if s.fired.getD index false then s else allowAdds p s p.startAdds
  let old := p.adds.filter fun v => !(startNew ++ endNew).contains v
  let s := old.foldl (allowOld propositions p) s
  let s := (startNew ++ endNew).foldl State.reach s
  { s with fired := s.fired.setIfInBounds index true }

/-- Whether the positive conditions of an action are reachable and pairwise not mutex. -/
def isApplicable (p : Profile) (s : State) : Bool :=
  p.conditions.all (isMarked s.reachedBefore) && !anyPair s.mutex.contains p.conditions

/-- Applies an action if it is applicable. -/
def checkAction (isProposition : Array Bool) (propositions : List VarId) (s : State)
    (action : Action × Nat) : State :=
  let p := Profile.ofAction isProposition action.1
  if isApplicable p s then applyAction propositions action.2 p s else s

/-! ## Passes -/

/-- The state before the first pass: what is true at some time of the initial state is
reachable. -/
def initialState (t : Task) : State :=
  let isInitial := fun v : Variable =>
    t.task.isPredicate v.function
      && v.initialValues.any fun entry => entry.2.object? == some .truth
  let initial := t.vars.toList.filter isInitial
  let reached := initial.foldl (fun marks v => marks.setIfInBounds v.index.index true)
    (Array.replicate t.vars.size false)
  { reached
    reachedBefore := reached
    fired := Array.replicate t.actions.length false
    mutex := .empty
    newPropositions := initial.length
    changes := 0 }

/-- One pass over the actions. -/
def pass (t : Task) (s : State) : State :=
  let isProposition := propositions t
  let s := t.actions.zipIdx.foldl (checkAction isProposition (marked isProposition))
    { s with newPropositions := 0, changes := 0 }
  { s with reachedBefore := s.reached }

/-- Repeats passes until one changes nothing or the limit is reached; also returns their
number. -/
def run (t : Task) : Nat → State → State × Nat
  | 0, s => (s, 0)
  | limit + 1, s =>
    if s.isQuiet then (s, 0)
    else
      let (s, passes) := run t limit (pass t s)
      (s, passes + 1)

/-- The final state of the computation with at most `limit` passes. -/
def fixpoint (t : Task) (limit : Nat) : State := (run t limit (initialState t)).1

/-! ## Conditions that exclude each other -/

/-- Whether two conditions never hold together: two mutex propositions, a proposition and its
negation, or two values of one variable. -/
def excludes (isProposition : Array Bool) (r : Relation) (c d : Condition) : Bool :=
  match isMarked isProposition c.var, isMarked isProposition d.var with
  | true, true =>
    match c.value == .falsity, d.value == .falsity with
    | true, true => false
    | false, false => r.contains c.var d.var
    | _, _ => c.var == d.var
  | false, false => c.var == d.var && c.value != d.value
  | _, _ => false

/-- Whether two conditions of an action that must hold at the same time exclude each other. -/
def hasExclusiveConditions (isProposition : Array Bool) (r : Relation) (a : Action) : Bool :=
  let exclusive := excludes isProposition r
  let across := fun (cs ds : List Condition) => cs.any fun c => ds.any (exclusive c)
  anyPair exclusive a.startConditions || anyPair exclusive a.endConditions
    || anyPair exclusive a.invariants || across a.invariants a.startConditions
    || across a.invariants a.endConditions

end TemporalPlanning.Mutex
