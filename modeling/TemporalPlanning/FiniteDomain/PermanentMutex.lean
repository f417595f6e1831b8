import TemporalPlanning.FiniteDomain.ActionIndex
/-!
Permanent mutexes.

A fact leads to the effects of the actions that require it, and these lead on in the same way. Of
two mutex facts the second is permanently excluded by the first if the first does not lead to it.
Two actions never follow each other if each of them has an effect that permanently excludes a
condition of the other. The requirers of the task must have been found before.
-/
set_option autoImplicit false

namespace TemporalPlanning.FiniteDomain

/-- The facts that are mutex with each fact, by the codes of facts. -/
abbrev PartnerIndex := Std.TreeMap Nat (Std.TreeSet Nat)

/-- Collects the facts that are mutex with each fact. -/
def partners (mutex : PairSet) : PartnerIndex :=
  mutex.toList.foldl
    (fun index (c, d) => index.alter c fun others => some ((others.getD ∅).insert d)) ∅

/-! ## Facts that a fact leads to -/

/-- The state of a search for facts. -/
structure Search where
  /-- Facts that have not been found. -/
  targets : Std.TreeSet Nat
  found : Std.TreeSet Nat
  /-- The actions whose effects have been looked at. -/
  taken : Array Bool
  /-- Facts found last, in reverse order. -/
  fresh : List Nat

namespace Search

/-- The search that starts at a fact. -/
def start (t : Task) (fact : Nat) (targets : Std.TreeSet Nat) : Search where
  targets := targets
  found := (∅ : Std.TreeSet Nat).insert fact
  taken := Array.replicate t.actions.size false
  fresh := []

/-- Finds the fact of an effect. -/
def find (s : Search) (effect : Condition) : Except Error Search := do
  let fact := (← effect.fact).code
  let s := { s with targets := s.targets.erase fact }
  return if s.found.contains fact then s
    else { s with found := s.found.insert fact, fresh := fact :: s.fresh }

/-- Looks at the effects of an action. -/
def take (t : Task) (s : Search) (action : Nat) : Except Error Search :=
  if s.taken.getD action true then .ok s
  else
    match t.actions[action]? with
    | some a => a.effects.foldlM find { s with taken := s.taken.setIfInBounds action true }
    | none => .ok s

/-- Looks at the actions that require a fact, unless there is nothing left to be found. -/
def follow (t : Task) (s : Search) (fact : Nat) : Except Error Search :=
  if s.targets.isEmpty then .ok s else (t.requirers.actionsOf fact).foldlM (take t) s

/-- Follows facts, then those found from them, and so on. -/
def run (t : Task) : Nat → List Nat → Search → Except Error Search
  | 0, _, s => .ok s
  | rounds + 1, facts, s =>
    if facts.isEmpty then .ok s
    else do
      let s ← facts.foldlM (follow t) { s with fresh := [] }
      run t rounds s.fresh.reverse s

end Search

/-- The targets to which a fact does not lead. Every round but the last looks at a new action. -/
def unreachable (t : Task) (fact : Nat) (targets : Std.TreeSet Nat) :
    Except Error (Std.TreeSet Nat) := do
  return (← Search.run t (t.actions.size + 1) [fact] (.start t fact targets)).targets

/-! ## Facts and actions -/

/-- The mutex facts that are permanently so. -/
def permanentFacts (t : Task) : Except Error PairSet :=
  (partners t.mutex).toList.foldlM
    (fun pairs (fact, others) => do
      let excluded ← unreachable t fact others
      return excluded.foldl (fun pairs other => pairs.insert (fact, other)) pairs) ∅

/-- Whether an effect of an action permanently excludes a condition of another one. -/
def Task.precludes (t : Task) (a b : Action) : Except Error Bool :=
  a.effects.anyM fun effect => do
    let fact ← effect.fact
    b.conditions.anyM fun condition => do
      return t.isPermanentMutex fact (← condition.fact)

/-- Adds two actions in both orders if each precludes the other. -/
def addIfExclusive (t : Task) (a : Action) (pairs : PairSet) (b : Action) :
    Except Error PairSet := do
  if ← t.precludes a b then
    if ← t.precludes b a then
      return (pairs.insert (a.index, b.index)).insert (b.index, a.index)
  return pairs

/-- The pairs of actions of a list that never follow each other, added to some pairs. -/
def exclusiveActions (t : Task) : List Action → PairSet → Except Error PairSet
  | [], pairs => .ok pairs
  | a :: rest, pairs => do
    let pairs ← rest.foldlM (addIfExclusive t a) pairs
    exclusiveActions t rest pairs

/-- Finds permanent mutexes of facts and then of actions. -/
def computePermanentMutex : Update Unit := do
  let permanentMutex ← liftExcept (permanentFacts (← get))
  modify fun t => { t with permanentMutex }
  let t ← get
  let permanentMutexActions ←
    if t.permanentMutex.isEmpty then pure ∅
    else liftExcept (exclusiveActions t t.actions.toList ∅)
  modify fun t => { t with permanentMutexActions }

end TemporalPlanning.FiniteDomain
