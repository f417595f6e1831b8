import TemporalPlanning.Identifier
import TemporalPlanning.Registry
/-!
Graphs of mutex propositions and their partition into cliques.

The vertices of a graph are propositions, and an edge says that two of them never hold together. A
clique can be packed into one variable with a value per proposition. Two strategies cover the
vertices with cliques. `split?` grows a clique from every vertex that is in none yet, so cliques may
overlap. `splitComponents` cuts connected components until every part is a clique; a vertex that is
cut off is represented in the rest by a fictitious vertex, which stands for none of the propositions
of the group. Fictitious vertices are numbered behind the real ones, and `split?` has no marks for
them: after `splitComponents` it fails as soon as a clique takes one in.
-/
set_option autoImplicit false

namespace TemporalPlanning.Mutex

/-- A graph of propositions and the groups of its last partition. -/
structure Graph where
  vertices : Registry Nat VarId VarId.index
  /-- The neighbours of each vertex in the order in which the links were made. -/
  neighbours : Array (List Nat)
  groups : Array (List Nat)

/-- A group of propositions, and whether none of them may hold. -/
structure Group where
  propositions : List VarId
  noneOfThem : Bool
deriving DecidableEq

namespace Graph

/-- The graph without vertices. -/
def empty : Graph := ⟨Registry.empty, #[], #[]⟩

variable (g : Graph)

/-! ## Vertices and links -/

/-- Adds a proposition, unless it is there already. -/
def addVertex (v : VarId) : Graph :=
  match g.vertices.find? v.index with
  | some _ => g
  | none =>
    { g with vertices := (g.vertices.intern v).2, neighbours := g.neighbours.push [] }

/-- The neighbours of a vertex. -/
def neighboursOf (a : Nat) : List Nat := g.neighbours.getD a []

/-- The number of links of a vertex. -/
def degree (a : Nat) : Nat := (g.neighboursOf a).length

/-- Whether the second vertex is a neighbour of the first. -/
def isLinked (a b : Nat) : Bool := (g.neighboursOf a).contains b

/-- Links two vertices. -/
def link (a b : Nat) : Graph :=
  { g with neighbours := (g.neighbours.modify a (· ++ [b])).modify b (· ++ [a]) }

/-- Removes the link between two vertices. -/
def unlink (a b : Nat) : Graph :=
  { g with
    neighbours := (g.neighbours.modify a (·.filter (· != b))).modify b (·.filter (· != a)) }

/-- Links two different propositions, which are added if they are not there yet. -/
def addAdjacent (v w : VarId) : Graph :=
  if v = w then g
  else
    let g := (g.addVertex v).addVertex w
    match g.vertices.find? v.index, g.vertices.find? w.index with
    | some a, some b => if g.isLinked a b then g else g.link a b
    | _, _ => g

/-- The number of propositions. -/
def vertexCount : Nat := g.vertices.size

/-- Whether two propositions are linked. -/
def areAdjacent (v w : VarId) : Bool :=
  match g.vertices.find? v.index, g.vertices.find? w.index with
  | some a, some b => g.isLinked a b
  | _, _ => false

/-- Whether a vertex stands for no proposition. -/
def isFictitious (a : Nat) : Bool := g.vertices.size ≤ a

/-- Whether all vertices of a list are linked with the later ones. -/
def isClique : List Nat → Bool
  | [] => true
  | a :: rest => rest.all (g.isLinked a) && isClique rest

/-! ## Growing cliques -/

/-- The state of a search: visited vertices, members in the order in which they were found, and
the stack of vertices whose neighbours are still to be looked at. -/
structure Search where
  visited : Array Bool
  members : List Nat
  stack : List Nat

/-- A search that starts at some vertices, the last of which is looked at first. -/
def searchFrom (seed : List Nat) : Search where
  visited := seed.foldl (fun visited a => visited.setIfInBounds a true)
    (Array.replicate g.neighbours.size false)
  members := seed
  stack := seed.reverse

/-- Looks at a neighbour: it joins the clique if it is linked with all members. -/
def growAt (s : Search) (a : Nat) : Search :=
  if s.visited.getD a true then s
  else
    let s := { s with visited := s.visited.setIfInBounds a true }
    if s.members.all (g.isLinked a) then
      { s with members := s.members ++ [a], stack := a :: s.stack }
    else s

/-- Grows the clique until the stack is empty. -/
def grow : Nat → Search → Search
  | 0, s => s
  | fuel + 1, s =>
    match s.stack with
    | [] => s
    | a :: stack => grow fuel ((g.neighboursOf a).foldl g.growAt { s with stack })

/-- The clique grown from a list of linked vertices. Each vertex is put on the stack at most
once. -/
def growClique (seed : List Nat) : List Nat :=
  (g.grow (g.neighbours.size + seed.length) (g.searchFrom seed)).members

/-- Covers the vertices of a list with cliques, each grown from one that is in none yet. -/
def cover (assigned : Array Bool) : List Nat → List (List Nat)
  | [] => []
  | a :: rest =>
    if assigned.getD a false || g.isFictitious a then cover assigned rest
    else
      let clique := g.growClique [a]
      clique :: cover (clique.foldl (fun marks b => marks.setIfInBounds b true) assigned) rest

/-- The cliques that cover a list of vertices. -/
def cliquesOver (vertices : List Nat) : List (List Nat) :=
  g.cover (Array.replicate g.neighbours.size false) vertices

/-- The graph with its partition into cliques, which may overlap. -/
def splitCliques : Graph :=
  { g with groups := (g.cliquesOver (List.range g.vertices.size)).toArray }

/-- Marks a vertex, if it has a mark. -/
def mark? (marks : Array Bool) (a : Nat) : Option (Array Bool) :=
  if a < marks.size then some (marks.setIfInBounds a true) else none

/-- Covers the vertices of a list as `cover` does, with marks that all members of the cliques must
have. -/
def coverMarked? (marks : Array Bool) : List Nat → Option (List (List Nat))
  | [] => some []
  | a :: rest =>
    if marks.getD a false then coverMarked? marks rest
    else do
      let clique := g.growClique [a]
      return clique :: (← coverMarked? (← clique.foldlM mark? marks) rest)

/-- Partitions the graph into cliques, if they keep to the propositions. Only these are marked. -/
def split? : Option Graph := do
  let cliques ← g.coverMarked? (Array.replicate g.vertices.size false) (List.range g.vertices.size)
  return { g with groups := cliques.toArray }

/-! ## Connected components -/

/-- Looks at a neighbour: it belongs to the component. -/
def exploreAt (s : Search) (a : Nat) : Search :=
  if s.visited.getD a true then s
  else { s with visited := s.visited.setIfInBounds a true, stack := a :: s.stack }

/-- Collects a component until the stack is empty. -/
def explore : Nat → Search → Search
  | 0, s => s
  | fuel + 1, s =>
    match s.stack with
    | [] => s
    | a :: stack =>
      explore fuel
        ((g.neighboursOf a).foldl exploreAt { s with stack, members := s.members ++ [a] })

/-- The components of the vertices of a list, given the vertices that are already in one. -/
def componentsFrom (visited : Array Bool) : List Nat → List (List Nat)
  | [] => []
  | a :: rest =>
    if visited.getD a false then componentsFrom visited rest
    else
      let s := g.explore (g.neighbours.size + 1) ⟨visited.setIfInBounds a true, [], [a]⟩
      s.members :: componentsFrom s.visited rest

/-- The connected components that contain the vertices of a list. -/
def components (vertices : List Nat) : List (List Nat) :=
  g.componentsFrom (Array.replicate g.neighbours.size false) vertices

/-! ## Cutting components -/

/-- The first vertex with the greatest number of links among the real vertices of a list. -/
def highestDegree? (vertices : List Nat) : Option Nat :=
  (vertices.filter fun a => !g.isFictitious a).foldl
    (fun best a =>
      match best with
      | some b => if g.degree a ≤ g.degree b then some b else some a
      | none => some a) none

/-- The first vertex with the smallest number of links among the neighbours of a vertex. -/
def lowestNeighbour? (a : Nat) : Option Nat :=
  (g.neighboursOf a).foldl
    (fun best b =>
      match best with
      | some c => if g.degree c ≤ g.degree b then some c else some b
      | none => some b) none

/-- The link at which a component is cut next. -/
def nextCut? (component : List Nat) : Option (Nat × Nat) := do
  let a ← g.highestDegree? component
  return (a, ← g.lowestNeighbour? a)

/-- Adds a vertex that stands for no proposition. -/
def addFictitious : Graph := { g with neighbours := g.neighbours.push [] }

/-- Cuts the first vertex of a clique off the others, which are linked to a fictitious vertex in
its place: the last one of the clique, or a new one if the clique has none. -/
def cutOff : List Nat → Graph
  | [] => g
  | a :: rest =>
    let cut := rest.foldl (fun g b => g.unlink a b) g
    let (g, fictitious) :=
      match rest.reverse.find? g.isFictitious with
      | some b => (cut, b)
      | none => (cut.addFictitious, cut.neighbours.size)
    rest.foldl
      (fun g b => if b == fictitious || g.isLinked fictitious b then g else g.link fictitious b) g

/-- Cuts a component until it falls apart, and returns its parts. Gives up when `budget` cuts
were not enough or nothing is left to be cut. -/
def cutApart (component : List Nat) : Nat → Graph → Graph × Option (List (List Nat))
  | 0, g => (g, none)
  | budget + 1, g =>
    match g.nextCut? component with
    | none => (g, none)
    | some (a, b) =>
      let g := g.cutOff (g.growClique [a, b])
      let parts := g.components component
      if 1 < parts.length then (g, some parts) else cutApart component budget g

/-- The number of cuts that are tried on a component. -/
def cutBudget (component : List Nat) : Nat := (component.flatMap g.neighboursOf).length + component.length

/-- Adds groups. -/
def addGroups (groups : List (List Nat)) : Graph := { g with groups := g.groups ++ groups.toArray }

/-- Splits components into cliques one after the other. A component that cannot be cut apart is
covered by cliques. -/
def splitAll : Nat → List (List Nat) → Graph → Graph
  | 0, components, g => components.foldl (fun g c => g.addGroups (g.cliquesOver c)) g
  | fuel + 1, components, g =>
    components.foldl
      (fun g component =>
        if g.isClique component then g.addGroups [component]
        else
          match cutApart component (g.cutBudget component) g with
          | (g, some parts) => splitAll fuel parts g
          | (g, none) => g.addGroups (g.cliquesOver component)) g

/-- Bounds how often parts of components are cut again. Every cut removes a link between real
vertices, or keeps those and removes one to a fictitious vertex; the former happens at most once
per link, and each time makes at most one link to a fictitious vertex per real vertex. -/
def cutDepth : Nat :=
  let links := ((List.range g.neighbours.size).flatMap g.neighboursOf).length
  links * (g.vertices.size + 1) + 1

/-- Partitions the graph into the cliques into which its components fall, and cuts their links. A
group must contain a proposition. -/
def splitComponents : Graph :=
  let split := splitAll g.cutDepth (g.components (List.range g.vertices.size))
    { g with groups := #[] }
  { split with
    groups := split.groups.filter fun group =>
      match group with
      | [a] => !split.isFictitious a
      | _ => true }

/-! ## Groups -/

/-- A group by its propositions. -/
def groupOf (members : List Nat) : Group where
  propositions := members.filterMap g.vertices.get?
  noneOfThem := members.any g.isFictitious

/-- The number of groups of the last partition. -/
def groupCount : Nat := g.groups.size

/-- A group of the last partition. -/
def group? (i : Nat) : Option Group := g.groups[i]?.map g.groupOf

/-- The groups of the last partition. -/
def groupList : List Group := g.groups.toList.map g.groupOf

end Graph

end TemporalPlanning.Mutex
