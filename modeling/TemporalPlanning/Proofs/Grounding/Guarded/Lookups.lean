import TemporalPlanning.Proofs.Expression
/-!
Guarded computations.

The lookups of grounding are total: a position that is not in a table reads as a default. A guarded
computation is one that reads its tables with `Guarded.read` instead, which ends the computation
with a fault if the position is not in the table. Guarding must not make a difference:
`Guarded.Mirrors` says that a guarded computation ends as the one that it guards does, so in
particular it ends with no such fault. It also says which errors may be reported, as both are shown
along the same structure.
-/
set_option autoImplicit false

namespace TemporalPlanning.Grounding

/-- The tables that grounding reads at positions. -/
inductive Table where
  | types
  | objects
  | functions
  /-- The parameters of an operator. -/
  | parameters
  /-- The objects that the parameters of an operator range over. -/
  | candidates
  | variables
  | preferenceNames
  /-- For every variable, whether an action writes it. -/
  | marks
  /-- For every variable, what is known about its value. -/
  | constancies
  /-- For every variable, what stands for it. -/
  | replacements
deriving DecidableEq

/-- Why a guarded computation ends early. -/
inductive Fault where
  /-- A position is not in the table that is read. -/
  | outOfBounds (table : Table) (position : Nat)
  /-- The computation that is guarded reports an error. -/
  | reported (error : Error)

/-- A computation that checks positions before it reads tables. -/
abbrev Guarded := Except Fault

namespace Guarded

variable {α β γ : Type}

/-- The entry of a table at a position. -/
def read (table : Table) (entries : Array α) (position : Nat) : Guarded α :=
  match entries[position]? with
  | some entry => .ok entry
  | none => .error (.outOfBounds table position)

/-- A computation that reads no table. -/
def unguarded (x : Except Error α) : Guarded α := x.mapError .reported

/-- A read within the table is no fault. -/
theorem read_eq_ok {table : Table} {entries : Array α} {position : Nat} {entry : α}
    (h : entries[position]? = some entry) : read table entries position = .ok entry := by
  rw [read, h]

/-- A position in the table can be read. -/
theorem exists_read_eq_ok (table : Table) {entries : Array α} {position : Nat}
    (h : position < entries.size) : ∃ entry, entries[position]? = some entry ∧
      read table entries position = .ok entry :=
  ⟨_, Array.getElem?_eq_getElem h, read_eq_ok (Array.getElem?_eq_getElem h)⟩

theorem bind_of_eq_ok {c : Guarded α} {k : α → Guarded β} {a : α} {result : Guarded β}
    (hc : c = .ok a) (h : k a = result) : c >>= k = result := by
  rw [hc]
  exact h

/-! ## Lists of computations that succeed -/

section Lists

variable {l : List α}

/-- A guarded map that meets no fault is the map. -/
theorem mapM_eq_ok {f : α → Guarded β} {g : α → β} (h : ∀ a ∈ l, f a = .ok (g a)) :
    l.mapM f = .ok (l.map g) := by
  induction l with
  | nil => rfl
  | cons a l ih =>
    obtain ⟨ha, hl⟩ := List.forall_mem_cons.mp h
    rw [List.mapM_cons, ha, ih hl]
    rfl

/-- As every entry of a list exists, none is left out. -/
theorem mapM_eq_ok_filterMap {f : α → Guarded β} {g : α → Option β}
    (h : ∀ a ∈ l, ∃ b, f a = .ok b ∧ g a = some b) : l.mapM f = .ok (l.filterMap g) := by
  induction l with
  | nil => rfl
  | cons a l ih =>
    obtain ⟨⟨b, hf, hg⟩, hl⟩ := List.forall_mem_cons.mp h
    rw [List.mapM_cons, hf, ih hl, List.filterMap_cons_some hg]
    rfl

theorem anyM_eq_ok {f : α → Guarded Bool} {p : α → Bool} (h : ∀ a ∈ l, f a = .ok (p a)) :
    l.anyM f = .ok (l.any p) := by
  induction l with
  | nil => rfl
  | cons a l ih =>
    obtain ⟨ha, hl⟩ := List.forall_mem_cons.mp h
    rw [List.anyM, ha, List.any_cons]
    cases p a
    · exact ih hl
    · rfl

theorem forM_eq_ok {f : α → Guarded PUnit} (h : ∀ a ∈ l, f a = .ok ⟨⟩) : l.forM f = .ok ⟨⟩ := by
  induction l with
  | nil => rfl
  | cons a l ih =>
    obtain ⟨ha, hl⟩ := List.forall_mem_cons.mp h
    show (f a >>= fun _ => l.forM f) = _
    rw [ha]
    exact ih hl

/-- A loop that succeeds as long as what it has computed has a property. -/
theorem foldlM_eq_ok {P : β → Prop} {f : β → α → Guarded β} {g : β → α → β}
    (h : ∀ a ∈ l, ∀ b, P b → f b a = .ok (g b a) ∧ P (g b a)) {b : β} (hb : P b) :
    l.foldlM f b = .ok (l.foldl g b) ∧ P (l.foldl g b) := by
  induction l generalizing b with
  | nil => exact ⟨rfl, hb⟩
  | cons a l ih =>
    obtain ⟨ha, hl⟩ := List.forall_mem_cons.mp h
    obtain ⟨hstep, hnext⟩ := ha b hb
    obtain ⟨hrun, hlast⟩ := ih hl hnext
    refine ⟨?_, hlast⟩
    rw [List.foldlM_cons, hstep]
    exact hrun

/-- The elements of a list that pass a test. -/
def select (f : α → Guarded Bool) : List α → Guarded (List α)
  | [] => return []
  | a :: l => do
    let passes ← f a
    let rest ← select f l
    return if passes then a :: rest else rest

theorem select_eq_ok {f : α → Guarded Bool} {p : α → Bool} (h : ∀ a ∈ l, f a = .ok (p a)) :
    select f l = .ok (l.filter p) := by
  induction l with
  | nil => rfl
  | cons a l ih =>
    obtain ⟨ha, hl⟩ := List.forall_mem_cons.mp h
    rw [select, ha, ih hl, List.filter_cons]
    rfl

end Lists

theorem mapM_expression_eq_ok {f : α → Guarded β} {g : α → β} {e : Expression α}
    (h : ∀ a ∈ e.atoms, f a = .ok (g a)) :
    e.mapM f = .ok (e.fold (fun a => .atom (g a)) .node) := by
  induction e using Expression.operandsInduction with
  | atom a =>
    rw [Expression.mapM_atom, h a (Expression.mem_atoms_atom.mpr rfl)]
    rfl
  | node op es ih =>
    rw [Expression.mapM_node, Expression.fold_node, mapM_eq_ok fun e he => ih e he fun a ha =>
      h a (Expression.mem_atoms_node.mpr ⟨e, he, ha⟩)]
    rfl

/-! ## Mirrored computations -/

/-- A guarded computation ends as another one does, which reports no errors but those that are
foreseen. -/
inductive Mirrors (E : Error → Prop) : Guarded α → Except Error α → Prop where
  | ok (a : α) : Mirrors E (.ok a) (.ok a)
  | error (e : Error) (h : E e) : Mirrors E (.error (.reported e)) (.error e)

variable {E : Error → Prop}

theorem Mirrors.of_eq_error {c : Guarded α} {x : Except Error α} {e : Error} (h : Mirrors E c x)
    (hx : x = .error e) : E e := by
  cases h with
  | ok a => cases hx
  | error _ he =>
    cases hx
    exact he

/-- A computation that reads no table mirrors itself. -/
theorem mirrors_unguarded {x : Except Error α} (h : ∀ e, x = .error e → E e) :
    Mirrors E (unguarded x) x := by
  cases x with
  | ok a => exact .ok a
  | error e => exact .error e (h e rfl)

/-- What follows has to mirror only for results that the first computation can have. -/
theorem Mirrors.bind {c : Guarded α} {x : Except Error α} {k : α → Guarded β}
    {f : α → Except Error β} (hx : Mirrors E c x) (hf : ∀ a, x = .ok a → Mirrors E (k a) (f a)) :
    Mirrors E (c >>= k) (x >>= f) := by
  cases hx with
  | ok a => exact hf a rfl
  | error e h => exact .error e h

/-- Reading a table does not count. -/
theorem mirrors_bind_of_eq_ok {c : Guarded α} {k : α → Guarded β} {x : Except Error β} {a : α}
    (hc : c = .ok a) (h : Mirrors E (k a) x) : Mirrors E (c >>= k) x := by
  rw [hc]
  exact h

/-! ## Computations that may come to nothing -/

section Residues

theorem run_bind_of_eq_ok {c : Guarded α} {k : α → OptionT Guarded β} {a : α} (hc : c = .ok a) :
    ((liftM c : OptionT Guarded α) >>= k).run = (k a).run := by
  rw [hc]
  rfl

theorem mirrors_residue_lift {c : Guarded α} {x : Except Error α} (h : Mirrors E c x) :
    Mirrors E (OptionT.lift c).run (OptionT.lift x).run := by
  cases h with
  | ok a => exact .ok (some a)
  | error e he => exact .error e he

/-- The same for computations that may come to nothing, where nothing follows in that case. -/
theorem mirrors_residue_bind {c : OptionT Guarded α} {x : OptionT (Except Error) α}
    {k : α → OptionT Guarded β} {f : α → OptionT (Except Error) β} (hx : Mirrors E c.run x.run)
    (hf : ∀ a, x.run = .ok (some a) → Mirrors E (k a).run (f a).run) :
    Mirrors E (c >>= k).run (x >>= f).run := by
  rw [OptionT.run_bind, OptionT.run_bind]
  refine hx.bind fun a? ha? => ?_
  cases a? with
  | none => exact .ok none
  | some a => exact hf a ha?

theorem mirrors_residue_mapM {g : α → OptionT Guarded β} {f : α → OptionT (Except Error) β}
    {l : List α} (h : ∀ a ∈ l, Mirrors E (g a).run (f a).run) :
    Mirrors E (l.mapM g).run (l.mapM f).run := by
  induction l with
  | nil => exact .ok (some [])
  | cons a l ih =>
    obtain ⟨ha, hl⟩ := List.forall_mem_cons.mp h
    rw [List.mapM_cons, List.mapM_cons]
    exact mirrors_residue_bind ha fun b _ => mirrors_residue_bind (ih hl) fun bs _ =>
      .ok (some (b :: bs))

/-- Both computations go through an expression in the same way. -/
theorem mirrors_foldM {leaf : α → OptionT (Except Error) β} {leaf' : α → OptionT Guarded β}
    {combine : Operation → List (Expression α) → List β → OptionT (Except Error) β}
    {combine' : Operation → List (Expression α) → List β → OptionT Guarded β}
    (hcombine : ∀ op es bs, Mirrors E (combine' op es bs).run (combine op es bs).run)
    {e : Expression α} (hleaf : ∀ a ∈ e.atoms, Mirrors E (leaf' a).run (leaf a).run) :
    Mirrors E (e.foldM leaf' combine').run (e.foldM leaf combine).run := by
  induction e using Expression.operandsInduction with
  | atom a =>
    rw [Expression.foldM, Expression.foldM]
    exact hleaf a (Expression.mem_atoms_atom.mpr rfl)
  | node op es ih =>
    rw [Expression.foldM_node, Expression.foldM_node]
    refine mirrors_residue_bind (mirrors_residue_mapM fun e he => ih e he fun a ha => ?_)
      fun bs _ => hcombine op es bs
    exact hleaf a (Expression.mem_atoms_node.mpr ⟨e, he, ha⟩)

end Residues

end Guarded

end TemporalPlanning.Grounding
