import TemporalPlanning.FiniteDomain.Expression
import TemporalPlanning.Grounded.Evaluation
import TemporalPlanning.Proofs.Grounding.Steps
/-!
Values of expressions.

`Expression.value?` is the value of an expression for given values of its leaves; it does not say
why there is none, if there is none. Evaluation with and without a state computes this value, and
replacing leaves by leaves with the same values keeps it.

Expressions are nested in lists of operands, so statements about them are proved by
`Expression.operandsInduction`, which assumes the statement for all operands at once.
-/
set_option autoImplicit false

namespace TemporalPlanning

/-! ## Computations that may come to nothing -/

section Residues

variable {ε α β : Type}

/-- Two computations in a row have a result if both do. -/
theorem residue_bind_eq_some {x : OptionT (Except ε) α} {f : α → OptionT (Except ε) β} {b : β} :
    (x >>= f).run = .ok (some b) ↔
      ∃ a, x.run = .ok (some a) ∧ (f a).run = .ok (some b) := by
  rw [OptionT.run_bind, Option.elimM, Grounding.except_bind_eq_ok]
  constructor
  · rintro ⟨a?, hx, hf⟩
    cases a? with
    | none => cases hf
    | some a => exact ⟨a, hx, hf⟩
  · rintro ⟨a, hx, hf⟩
    exact ⟨some a, hx, hf⟩

/-- Two computations in a row come to nothing if the first or the second does. -/
theorem residue_bind_eq_none {x : OptionT (Except ε) α} {f : α → OptionT (Except ε) β} :
    (x >>= f).run = .ok none ↔
      x.run = .ok none ∨ ∃ a, x.run = .ok (some a) ∧ (f a).run = .ok none := by
  rw [OptionT.run_bind, Option.elimM, Grounding.except_bind_eq_ok]
  constructor
  · rintro ⟨a?, hx, hf⟩
    cases a? with
    | none => exact Or.inl hx
    | some a => exact Or.inr ⟨a, hx, hf⟩
  · rintro (hx | ⟨a, hx, hf⟩)
    · exact ⟨none, hx, rfl⟩
    · exact ⟨some a, hx, hf⟩

theorem residue_mapM_eq_some {f : α → OptionT (Except ε) β} {as : List α} {bs : List β}
    (h : (as.mapM f).run = .ok (some bs)) :
    List.Forall₂ (fun a b => (f a).run = .ok (some b)) as bs := by
  induction as generalizing bs with
  | nil =>
    cases h
    exact .nil
  | cons a as ih =>
    rw [List.mapM_cons] at h
    obtain ⟨b, hb, h⟩ := residue_bind_eq_some.mp h
    obtain ⟨bs', hbs, h⟩ := residue_bind_eq_some.mp h
    cases h
    exact .cons hb (ih hbs)

theorem residue_mapM_eq_none {f : α → OptionT (Except ε) β} {as : List α}
    (h : (as.mapM f).run = .ok none) : ∃ a ∈ as, (f a).run = .ok none := by
  induction as with
  | nil => cases h
  | cons a as ih =>
    rw [List.mapM_cons] at h
    rcases residue_bind_eq_none.mp h with ha | ⟨b, -, h⟩
    · exact ⟨a, List.mem_cons_self, ha⟩
    rcases residue_bind_eq_none.mp h with has | ⟨bs, -, h⟩
    · obtain ⟨a', ha', hnone⟩ := ih has
      exact ⟨a', List.mem_cons_of_mem _ ha', hnone⟩
    · cases h

/-- Lists whose elements have the same images one by one have the same image. -/
theorem map_eq_map_of_forall₂ {γ : Type} {f : β → γ} {g : α → γ} {as : List α} {bs : List β}
    (h : List.Forall₂ (fun a b => f b = g a) as bs) : bs.map f = as.map g := by
  induction h with
  | nil => rfl
  | cons hhead _ ih => rw [List.map_cons, List.map_cons, hhead, ih]

/-- What elements pass on to those that correspond to them. -/
theorem forall_mem_of_forall₂ {R : α → β → Prop} {P : α → Prop} {Q : β → Prop} {as : List α}
    {bs : List β} (h : List.Forall₂ R as bs) (hP : ∀ a ∈ as, P a)
    (hR : ∀ a b, R a b → P a → Q b) : ∀ b ∈ bs, Q b := by
  induction h with
  | nil => exact fun b hb => by cases hb
  | cons hhead _ ih =>
    obtain ⟨ha, has⟩ := List.forall_mem_cons.mp hP
    exact List.forall_mem_cons.mpr ⟨hR _ _ hhead ha, ih has⟩

end Residues

namespace Expression

variable {α β ν : Type}

/-- Induction that assumes a statement for all operands of an operation. -/
theorem operandsInduction {motive : Expression α → Prop} (atom : ∀ a, motive (.atom a))
    (node : ∀ op es, (∀ e ∈ es, motive e) → motive (.node op es)) : ∀ e, motive e
  | .atom a => atom a
  | .node op es => node op es fun e _ => operandsInduction atom node e

theorem foldListM_eq_mapM {m : Type → Type} [Monad m] [LawfulMonad m] (leaf : α → m ν)
    (combine : Operation → List (Expression α) → List ν → m ν) (es : List (Expression α)) :
    foldListM leaf combine es = es.mapM (foldM leaf combine) := by
  induction es with
  | nil => rw [foldListM, List.mapM_nil]
  | cons e es ih => rw [foldListM, List.mapM_cons, ih]

theorem foldM_node {m : Type → Type} [Monad m] [LawfulMonad m] (leaf : α → m ν)
    (combine : Operation → List (Expression α) → List ν → m ν) (op : Operation)
    (es : List (Expression α)) :
    (node op es).foldM leaf combine = es.mapM (foldM leaf combine) >>= combine op es := by
  rw [foldM, foldListM_eq_mapM]

theorem mapM_atom {m : Type → Type} [Monad m] (f : α → m β) (a : α) :
    (atom a).mapM f = atom <$> f a := by
  rw [mapM, foldM]

theorem mapM_node {m : Type → Type} [Monad m] [LawfulMonad m] (f : α → m β) (op : Operation)
    (es : List (Expression α)) :
    (node op es).mapM f = es.mapM (mapM f) >>= fun es' => pure (node op es') := by
  rw [mapM, foldM_node]
  rfl

theorem fold_node (leaf : α → ν) (combine : Operation → List ν → ν) (op : Operation)
    (es : List (Expression α)) :
    (node op es).fold leaf combine = combine op (es.map (fold leaf combine)) := by
  unfold fold
  rw [foldM_node]
  show combine op (Id.run (es.mapM _)) = _
  rw [List.idRun_mapM]

/-- The atoms of an operation are those of its operands. -/
theorem mem_atoms_node {op : Operation} {es : List (Expression α)} {a : α} :
    a ∈ (node op es).atoms ↔ ∃ e ∈ es, a ∈ e.atoms := by
  rw [atoms, fold_node, List.mem_flatten]
  constructor
  · rintro ⟨l, hl, ha⟩
    obtain ⟨e, he, rfl⟩ := List.mem_map.mp hl
    exact ⟨e, he, ha⟩
  · rintro ⟨e, he, ha⟩
    exact ⟨e.atoms, List.mem_map_of_mem he, ha⟩

theorem mem_atoms_atom {a b : α} : a ∈ (atom b).atoms ↔ a = b := List.mem_singleton

theorem forall_mem_atoms_atom {P : α → Prop} {b : α} : (∀ a ∈ (atom b).atoms, P a) ↔ P b :=
  List.forall_mem_singleton

/-- The atoms of an expression whose atoms have been replaced are the replacements. -/
theorem mem_atoms_fold {f : α → β} {e : Expression α} {b : β} :
    b ∈ (e.fold (fun a => atom (f a)) node).atoms ↔ ∃ a ∈ e.atoms, f a = b := by
  induction e using operandsInduction with
  | atom a =>
    show b ∈ (atom (f a)).atoms ↔ _
    simp only [mem_atoms_atom, exists_eq_left]
    exact eq_comm
  | node op es ih =>
    rw [fold_node, mem_atoms_node]
    constructor
    · rintro ⟨e', he', hb⟩
      obtain ⟨e, he, rfl⟩ := List.mem_map.mp he'
      obtain ⟨a, ha, rfl⟩ := (ih e he).mp hb
      exact ⟨a, mem_atoms_node.mpr ⟨e, he, ha⟩, rfl⟩
    · rintro ⟨a, ha, rfl⟩
      obtain ⟨e, he, ha⟩ := mem_atoms_node.mp ha
      exact ⟨_, List.mem_map_of_mem he, (ih e he).mpr ⟨a, ha, rfl⟩⟩

section Fold

variable {ε γ : Type} {f : α → OptionT (Except ε) γ}
  {combine : Operation → List (Expression α) → List γ → OptionT (Except ε) γ}

/-- What relates leaves to their results, and operations to theirs if it relates their operands,
relates expressions to their results. -/
theorem foldM_induction {R : Expression α → γ → Prop}
    (atom : ∀ a r, (f a).run = .ok (some r) → R (.atom a) r)
    (node : ∀ op es rs r, List.Forall₂ R es rs → (combine op es rs).run = .ok (some r) →
      R (.node op es) r)
    {e : Expression α} {r : γ} (h : (e.foldM f combine).run = .ok (some r)) : R e r := by
  induction e using operandsInduction generalizing r with
  | atom a => exact atom a r h
  | node op es ih =>
    rw [foldM_node] at h
    obtain ⟨rs, hrs, h⟩ := residue_bind_eq_some.mp h
    refine node op es rs r ?_ h
    exact ((List.forall₂_and_left _ _).mpr ⟨ih, residue_mapM_eq_some hrs⟩).imp
      fun e r ⟨ih, he⟩ => ih he

/-- If operations always have a result, an expression without one has a leaf without one. -/
theorem exists_atom_of_foldM_eq_none (hcombine : ∀ op es rs, (combine op es rs).run ≠ .ok none)
    {e : Expression α} (h : (e.foldM f combine).run = .ok none) :
    ∃ a ∈ e.atoms, (f a).run = .ok none := by
  induction e using operandsInduction with
  | atom a => exact ⟨a, mem_atoms_atom.mpr rfl, h⟩
  | node op es ih =>
    rw [foldM_node] at h
    rcases residue_bind_eq_none.mp h with h | ⟨rs, -, h⟩
    · obtain ⟨e, he, h⟩ := residue_mapM_eq_none h
      obtain ⟨a, ha, hf⟩ := ih e he h
      exact ⟨a, mem_atoms_node.mpr ⟨e, he, ha⟩, hf⟩
    · exact absurd h (hcombine op es rs)

/-- What leaves pass on to their results, expressions pass on to the atoms of theirs, if operations
become operations or a leaf that has it. -/
theorem forall_mem_atoms_of_foldM {f : α → OptionT (Except ε) (Expression γ)}
    {combine : Operation → List (Expression α) → List (Expression γ) →
      OptionT (Except ε) (Expression γ)} {P : α → Prop} {P' : γ → Prop}
    (hleaf : ∀ a r, (f a).run = .ok (some r) → P a → ∀ b ∈ r.atoms, P' b)
    (hcombine : ∀ op es rs r, (combine op es rs).run = .ok (some r) →
      r = .node op rs ∨ ∃ b, r = .atom b ∧ P' b)
    {e : Expression α} {r : Expression γ} (h : (e.foldM f combine).run = .ok (some r))
    (he : ∀ a ∈ e.atoms, P a) : ∀ b ∈ r.atoms, P' b := by
  refine foldM_induction (R := fun e r => (∀ a ∈ e.atoms, P a) → ∀ b ∈ r.atoms, P' b)
    (fun a r ha hP => hleaf a r ha (hP a (mem_atoms_atom.mpr rfl)))
    (fun op es rs r hrs hr hP => ?_) h he
  obtain rfl | ⟨b, rfl, hb⟩ := hcombine op es rs r hr
  · intro b hb
    obtain ⟨r, hr, hb⟩ := mem_atoms_node.mp hb
    obtain ⟨e, he, hR⟩ := Grounding.exists_of_forall₂ hrs hr
    exact hR (fun a ha => hP a (mem_atoms_node.mpr ⟨e, he, ha⟩)) b hb
  · exact forall_mem_atoms_atom.mpr hb

end Fold

/-- An atom of an expression whose atoms have been replaced replaces one of them. -/
theorem exists_atom_of_mapM {ε : Type} {f : α → OptionT (Except ε) β} {e : Expression α}
    {e' : Expression β} (h : (e.mapM f).run = .ok (some e')) {b : β} (hb : b ∈ e'.atoms) :
    ∃ a ∈ e.atoms, (f a).run = .ok (some b) := by
  induction e using operandsInduction generalizing e' b with
  | atom a =>
    rw [mapM_atom, map_eq_pure_bind] at h
    obtain ⟨b', hb', h⟩ := residue_bind_eq_some.mp h
    cases h
    rw [mem_atoms_atom.mp hb]
    exact ⟨a, mem_atoms_atom.mpr rfl, hb'⟩
  | node op es ih =>
    rw [mapM_node] at h
    obtain ⟨es', hes, h⟩ := residue_bind_eq_some.mp h
    cases h
    obtain ⟨e', he', hb⟩ := mem_atoms_node.mp hb
    obtain ⟨e, he, hmap⟩ := Grounding.exists_of_forall₂ (residue_mapM_eq_some hes) he'
    obtain ⟨a, ha, hfa⟩ := ih e he hmap hb
    exact ⟨a, mem_atoms_node.mpr ⟨e, he, ha⟩, hfa⟩

/-- What all replacements have, all atoms have of an expression whose atoms have been replaced. -/
theorem forall_mem_atoms_of_mapM {ε : Type} {f : α → Except ε β} {P : β → Prop}
    (hf : ∀ a b, f a = .ok b → P b) {e : Expression α} {e' : Expression β}
    (h : e.mapM f = .ok e') : ∀ b ∈ e'.atoms, P b := by
  induction e using operandsInduction generalizing e' with
  | atom a =>
    rw [mapM_atom, map_eq_pure_bind] at h
    obtain ⟨b, hb, h⟩ := Grounding.except_bind_eq_ok.mp h
    cases h
    exact forall_mem_atoms_atom.mpr (hf a b hb)
  | node op es ih =>
    rw [mapM_node] at h
    obtain ⟨es', hes, h⟩ := Grounding.except_bind_eq_ok.mp h
    cases h
    intro b hb
    obtain ⟨e', he', hb⟩ := mem_atoms_node.mp hb
    obtain ⟨e, he, hmap⟩ := Grounding.exists_of_forall₂ (Grounding.except_mapM_eq_ok hes) he'
    exact ih e he hmap b hb

/-! ## Values -/

section Values

variable [Arithmetic ν]

/-- The value of an expression, given those of its leaves. There is none if a leaf has none or a
divisor is zero. -/
def value? (leaf : α → Option ν) (e : Expression α) : Option ν :=
  e.foldM leaf fun op _ values => op.value? values

@[simp] theorem value?_atom (leaf : α → Option ν) (a : α) : (atom a).value? leaf = leaf a := rfl

theorem value?_node (leaf : α → Option ν) (op : Operation) (es : List (Expression α)) :
    (node op es).value? leaf = es.mapM (value? leaf) >>= op.value? :=
  foldM_node leaf _ op es

/-- Operands that have the same values one by one have the same values. -/
theorem mapM_value?_congr {leaf : α → Option ν} {leaf' : β → Option ν} {es : List (Expression α)}
    {es' : List (Expression β)}
    (h : List.Forall₂ (fun e e' => e'.value? leaf' = e.value? leaf) es es') :
    es'.mapM (value? leaf') = es.mapM (value? leaf) := by
  induction h with
  | nil => rfl
  | cons hhead _ ih => rw [List.mapM_cons, List.mapM_cons, hhead, ih]

theorem mapM_value?_eq_some {leaf : α → Option ν} {es : List (Expression α)} {values : List ν}
    (h : List.Forall₂ (fun e x => e.value? leaf = some x) es values) :
    es.mapM (value? leaf) = some values := by
  induction h with
  | nil => rfl
  | cons hhead _ ih =>
    rw [List.mapM_cons, hhead, ih]
    rfl

theorem value?_node_congr {leaf : α → Option ν} {leaf' : β → Option ν} (op : Operation)
    {es : List (Expression α)} {es' : List (Expression β)}
    (h : List.Forall₂ (fun e e' => e'.value? leaf' = e.value? leaf) es es') :
    (node op es').value? leaf' = (node op es).value? leaf := by
  rw [value?_node, value?_node, mapM_value?_congr h]

theorem mapM_eq_some_mono {f g : α → Option β} {as : List α}
    (h : ∀ a ∈ as, ∀ b, f a = some b → g a = some b) {bs : List β} (hbs : as.mapM f = some bs) :
    as.mapM g = some bs := by
  induction as generalizing bs with
  | nil => exact hbs
  | cons a as ih =>
    obtain ⟨ha, has⟩ := List.forall_mem_cons.mp h
    rw [List.mapM_cons] at hbs ⊢
    obtain ⟨b, hb, hbs⟩ := Option.bind_eq_some_iff.mp hbs
    obtain ⟨cs, hcs, hbs⟩ := Option.bind_eq_some_iff.mp hbs
    rw [ha b hb, ih has hcs]
    exact hbs

/-- If more is known about the leaves, what is known about the value remains. -/
theorem value?_mono {leaf leaf' : α → Option ν} (hleaf : ∀ a x, leaf a = some x → leaf' a = some x)
    {e : Expression α} {x : ν} (h : e.value? leaf = some x) : e.value? leaf' = some x := by
  induction e using operandsInduction generalizing x with
  | atom a => exact hleaf a x h
  | node op es ih =>
    rw [value?_node] at h ⊢
    obtain ⟨values, hvalues, hop⟩ := Option.bind_eq_some_iff.mp h
    rw [mapM_eq_some_mono (fun e he x hx => ih e he hx) hvalues]
    exact hop

/-- Replacing leaves by leaves with the same values keeps the value. -/
theorem value?_of_mapM {ε : Type} {f : α → Except ε β} {leaf : α → Option ν} {leaf' : β → Option ν}
    (hleaf : ∀ a b, f a = .ok b → leaf' b = leaf a) {e : Expression α} {e' : Expression β}
    (h : e.mapM f = .ok e') : e'.value? leaf' = e.value? leaf := by
  induction e using operandsInduction generalizing e' with
  | atom a =>
    rw [mapM_atom, map_eq_pure_bind, Grounding.except_bind_eq_ok] at h
    obtain ⟨b, hb, h⟩ := h
    cases h
    exact hleaf a b hb
  | node op es ih =>
    rw [mapM_node, Grounding.except_bind_eq_ok] at h
    obtain ⟨es', hes, h⟩ := h
    cases h
    refine value?_node_congr op ?_
    refine ((List.forall₂_and_left _ _).mpr ⟨ih, Grounding.except_mapM_eq_ok hes⟩).imp ?_
    exact fun e e' ⟨ih, he⟩ => ih he

theorem mapM_congr {m : Type → Type} [Monad m] [LawfulMonad m] {f g : α → m β} {as : List α}
    (h : ∀ a ∈ as, f a = g a) : as.mapM f = as.mapM g := by
  induction as with
  | nil => rfl
  | cons a as ih =>
    obtain ⟨ha, has⟩ := List.forall_mem_cons.mp h
    rw [List.mapM_cons, List.mapM_cons, ha, ih has]

/-- An operation that is evaluated has the value of the operation. -/
theorem toOption_combine (leaf : β → String) (op : Operation) (es : List (Expression β))
    (values : List ν) : (combine leaf op es values).toOption = op.value? values := by
  unfold combine
  split
  next h => exact h.symm
  next h => exact h.symm

theorem toOption_mapM {ε : Type} (f : α → Except ε β) (as : List α) :
    (as.mapM f).toOption = as.mapM fun a => (f a).toOption := by
  induction as with
  | nil => rfl
  | cons a as ih =>
    rw [List.mapM_cons, List.mapM_cons, ← ih]
    cases f a with
    | error e => rfl
    | ok b => cases as.mapM f <;> rfl

/-- Evaluation with errors computes the value. -/
theorem toOption_foldM {f : α → Except Error ν} (form : α → String) (e : Expression α) :
    (e.foldM f (combine form)).toOption = e.value? fun a => (f a).toOption := by
  induction e using operandsInduction with
  | atom a => rfl
  | node op es ih =>
    rw [foldM_node, value?_node, ← mapM_congr ih, ← toOption_mapM]
    cases es.mapM (foldM f (combine form)) with
    | error e => rfl
    | ok values => exact toOption_combine form op es values

end Values

end Expression

namespace Grounded

open Expression

/-- Evaluation without a state computes the value for leaves that are known. -/
theorem value?_of_evaluate {duration : Option Float} {e : Expression Quantity} {x : Float}
    (h : evaluate duration e = .ok (some x)) : e.value? (Quantity.value? duration) = some x := by
  unfold evaluate at h
  induction e using operandsInduction generalizing x with
  | atom q => exact Except.ok.inj h
  | node op es ih =>
    rw [foldM_node] at h
    obtain ⟨values, hvalues, h⟩ := residue_bind_eq_some.mp h
    -- the operands have values, so the operation is applied to these
    have hall := (List.forall₂_and_left _ _).mpr ⟨ih, residue_mapM_eq_some hvalues⟩
    have hoperands := mapM_value?_eq_some (hall.imp fun e x ⟨ih, he⟩ => ih he)
    rw [value?_node, hoperands, Option.bind_eq_bind, Option.bind_some]
    rw [← toOption_combine Quantity.form op es values]
    obtain ⟨y, hy, h⟩ := Grounding.except_bind_eq_ok.mp h
    cases h
    rw [hy]
    rfl

end Grounded

end TemporalPlanning
