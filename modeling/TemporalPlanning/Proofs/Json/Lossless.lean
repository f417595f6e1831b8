import TemporalPlanning.Arithmetic.Expression
import TemporalPlanning.Proofs.Expression
/-!
Reading what has been written.

A document cannot hold everything: a float that is not finite is written as `null`, and positions,
counts and levels are machine words, so no larger number is read. `Lossless` says of a document form
which values fit into it, and that reading gives these values back. It is put together like the
document forms themselves: a record fits if its fields do, a choice if its contents do, a sequence
if its items do. What is nested without bound is read with fuel, of which the depth of the document
is enough.
-/
set_option autoImplicit false

namespace TemporalPlanning

open Decimal

/-- A document form that gives back the values that fit into it. -/
class Lossless (α : Type) [Format α] where
  /-- Whether all floats in a value are finite, and all positions, counts and levels machine
  words. -/
  fits : α → Bool
  read?_write {x : α} : fits x = true → Format.read? (Format.write x) = some x

open Lossless

namespace Json

/-! ## Scalars and sequences -/

instance : Lossless Bool where
  fits _ := true
  read?_write _ := rfl

instance : Lossless String where
  fits _ := true
  read?_write _ := rfl

theorem natBelow?_natural {limit n : Nat} (h : n < limit) :
    natBelow? limit (.number (.natural n)) = some n :=
  if_pos h

instance : Lossless Nat where
  fits n := n < indexLimit
  read?_write h := natBelow?_natural (of_decide_eq_true h)

instance : Lossless Float where
  fits := isFinite
  read?_write {x} h := by
    show Format.read? (if isFinite x then Json.number (.real x) else .null) = some x
    rw [if_pos h]
    rfl

section Sequences

variable {α : Type}

theorem mapM_map_eq_some {β : Type} {read? : β → Option α} {write : α → β} {xs : List α}
    (h : ∀ x ∈ xs, read? (write x) = some x) : (xs.map write).mapM read? = some xs := by
  induction xs with
  | nil => rfl
  | cons x xs ih =>
    obtain ⟨hx, hxs⟩ := List.forall_mem_cons.mp h
    rw [List.map_cons, List.mapM_cons, hx, ih hxs]
    rfl

/-- A list is read back if its items are. -/
theorem read?_write_list [Format α] {xs : List α}
    (h : ∀ x ∈ xs, Format.read? (Format.write x) = some x) :
    Format.read? (Format.write xs) = some xs :=
  mapM_map_eq_some h

/-- An array is read back if its items are. -/
theorem read?_write_array [Format α] {xs : Array α}
    (h : ∀ x ∈ xs, Format.read? (Format.write x) = some x) :
    Format.read? (Format.write xs) = some xs := by
  have hlist : Format.read? (Format.write xs.toList) = some xs.toList :=
    read?_write_list fun x hx => h x (Array.mem_toList_iff.mp hx)
  show (Format.read? (Format.write xs.toList)).map List.toArray = some xs
  rw [hlist, Option.map_some, Array.toArray_toList]

instance [Format α] [Lossless α] : Lossless (List α) where
  fits xs := xs.all fits
  read?_write h := read?_write_list fun x hx => read?_write (List.all_eq_true.mp h x hx)

instance [Format α] [Lossless α] : Lossless (Array α) where
  fits xs := xs.all fits
  read?_write h := read?_write_array fun x hx => read?_write (Array.all_eq_true'.mp h x hx)

instance {β : Type} [Format α] [Format β] [Lossless α] [Lossless β] : Lossless (α × β) where
  fits p := fits p.1 && fits p.2
  read?_write {p} h := by
    obtain ⟨hfst, hsnd⟩ := Bool.and_eq_true_iff.mp h
    show (do return (← Format.read? (Format.write p.1), ← Format.read? (Format.write p.2))) = some p
    rw [read?_write hfst, read?_write hsnd]
    rfl

/-- An optional value is read back if it is and is not written like an absent one. -/
theorem read?_write_option [Format α] {x : Option α}
    (h : ∀ a ∈ x, Format.write a ≠ Json.null ∧ Format.read? (Format.write a) = some a) :
    Format.read? (Format.write x) = some x := by
  cases x with
  | none => rfl
  | some a =>
    obtain ⟨hne, hread⟩ := h a rfl
    show Format.read? (α := Option α) (Format.write a) = some (some a)
    generalize Format.write a = j at hne hread
    cases j with
    | null => exact absurd rfl hne
    | _ =>
      show (Format.read? _).map some = some (some a)
      rw [hread]
      rfl

end Sequences

/-! ## Records and choices -/

/-- A written record is read with its fields by name. -/
theorem record?_record {names : List String} {fields : List (String × Json)}
    (hnames : fields.map Prod.fst = names) (hnodup : names.Nodup) :
    (record fields).record? names = some ⟨false, fields⟩ := by
  have hknown : (fields.filter fun field => names.contains field.1) = fields :=
    List.filter_eq_self.mpr fun field hfield =>
      List.contains_iff_mem.mpr (hnames ▸ List.mem_map_of_mem hfield)
  have hwritten : (fields.map fun field => ((⟨field.1, false⟩ : Key), field.2)).map
      (fun member => (member.1.text, member.2)) = fields := by
    rw [List.map_map]
    exact List.map_id fields
  simp only [record, record?, hwritten, hknown, hnames]
  exact if_pos hnodup

/-- What a reader of records makes of a written record is what it makes of the fields. -/
theorem read_record {α : Type} {names : List String} {fields : List (String × Json)}
    {f : Record → Option α} {x : α} (hnames : fields.map Prod.fst = names) (hnodup : names.Nodup)
    (hfields : f ⟨false, fields⟩ = some x) : (record fields).record? names >>= f = some x := by
  rw [record?_record hnames hnodup]
  exact hfields

/-- What a reader of choices makes of an alternative is what it makes of the contents. -/
theorem read_choice {α : Type} {name : String} {contents : Json} {f : Choice → Option α} {x : α}
    (hcontents : f ⟨name, some contents⟩ = some x) :
    (record [(name, contents)]).choice? >>= f = some x := hcontents

section Fields

variable {isPositional : Bool} {fields : List (String × Json)} {name : String} {j : Json}

@[simp] theorem requiredBy_mk {α : Type} (read? : Json → Option α) :
    (⟨isPositional, fields⟩ : Record).requiredBy name read? = fields.lookup name >>= read? := rfl

variable {α : Type} [Format α]

@[simp] theorem required_mk :
    (⟨isPositional, fields⟩ : Record).required (α := α) name =
      fields.lookup name >>= Format.read? := rfl

theorem defaulted_mk {default : α} (h : fields.lookup name = some j) :
    (⟨isPositional, fields⟩ : Record).defaulted name default = Format.read? j := by
  rw [Record.defaulted, h]

theorem optional_mk (h : fields.lookup name = some j) :
    (⟨isPositional, fields⟩ : Record).optional (α := α) name = Format.read? j := by
  rw [Record.optional, h]

@[simp] theorem choice?_record (contents : Json) :
    (record [(name, contents)]).choice? = some ⟨name, some contents⟩ := rfl

@[simp] theorem choice?_chosen (x : α) :
    (chosen name x).choice? = some ⟨name, some (Format.write x)⟩ := rfl

@[simp] theorem choice?_string : (Json.string name).choice? = some ⟨name, none⟩ := rfl

@[simp] theorem isBare_mk_none : (⟨name, none⟩ : Choice).isBare = true := rfl

@[simp] theorem read?_mk (contents : Json) :
    (⟨name, some contents⟩ : Choice).read? (α := α) = Format.read? contents := rfl

@[simp] theorem record?_mk (contents : Json) (names : List String) :
    (⟨name, some contents⟩ : Choice).record? names = contents.record? names := rfl

end Fields

/-- The values of a type whose documents are their names are told apart by these. -/
theorem named?_string {α : Type} {all : List α} {name : α → String} (hall : ∀ x, x ∈ all)
    (hname : ∀ x y, name x = name y → x = y) (x : α) :
    named? all name (.string (name x)) = some x := by
  have hfind : ∀ l : List α, x ∈ l → l.find? (fun y => name y == name x) = some x := fun l hl => by
    cases hfound : l.find? (fun y => name y == name x) with
    | none => exact absurd (beq_self_eq_true (name x)) (List.find?_eq_none.mp hfound x hl)
    | some y =>
      have heq : (name y == name x) = true :=
        List.find?_some (p := fun y => name y == name x) hfound
      rw [hname y x (eq_of_beq heq)]
  exact hfind all (hall x)

/-! ## Depth -/

theorem depth_array (items : List Json) : (Json.array items).depth = depthOfItems items + 1 := by
  rw [depth]

@[simp] theorem depth_record_nil : (record []).depth = 1 := by
  rw [record, List.map_nil, depth, depthOfMembers]

@[simp] theorem depth_record_cons (name : String) (j : Json) (fields : List (String × Json)) :
    (record ((name, j) :: fields)).depth = max (j.depth + 1) (record fields).depth := by
  simp only [record, List.map_cons, depth, depthOfMembers]
  omega

theorem depth_le_depthOfItems {j : Json} {items : List Json} (h : j ∈ items) :
    j.depth ≤ depthOfItems items := by
  induction items with
  | nil => cases h
  | cons item items ih =>
    rw [depthOfItems]
    rcases List.mem_cons.mp h with rfl | h
    · exact Nat.le_max_left ..
    · exact Nat.le_trans (ih h) (Nat.le_max_right ..)

end Json

open Json

/-! ## Keywords -/

instance : Lossless Comparator where
  fits _ := true
  read?_write {x} _ := named?_string (by rintro ⟨⟩ <;> decide)
    (by rintro ⟨⟩ ⟨⟩ <;> simp [Comparator.name]) x

instance : Lossless Assignment where
  fits _ := true
  read?_write {x} _ := named?_string (by rintro ⟨⟩ <;> decide)
    (by rintro ⟨⟩ ⟨⟩ <;> simp [Assignment.name]) x

/-! ## Expressions -/

namespace Expression

variable {α : Type} [Format α]

/-- Leaves whose documents choose an alternative that is not called like an operation. -/
class Leaf (α : Type) [Format α] : Prop where
  exists_choice (a : α) :
    ∃ c, (Format.write a).choice? = some c ∧ Operation.ofName? c.name = none

theorem toJson_node (op : Operation) (es : List (Expression α)) :
    (node op es).toJson = .record [(op.name, .array (es.map toJson))] :=
  fold_node ..

theorem ofName?_name (op : Operation) : Operation.ofName? op.name = some op := by
  cases op <;> rfl

variable [Lossless α] [Leaf α]

theorem readWithin_toJson {e : Expression α} (h : ∀ a ∈ e.atoms, fits a = true) {fuel : Nat}
    (hfuel : e.toJson.depth < fuel) : readWithin fuel e.toJson = some e := by
  induction e using operandsInduction generalizing fuel with
  | atom a =>
    obtain ⟨fuel, rfl⟩ : ∃ n, fuel = n + 1 := ⟨fuel - 1, by omega⟩
    obtain ⟨c, hc, hname⟩ := Leaf.exists_choice a
    have ha : fits a = true := h a (List.mem_singleton.mpr rfl)
    show readWithin (fuel + 1) (Format.write a) = some (.atom a)
    simp only [readWithin, hc, Option.bind_eq_bind, Option.bind_some, hname, read?_write ha]
    rfl
  | node op es ih =>
    obtain ⟨fuel, rfl⟩ : ∃ n, fuel = n + 1 := ⟨fuel - 1, by omega⟩
    rw [toJson_node, depth_record_cons, depth_array, depth_record_nil] at hfuel
    have hoperands : ∀ e ∈ es, readWithin fuel e.toJson = some e := fun e he => by
      have hdepth := depth_le_depthOfItems (List.mem_map_of_mem (f := toJson) he)
      exact ih e he (fun a ha => h a (mem_atoms_node.mpr ⟨e, he, ha⟩)) (by omega)
    rw [toJson_node, readWithin]
    refine read_choice ?_
    simp only [ofName?_name, Option.bind_eq_bind, Option.bind_some, items?,
      mapM_map_eq_some hoperands]
    rfl

instance : Lossless (Expression α) where
  fits e := e.atoms.all fits
  read?_write h := readWithin_toJson (List.all_eq_true.mp h) (Nat.lt_succ_self _)

end Expression

end TemporalPlanning
