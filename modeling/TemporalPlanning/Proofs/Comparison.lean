import TemporalPlanning.Arithmetic.Operation
/-!
Comparisons of floats.

A comparison of two floats fails exactly when its negation holds, unless one of them is no number:
then neither of two opposite orders holds. Equality of floats is symmetric and transitive, although
it identifies the two zeros and is not reflexive.
-/
set_option autoImplicit false

namespace TemporalPlanning

open Float.Model (UnpackedFloat)

section Unpacked

/-- Mantissas and exponents compare the other way around if they change places. -/
theorem compare_magnitude_swap (e e' : Int) (m m' : Nat) :
    ((compare e e').then (compare m m')).swap = (compare e' e).then (compare m' m) := by
  rw [Ordering.swap_then, ← Std.OrientedOrd.eq_swap, ← Std.OrientedOrd.eq_swap]

theorem compare_sign_swap (s s' : UnpackedFloat.Sign) :
    compare s' s = (compare s s').swap := by
  cases s <;> cases s' <;> rfl

/-- Two floats compare the other way around if they change places. -/
theorem compare_swap (a b : UnpackedFloat) : b.compare a = (a.compare b).map Ordering.swap := by
  cases a with
  | notANumber => cases b <;> rfl
  | infinity s =>
    cases b with
    | infinity s' => exact congrArg some (compare_sign_swap s s')
    | _ => cases s <;> rfl
  | zero s =>
    cases b with
    | infinity s' => cases s' <;> rfl
    | finite s' => cases s' <;> rfl
    | _ => rfl
  | finite s m e =>
    cases b with
    | notANumber => cases s <;> rfl
    | infinity s' => cases s <;> cases s' <;> rfl
    | zero s' => cases s <;> rfl
    | finite s' m' e' =>
      -- of two negative numbers the one with the larger magnitude is less
      have hswap := (compare_magnitude_swap e e' m m').symm
      cases s <;> cases s'
      · exact congrArg some (congrArg Ordering.swap hswap)
      · rfl
      · rfl
      · exact congrArg some hswap

/-- Floats that are numbers are ordered. -/
theorem isSome_compare {a b : UnpackedFloat} (ha : a.isNaN = false) (hb : b.isNaN = false) :
    (a.compare b).isSome = true := by
  cases a with
  | notANumber => cases ha
  | infinity s =>
    cases b with
    | notANumber => cases hb
    | infinity s' => rfl
    | _ => cases s <;> rfl
  | zero s =>
    cases b with
    | notANumber => cases hb
    | infinity s' => cases s' <;> rfl
    | finite s' => cases s' <;> rfl
    | zero s' => rfl
  | finite s m e =>
    cases b with
    | notANumber => cases hb
    | infinity s' => cases s <;> cases s' <;> rfl
    | zero s' => cases s <;> rfl
    | finite s' m' e' => cases s <;> cases s' <;> rfl

theorem eq_of_compare_magnitude {e e' : Int} {m m' : Nat}
    (h : (compare e e').then (compare m m') = .eq) : e = e' ∧ m = m' := by
  obtain ⟨he, hm⟩ := Ordering.then_eq_eq.mp h
  exact ⟨Std.LawfulEqCmp.eq_of_compare he, Std.LawfulEqCmp.eq_of_compare hm⟩

/-- Floats that compare as equal are the same, unless both are zero. -/
theorem eq_or_zero_of_compare {a b : UnpackedFloat} (h : a.compare b = some .eq) :
    a = b ∨ ((∃ s, a = .zero s) ∧ ∃ s, b = .zero s) := by
  cases a with
  | notANumber => cases b <;> cases h
  | infinity s =>
    cases b with
    | infinity s' => cases s <;> cases s' <;> first | exact Or.inl rfl | cases h
    | _ => cases s <;> cases h
  | zero s =>
    cases b with
    | notANumber => cases h
    | infinity s' => cases s' <;> cases h
    | finite s' => cases s' <;> cases h
    | zero s' => exact Or.inr ⟨⟨s, rfl⟩, s', rfl⟩
  | finite s m e hm =>
    cases b with
    | notANumber => cases s <;> cases h
    | infinity s' => cases s <;> cases s' <;> cases h
    | zero s' => cases s <;> cases h
    | finite s' m' e' hm' =>
      -- finite numbers of one sign are equal if their magnitudes are
      cases s <;> cases s'
      · obtain ⟨rfl, rfl⟩ :=
          eq_of_compare_magnitude (Ordering.swap_eq_eq.mp (Option.some.inj h))
        exact Or.inl rfl
      · cases h
      · cases h
      · obtain ⟨rfl, rfl⟩ := eq_of_compare_magnitude (Option.some.inj h)
        exact Or.inl rfl

theorem beq_eq_compare (l r : Float) :
    (l == r) = (l.toModel.unpack.compare r.toModel.unpack == some .eq) := by
  show l.beq r = _
  rw [Float.beq]
  rfl

theorem lt_eq_compare (l r : Float) :
    Arithmetic.lt l r = (l.toModel.unpack.compare r.toModel.unpack == some .lt) := by
  show decide (l.lt r = true) = _
  rw [Bool.decide_eq_true, Float.lt]
  exact Bool.decide_eq_true

theorem le_eq_compare (l r : Float) :
    Arithmetic.le l r = (l.toModel.unpack.compare r.toModel.unpack).any Ordering.isLE := by
  show decide (l.le r = true) = _
  rw [Bool.decide_eq_true, Float.le]
  exact Bool.decide_eq_true

end Unpacked

instance partialEquivBEqFloat : PartialEquivBEq Float where
  symm {l r} h := by
    rw [beq_eq_compare, beq_iff_eq] at h ⊢
    rw [compare_swap, h]
    rfl
  trans {a b c} hab hbc := by
    rw [beq_eq_compare, beq_iff_eq] at hab hbc ⊢
    rcases eq_or_zero_of_compare hab with heq | ⟨⟨s, ha⟩, s', hb⟩
    · rw [heq]
      exact hbc
    · rcases eq_or_zero_of_compare hbc with heq | ⟨-, s'', hc⟩
      · rw [← heq]
        exact hab
      · rw [ha, hc]
        rfl

theorem not_lt_of_beq {l r : Float} (h : (l == r) = true) : ¬l < r := by
  rw [beq_eq_compare, beq_iff_eq] at h
  have hlt := lt_eq_compare l r
  rw [h] at hlt
  exact of_decide_eq_false hlt

/-- Of two numbers, the first is less than the second unless the second is at most the first. -/
theorem lt_eq_not_le {l r : Float} (hl : l.isNaN = false) (hr : r.isNaN = false) :
    Arithmetic.lt l r = !Arithmetic.le r l := by
  obtain ⟨o, ho⟩ := Option.isSome_iff_exists.mp (isSome_compare hl hr)
  rw [lt_eq_compare, le_eq_compare, compare_swap l.toModel.unpack r.toModel.unpack, ho]
  cases o <;> rfl

/-- **The negation of a comparison of numbers** holds exactly when the comparison does not. -/
theorem Comparator.holds_negated {l r : Float} (hl : l.isNaN = false) (hr : r.isNaN = false)
    (c : Comparator) : c.negated.holds l r = !c.holds l r := by
  cases c with
  | eq => rfl
  | neq => exact (Bool.not_not _).symm
  | less =>
    show Arithmetic.le r l = !Arithmetic.lt l r
    rw [lt_eq_not_le hl hr, Bool.not_not]
  | lessEq => exact lt_eq_not_le hr hl
  | greater =>
    show Arithmetic.le l r = !Arithmetic.lt r l
    rw [lt_eq_not_le hr hl, Bool.not_not]
  | greaterEq => exact lt_eq_not_le hl hr

end TemporalPlanning
