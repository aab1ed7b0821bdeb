import Mathlib.Tactic.ByContra
import SphereIndex.Scalar

/-!
# The order of rounded numbers

Where results are rounded, little of arithmetic is left, and some values are no numbers at all.  What
stays are the comparisons: the numbers are ordered, and everything else compares as false.  With them
alone the choice of the smaller and the larger value can be reasoned about.
-/

namespace SphereIndex.Scalar

variable {α : Type} [Scalar α]

/-- What is not a number is not even as large as itself. -/
def IsNumber (x : α) : Prop := x ≤ x

instance (x : α) : Decidable (IsNumber x) := inferInstanceAs (Decidable (x ≤ x))

/-- **An arithmetic whose numbers are ordered**, such as that of doubles. -/
class Ordered (α : Type) [Scalar α] : Prop where
  isNumber_of_le : ∀ {x y : α}, x ≤ y → IsNumber x ∧ IsNumber y
  le_trans : ∀ {x y z : α}, x ≤ y → y ≤ z → x ≤ z
  le_total : ∀ {x y : α}, IsNumber x → IsNumber y → x ≤ y ∨ y ≤ x
  lt_iff : ∀ {x y : α}, x < y ↔ x ≤ y ∧ ¬y ≤ x
  beq_iff : ∀ {x y : α}, (x == y) = true ↔ x ≤ y ∧ y ≤ x
  /-- A difference is not rounded to zero, unless there is none. -/
  beq_of_sub_beq_zero : ∀ {x y : α}, (x - y == 0) = true → (x == y) = true

namespace Ordered

variable [Ordered α] {x y : α}

theorem le_of_lt (h : x < y) : x ≤ y := (lt_iff.1 h).1

theorem lt_of_le_of_lt {z : α} (h : x ≤ y) (h' : y < z) : x < z := by
  rw [lt_iff] at h' ⊢
  exact ⟨le_trans h h'.1, fun hzx => h'.2 (le_trans hzx h)⟩

theorem lt_of_lt_of_le {z : α} (h : x < y) (h' : y ≤ z) : x < z := by
  rw [lt_iff] at h ⊢
  exact ⟨le_trans h.1 h', fun hzx => h.2 (le_trans h' hzx)⟩

theorem not_lt (hx : IsNumber x) (hy : IsNumber y) : ¬x < y ↔ y ≤ x := by
  rw [lt_iff]
  constructor
  · intro h
    by_contra hyx
    rcases le_total hx hy with hxy | hyx'
    · exact h ⟨hxy, hyx⟩
    · exact hyx hyx'
  · intro h hlt
    exact hlt.2 h

theorem not_le (hx : IsNumber x) (hy : IsNumber y) : ¬x ≤ y ↔ y < x := by
  rw [← not_lt hy hx, not_not]

theorem min_le_left (hx : IsNumber x) : min x y ≤ x := by
  unfold min
  split
  · rename_i h
    exact le_of_lt h
  · rw [if_pos (beq_iff.2 ⟨hx, hx⟩)]
    exact hx

theorem min_le_right (hx : IsNumber x) (hy : IsNumber y) : min x y ≤ y := by
  unfold min
  split
  · exact hy
  · rename_i h
    rw [if_pos (beq_iff.2 ⟨hx, hx⟩)]
    exact (not_lt hy hx).1 h

theorem le_min {z : α} (hx : z ≤ x) (hy : z ≤ y) : z ≤ min x y := by
  have hnumber := (isNumber_of_le hx).2
  unfold min
  split
  · exact hy
  · rw [if_pos (beq_iff.2 ⟨hnumber, hnumber⟩)]
    exact hx

theorem le_max_left (hx : IsNumber x) : x ≤ max x y := by
  unfold max
  split
  · rename_i h
    exact le_of_lt h
  · rw [if_pos (beq_iff.2 ⟨hx, hx⟩)]
    exact hx

theorem le_max_right (hx : IsNumber x) (hy : IsNumber y) : y ≤ max x y := by
  unfold max
  split
  · exact hy
  · rename_i h
    rw [if_pos (beq_iff.2 ⟨hx, hx⟩)]
    exact (not_lt hx hy).1 h

theorem max_le {z : α} (hx : x ≤ z) (hy : y ≤ z) : max x y ≤ z := by
  have hnumber := (isNumber_of_le hx).1
  unfold max
  split
  · exact hy
  · rw [if_pos (beq_iff.2 ⟨hnumber, hnumber⟩)]
    exact hx

end Ordered

end SphereIndex.Scalar
