import SphereIndex.Cell.Padded
import SphereIndex.Proofs.Cell.Family

/-!
# Padded cells of the tree

A padded cell made from a valid id, or as a child of another one, knows its own level.  The
orientation picks a digit for every quadrant, and different quadrants get different digits, so the
four children of a padded cell are the four children of its id.
-/

namespace SphereIndex

namespace PaddedCell

variable {α : Type} [Scalar α]

/-- The id is valid, and the level is its level. -/
structure OnTree (c : PaddedCell α) : Prop where
  isValid : c.id.IsValid
  level_eq : c.level = c.id.level

theorem isFace_iff {id : CellId} (h : id.IsValid) : id.IsFace ↔ id.level = 0 := by
  obtain ⟨k, m, hc⟩ := h.exists_numbered
  have hk := hc.height_le
  have hmask : (CellId.markerAt 0 - 1).toNat = 2 ^ 60 - 1 := rfl
  have hpow : (2 * m + 1) * 4 ^ k = 2 ^ (2 * k) * (2 * m + 1) := by rw [four_pow_eq, Nat.mul_comm]
  unfold CellId.IsFace
  rw [hc.level_eq, ← UInt64.toNat_inj, UInt64.toNat_and, hmask, Nat.and_two_pow_sub_one_eq_mod,
    UInt64.toNat_zero, hc.word_eq, hpow, ← Nat.dvd_iff_mod_eq_zero]
  constructor
  · -- Below level 0 the word ends in fewer than 60 zeros, because its other factor is odd.
    intro hdvd
    by_contra hne
    have hsplit : 2 ^ 60 = 2 ^ (2 * k) * 2 ^ (60 - 2 * k) := by
      rw [← Nat.pow_add]
      congr 1
      omega
    rw [hsplit] at hdvd
    have hodd := Nat.dvd_of_mul_dvd_mul_left (Nat.two_pow_pos _) hdvd
    rw [show 60 - 2 * k = (60 - 2 * k - 1) + 1 by omega, Nat.pow_succ'] at hodd
    have := Nat.dvd_trans (Nat.dvd_mul_right _ _) hodd
    omega
  · intro h0
    obtain rfl : k = 30 := by omega
    exact Nat.dvd_mul_right _ _

theorem onTree_ofId {id : CellId} (h : id.IsValid) (padding : α) : (ofId id padding).OnTree := by
  unfold ofId
  split
  · rename_i hf
    exact ⟨h, ((isFace_iff h).1 hf).symm⟩
  · exact ⟨h, rfl⟩

theorem onTree_ofFace (f : Face) (padding : α) : (ofFace f padding).OnTree :=
  onTree_ofId (.ofFace f) padding

theorem id_ofId (id : CellId) (padding : α) : (ofId id padding).id = id := by
  unfold ofId
  split <;> rfl

theorem padding_ofId (id : CellId) (padding : α) : (ofId id padding).padding = padding := by
  unfold ofId
  split <;> rfl

theorem id_ofFace (f : Face) (padding : α) : (ofFace f padding).id = .ofFace f := id_ofId _ _

theorem padding_ofFace (f : Face) (padding : α) : (ofFace f padding).padding = padding :=
  padding_ofId _ _

theorem id_child (c : PaddedCell α) (q : Quadrant) :
    (c.child q).id = c.id.child (c.orientation.digit q) := rfl

theorem OnTree.child {c : PaddedCell α} (h : c.OnTree) (hl : c.level < maxLevel) (q : Quadrant) :
    (c.child q).OnTree := by
  rw [h.level_eq] at hl
  refine ⟨h.isValid.child hl _, ?_⟩
  rw [level_child, h.level_eq, id_child, h.isValid.level_child hl]

end PaddedCell

namespace Orientation

theorem digit_injective (o : Orientation) {q r : Quadrant} (h : o.digit q = o.digit r) : q = r := by
  rw [← o.quadrant_digit q, h, o.quadrant_digit]

end Orientation

end SphereIndex
