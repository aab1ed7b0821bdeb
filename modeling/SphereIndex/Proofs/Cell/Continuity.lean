import SphereIndex.Proofs.Cell.FacePath

/-!
# The curve is continuous

Consecutive cells of a level share a side.  Between two children of one cell this can be read off the
table of the curve.  In general the paths of the two cells agree up to some digit, and from there on
the one runs along the last children and the other along the first ones: the curve leaves a child in
one of its corners and enters the next child in the corner beside it.
-/

namespace SphereIndex

/-! ## 1. Consecutive paths -/

theorem pathNumber_replicate (n : Nat) (d : Digit) :
    3 * pathNumber (List.replicate n d) + d.val = d.val * 4 ^ n := by
  induction n with
  | zero => exact (Nat.mul_one _).symm ▸ Nat.zero_add _
  | succ n ih =>
    rw [List.replicate_succ, pathNumber_cons, List.length_replicate, Nat.pow_succ]
    linarith

/-- **Adding one to a path** changes a later digit, or the first one; then all digits after it go
from the last to the first. -/
theorem carry {d e : Digit} {p q : List Digit} (hl : p.length = q.length)
    (h : pathNumber (d :: p) + 1 = pathNumber (e :: q)) :
    d = e ∧ pathNumber p + 1 = pathNumber q ∨
      d.val + 1 = e.val ∧ p = List.replicate p.length 3 ∧ q = List.replicate q.length 0 := by
  have hp := pathNumber_lt p
  have hq := pathNumber_lt q
  rw [pathNumber_cons, pathNumber_cons, hl] at h
  rw [hl] at hp
  rcases Nat.lt_trichotomy d.val e.val with hlt | heq | hgt
  · -- The rest of the second path can only be the least one, and that of the first the greatest.
    have hstep := Nat.mul_le_mul_right (4 ^ q.length) (show d.val + 1 ≤ e.val from hlt)
    rw [Nat.add_one_mul] at hstep
    have hnext : d.val + 1 = e.val := by
      refine Nat.le_antisymm hlt (Nat.not_lt.1 fun hlt' => ?_)
      have htwo := Nat.mul_le_mul_right (4 ^ q.length) (show d.val + 2 ≤ e.val from hlt')
      rw [Nat.add_mul] at htwo
      omega
    refine .inr ⟨hnext, eq_of_pathNumber_eq (List.length_replicate ..).symm ?_,
      eq_of_pathNumber_eq (List.length_replicate ..).symm ?_⟩
    · have hlast := pathNumber_replicate p.length 3
      change 3 * _ + 3 = 3 * _ at hlast
      rw [hl] at hlast ⊢
      omega
    · have hfirst := pathNumber_replicate q.length 0
      change 3 * _ + 0 = 0 * _ at hfirst
      omega
  · rw [heq] at h
    exact .inl ⟨Fin.ext heq, by omega⟩
  · have hstep := Nat.mul_le_mul_right (4 ^ q.length) (show e.val + 1 ≤ d.val from hgt)
    rw [Nat.add_one_mul] at hstep
    omega

/-! ## 2. Corners -/

namespace Orientation

/-- The axis along which the curve goes from the child with a digit to the next one. -/
def stepAxis (o : Orientation) (d : Digit) : Axis :=
  let middle : Axis := if o.swapped then .v else .u
  if d.val = 1 then middle else middle.other

/-- The curve enters a cell in the corner in which it enters the first child. -/
theorem quadrant_child_zero (o : Orientation) : (o.child 0).quadrant 0 = o.quadrant 0 := by
  rcases o with ⟨_ | _, _ | _⟩ <;> rfl

/-- The curve leaves a cell in the corner in which it leaves the last child. -/
theorem quadrant_child_three (o : Orientation) : (o.child 3).quadrant 3 = o.quadrant 3 := by
  rcases o with ⟨_ | _, _ | _⟩ <;> rfl

/-- **Two children in a row meet.**  They are the two halves along one axis; there the curve leaves
the first one on the side of the second, and enters the second one on the side of the first. -/
theorem children_meet (o : Orientation) {d e : Digit} (h : d.val + 1 = e.val) :
    (o.quadrant e).along (o.stepAxis d) = !(o.quadrant d).along (o.stepAxis d) ∧
    ((o.child d).quadrant 3).along (o.stepAxis d) = (o.quadrant e).along (o.stepAxis d) ∧
    ((o.child e).quadrant 0).along (o.stepAxis d) = (o.quadrant d).along (o.stepAxis d) ∧
    (o.quadrant e).along (o.stepAxis d).other = (o.quadrant d).along (o.stepAxis d).other ∧
    ((o.child e).quadrant 0).along (o.stepAxis d).other =
      ((o.child d).quadrant 3).along (o.stepAxis d).other := by
  revert h
  rcases o with ⟨_ | _, _ | _⟩ <;> revert d e <;> decide

end Orientation

namespace Spot

/-- The places are those of two cells that share a side. -/
def Beside (s t : Spot) : Prop := ∃ axis : Axis, t.along axis.other = s.along axis.other ∧
  (t.along axis = s.along axis + 1 ∨ s.along axis = t.along axis + 1)

/-- **The corner of a cell** in which the first children, or the last ones, come together. -/
theorem follow_replicate_along {d : Digit} (hd : ∀ o : Orientation,
    (o.child d).quadrant d = o.quadrant d) (s : Spot) (n : Nat) (axis : Axis) :
    (s.follow (List.replicate n d)).along axis + ((s.orientation.quadrant d).along axis).toNat =
      (s.along axis + ((s.orientation.quadrant d).along axis).toNat) * 2 ^ n := by
  induction n generalizing s with
  | zero => exact (Nat.mul_one _).symm
  | succ n ih =>
    have hdown : (s.down d).orientation.quadrant d = s.orientation.quadrant d := hd s.orientation
    have hrest := ih (s.down d)
    rw [hdown, down_along] at hrest
    rw [List.replicate_succ, follow_cons, hrest, Nat.pow_succ]
    ring

/-- Where the curve leaves one child it enters the next one. -/
theorem corners_beside (s : Spot) {d e : Digit} (h : d.val + 1 = e.val) (n : Nat) :
    ((s.down d).follow (List.replicate n 3)).Beside ((s.down e).follow (List.replicate n 0)) := by
  obtain ⟨hflip, hexit, hentry, hsame, hacross⟩ := s.orientation.children_meet h
  have hlast := follow_replicate_along Orientation.quadrant_child_three (s.down d) n
  have hfirst := follow_replicate_along Orientation.quadrant_child_zero (s.down e) n
  simp only [down_along] at hlast hfirst
  change ∀ axis, _ + (((s.orientation.child d).quadrant 3).along axis).toNat =
    (_ + (((s.orientation.child d).quadrant 3).along axis).toNat) * _ at hlast
  change ∀ axis, _ + (((s.orientation.child e).quadrant 0).along axis).toNat =
    (_ + (((s.orientation.child e).quadrant 0).along axis).toNat) * _ at hfirst
  refine ⟨s.orientation.stepAxis d, ?_, ?_⟩
  · have hlast := hlast (s.orientation.stepAxis d).other
    have hfirst := hfirst (s.orientation.stepAxis d).other
    rw [hsame, hacross, ← hlast] at hfirst
    exact Nat.add_right_cancel hfirst
  · -- Both corners lie at the line between the two children, on its two sides.
    have hlast := hlast (s.orientation.stepAxis d)
    have hfirst := hfirst (s.orientation.stepAxis d)
    rw [hexit, hflip] at hlast
    rw [hentry, hflip] at hfirst
    generalize (s.orientation.quadrant d).along (s.orientation.stepAxis d) = b at hlast hfirst
    cases b with
    | false => exact .inl (hfirst.trans hlast.symm)
    | true => exact .inr (hlast.trans hfirst.symm)

/-- **Consecutive paths lead to places beside each other.** -/
theorem follow_beside (s : Spot) {p q : List Digit} (hl : p.length = q.length)
    (h : pathNumber p + 1 = pathNumber q) : (s.follow p).Beside (s.follow q) := by
  induction p generalizing s q with
  | nil =>
    obtain rfl := List.length_eq_zero_iff.1 hl.symm
    exact absurd h (Nat.succ_ne_self _)
  | cons d p ih =>
    obtain ⟨e, q, rfl⟩ := List.exists_cons_of_length_eq_add_one hl.symm
    have hrestLength : p.length = q.length := Nat.succ.inj hl
    rw [follow_cons, follow_cons]
    rcases carry hrestLength h with ⟨rfl, hrest⟩ | ⟨hstep, hp, hq⟩
    · exact ih (s.down d) hrestLength hrest
    · rw [hp, hq, hrestLength]
      exact s.corners_beside hstep q.length

end Spot

/-! ## 3. Consecutive cells -/

namespace CellId

/-- The lowest column or row of the cell of a level around `c`: the coordinates of `c` with the bits
inside that cell cleared. -/
def lowerCorner (level : Nat) (c : CellId) : Axis → Nat
  | .u => (masked level c.coords.i).toNat
  | .v => (masked level c.coords.j).toNat

namespace Numbered

variable {c : CellId} {k m : Nat}

theorem lowerCorner_eq (h : c.Numbered k m) (axis : Axis) :
    c.lowerCorner c.level axis = c.spot.along axis * sizeAt c.level := by
  have hlevel := h.isValid.level_le
  obtain ⟨hi, hj⟩ := h.coords_along
  obtain ⟨hilt, hjlt⟩ := h.coords_lt
  rw [← h.sizeAt_level] at hi hj
  cases axis with
  | u => exact (masked_toNat hlevel hilt).trans (congrArg (· * _) hi)
  | v => exact (masked_toNat hlevel hjlt).trans (congrArg (· * _) hj)

/-- The cell after the last one of the last face has no face. -/
theorem next_of_faceNumber_eq (h : c.Numbered k m) (hf : c.next.faceNumber = c.faceNumber) :
    c.next.Numbered k (m + 1) := by
  have hface := h.isValid.1
  rw [← hf, faceNumber, UInt64.toNat_shiftRight, h.word_next, Nat.shiftRight_eq_div_pow] at hface
  change (2 * (m + 1) + 1) * 4 ^ k / 2 ^ 61 < 6 at hface
  have hlt : (2 * (m + 1) + 1) * 4 ^ k < 12 * 4 ^ (30 - k) * 4 ^ k := by
    rw [Nat.mul_assoc, ← Nat.pow_add, Nat.sub_add_cancel h.height_le]
    exact Nat.lt_of_lt_of_eq ((Nat.div_lt_iff_lt_mul (by decide)).1 hface) (by decide)
  have hnumber := Nat.lt_of_mul_lt_mul_right hlt
  exact h.next (by omega)

/-- Consecutive cells of a face have consecutive paths. -/
theorem pathNumber_next (h : c.Numbered k m) (hf : c.next.faceNumber = c.faceNumber) :
    c.path.length = c.next.path.length ∧ pathNumber c.path + 1 = pathNumber c.next.path := by
  have hnext := h.next_of_faceNumber_eq hf
  rw [h.faceNumber_eq, hnext.faceNumber_eq] at hf
  have hdivision := Nat.div_add_mod m (4 ^ (30 - k))
  have hdivision' := Nat.div_add_mod (m + 1) (4 ^ (30 - k))
  rw [hf] at hdivision'
  rw [h.length_path, hnext.length_path, h.path_eq, hnext.path_eq, pathNumber_lastDigits,
    pathNumber_lastDigits]
  exact ⟨rfl, by omega⟩

theorem spot_beside_next (h : c.Numbered k m) (hf : c.next.faceNumber = c.faceNumber) :
    c.spot.Beside c.next.spot := by
  obtain ⟨hlength, hnumber⟩ := h.pathNumber_next hf
  unfold spot
  rw [hf]
  exact Spot.follow_beside _ hlength hnumber

end Numbered

/-- **The curve is continuous.**  If the next cell of the same level lies on the same face, its square
and that of the cell share a side: their lower corners are one side apart along one axis and agree
along the other. -/
theorem next_shares_side {c : CellId} (hc : c.IsValid) (hf : c.next.faceNumber = c.faceNumber) :
    c.next.IsValid ∧ c.next.level = c.level ∧
    ∃ axis : Axis,
      (c.next.lowerCorner c.level axis = c.lowerCorner c.level axis + sizeAt c.level ∨
        c.lowerCorner c.level axis = c.next.lowerCorner c.level axis + sizeAt c.level) ∧
      c.next.lowerCorner c.level axis.other = c.lowerCorner c.level axis.other := by
  obtain ⟨k, m, hm⟩ := hc.exists_numbered
  have hnext := hm.next_of_faceNumber_eq hf
  have hlevel : c.next.level = c.level := hnext.level_eq.trans hm.level_eq.symm
  have hcorner := hnext.lowerCorner_eq
  rw [hlevel] at hcorner
  obtain ⟨axis, hother, hstep⟩ := hm.spot_beside_next hf
  refine ⟨hnext.isValid, hlevel, axis, ?_, ?_⟩
  · rw [hcorner, hm.lowerCorner_eq, ← Nat.add_one_mul, ← Nat.add_one_mul]
    exact hstep.imp (congrArg (· * _)) (congrArg (· * _))
  · rw [hcorner, hm.lowerCorner_eq, hother]

/-- From the last cell below one quarter of a face to the first one below the next quarter, three
levels further down. -/
theorem next_shares_side_across_quarters :
    (ofPath .yPos [1, 3, 3, 3]).IsValid ∧
    (ofPath .yPos [1, 3, 3, 3]).next.faceNumber = (ofPath .yPos [1, 3, 3, 3]).faceNumber ∧
    (ofPath .yPos [1, 3, 3, 3]).next = ofPath .yPos [2, 0, 0, 0] ∧
    ∃ axis : Axis,
      ((ofPath .yPos [2, 0, 0, 0]).lowerCorner 4 axis =
          (ofPath .yPos [1, 3, 3, 3]).lowerCorner 4 axis + 2 ^ 26 ∨
        (ofPath .yPos [1, 3, 3, 3]).lowerCorner 4 axis =
          (ofPath .yPos [2, 0, 0, 0]).lowerCorner 4 axis + 2 ^ 26) ∧
      (ofPath .yPos [2, 0, 0, 0]).lowerCorner 4 axis.other =
        (ofPath .yPos [1, 3, 3, 3]).lowerCorner 4 axis.other := by
  have hvalid : (ofPath .yPos [1, 3, 3, 3]).IsValid := by decide +kernel
  have hface : (ofPath .yPos [1, 3, 3, 3]).next.faceNumber =
      (ofPath .yPos [1, 3, 3, 3]).faceNumber := by decide +kernel
  have hnext : (ofPath .yPos [1, 3, 3, 3]).next = ofPath .yPos [2, 0, 0, 0] := by decide +kernel
  have hlevel : (ofPath .yPos [1, 3, 3, 3]).level = 4 := by decide +kernel
  obtain ⟨-, -, hside⟩ := next_shares_side hvalid hface
  rw [hnext, hlevel] at hside
  exact ⟨hvalid, hface, hnext, hside⟩

end CellId

end SphereIndex
