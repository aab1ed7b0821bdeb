import SphereIndex.Proofs.Double
import SphereIndex.Proofs.Planar.Bounds
import SphereIndex.Proofs.Query.Calls

/-!
# The walk under rounding

Whatever values the crossings are computed to have, the bounds that the walk hands down are parts of
the ones before, on the right side of the centers, and never empty.  Only the order of numbers is
used: a bound is split only strictly inside, so that the ends of the segment are apart there, and of
the two halves of a split one at most is split again.
-/

namespace SphereIndex

open Scalar

variable {α : Type} [Scalar α]

/-- Both coordinates are numbers. -/
def Vec2.IsNumber (p : Vec2 α) : Prop := ∀ axis, Scalar.IsNumber (p.along axis)

/-- Whether an interval lies in a half of the line cut at `x`, the cut included. -/
def Interval.Beside (a : Interval α) (upper : Bool) (x : α) : Prop :=
  if upper then x ≤ a.lo else a.hi ≤ x

namespace Walk

/-! ## 1. Assertions -/

section checked
variable (rule : Interpolation α) (a b : Vec2 α)

/-- **Splitting with all that it relies on**: there is a value to clamp to, the ends of the segment
are apart, neither divisor of the interpolation is zero, and both parts are non-empty parts of the
bound. -/
def splitBy? (bound : Rect α) (axis : Axis) (x : α) : Option (Rect α × Rect α) :=
  let p := a.along axis
  let q := b.along axis
  let parts := Planar.splitBy rule a b bound axis x
  if (bound.along axis.other).IsEmpty then none
  else if p == q ∨ q - p == 0 ∨ p - q == 0 then none
  else if parts.1.IsEmpty ∨ ¬bound.Includes parts.1 then none
  else if parts.2.IsEmpty ∨ ¬bound.Includes parts.2 then none
  else some parts

def column? (v : α) (i : Bool) (bound : Rect α) : Option (List (Quadrant × Rect α)) :=
  if bound.y.hi < v then some [(⟨i, false⟩, bound)]
  else if v ≤ bound.y.lo then some [(⟨i, true⟩, bound)]
  else
    (splitBy? rule a b bound .v v).map fun (lower, upper) => [(⟨i, false⟩, lower), (⟨i, true⟩, upper)]

/-- The quadrants that a part lies in, if no assertion fails on the way. -/
def quadrants? (center : Vec2 α) (bound : Rect α) : Option (List (Quadrant × Rect α)) :=
  if bound.x.hi < center.x then column? rule a b center.y false bound
  else if center.x ≤ bound.x.lo then column? rule a b center.y true bound
  else do
    let (left, right) ← splitBy? rule a b bound .u center.x
    if bound.y.hi < center.y then return [(⟨false, false⟩, left), (⟨true, false⟩, right)]
    else if center.y ≤ bound.y.lo then return [(⟨false, true⟩, left), (⟨true, true⟩, right)]
    else
      let lefts ← column? rule a b center.y false left
      let rights ← column? rule a b center.y true right
      return lefts ++ rights

end checked

variable {rule : Interpolation α} {cells : Array StoredCell} {a b center : Vec2 α}
  {bound r r' : Rect α} {root c : PaddedCell α} {n : Nat} {axis : Axis} {x : α}

/-! ## 2. Sides of a cut -/

theorem splitBy_beside (rule : Interpolation α) (a b : Vec2 α) (r : Rect α) (axis : Axis)
    (hx : Scalar.IsNumber x) :
    ((Planar.splitBy rule a b r axis x).1.along axis).Beside false x ∧
      ((Planar.splitBy rule a b r axis x).2.along axis).Beside true x := by
  obtain ⟨hlower, hupper⟩ := Planar.splitBy_along rule a b r axis x
  rw [hlower, hupper]
  exact ⟨hx, hx⟩

/-- **What is handed down to a quadrant**: a part of the bound, on the sides of the center that it is
for. -/
structure Fits (center : Vec2 α) (r : Rect α) (p : Quadrant × Rect α) : Prop where
  narrows : p.2.Narrows r
  beside : ∀ axis, (p.2.along axis).Beside (p.1.along axis) (center.along axis)

theorem Fits.of_axes {p : Quadrant × Rect α} (h : p.2.Narrows r) (hi : p.2.x.Beside p.1.i center.x)
    (hj : p.2.y.Beside p.1.j center.y) : Fits center r p := by
  refine ⟨h, fun axis => ?_⟩
  cases axis with
  | u => exact hi
  | v => exact hj

variable [Ordered α]

/-! ## 3. Splitting a bound -/

theorem beside_of_narrows {a b : Interval α} {upper : Bool} (h : a.Beside upper x)
    (hb : b.Narrows a) : b.Beside upper x := by
  cases upper with
  | false => exact Ordered.le_trans hb.le_hi h
  | true => exact Ordered.le_trans h hb.lo_le

/-- A bound that is split reaches beyond the cut. -/
theorem lo_lt_and_le_hi (hr : r.Narrows r) (hx : Scalar.IsNumber x) (h : ¬(r.along axis).hi < x)
    (h' : ¬x ≤ (r.along axis).lo) : (r.along axis).lo < x ∧ x ≤ (r.along axis).hi := by
  obtain ⟨hlo, hhi⟩ := Ordered.isNumber_of_le (hr axis).le
  exact ⟨(Ordered.not_le hx hlo).1 h', (Ordered.not_lt hhi hx).1 h⟩

/-- The parts that a bound is split into. -/
theorem splitBy_parts (rule : Interpolation α) (a b : Vec2 α) (axis : Axis) (hr : r.Narrows r)
    (hx : Scalar.IsNumber x) (h : ¬(r.along axis).hi < x) (h' : ¬x ≤ (r.along axis).lo) :
    ((Planar.splitBy rule a b r axis x).1.Narrows r ∧
      ((Planar.splitBy rule a b r axis x).1.along axis).Beside false x) ∧
    (Planar.splitBy rule a b r axis x).2.Narrows r ∧
      ((Planar.splitBy rule a b r axis x).2.along axis).Beside true x := by
  obtain ⟨hlo, hhi⟩ := lo_lt_and_le_hi hr hx h h'
  obtain ⟨hlower, hupper⟩ := Planar.splitBy_narrows rule a b hr ⟨Ordered.le_of_lt hlo, hhi⟩
  obtain ⟨hbelow, habove⟩ := splitBy_beside rule a b r axis hx
  exact ⟨⟨hlower, hbelow⟩, hupper, habove⟩

/-- **All that splitting relies on holds** if a part of AB reaches beyond the cut. -/
theorem splitBy?_eq (axis : Axis) (hr : r.Narrows (.ofPair a b)) (hx : Scalar.IsNumber x)
    (h : ¬(r.along axis).hi < x) (h' : ¬x ≤ (r.along axis).lo) :
    splitBy? rule a b r axis x = some (Planar.splitBy rule a b r axis x) := by
  obtain ⟨hlo, hhi⟩ := lo_lt_and_le_hi hr.self hx h h'
  have hwhole := hr axis
  rw [Rect.ofPair_along] at hwhole
  -- The cut lies strictly above the low end of AB and not above the high end.
  have hpq : (a.along axis == b.along axis) = false := by
    apply Interval.beq_eq_false_of_lt_le
    · exact Ordered.lt_of_le_of_lt hwhole.lo_le hlo
    · exact Ordered.le_trans hhi hwhole.le_hi
  have hqp : (b.along axis == a.along axis) = false := by
    rw [← Bool.not_eq_true, Ordered.beq_iff, and_comm, ← Ordered.beq_iff, hpq]
    exact Bool.false_ne_true
  have hdivisor : ¬((a.along axis == b.along axis) = true ∨
      (b.along axis - a.along axis == 0) = true ∨ (a.along axis - b.along axis == 0) = true) := by
    rintro (h | h | h)
    · exact Bool.noConfusion (hpq.symm.trans h)
    · exact Bool.noConfusion (hqp.symm.trans (Ordered.beq_of_sub_beq_zero h))
    · exact Bool.noConfusion (hpq.symm.trans (Ordered.beq_of_sub_beq_zero h))
  obtain ⟨⟨hfirst, -⟩, hsecond, -⟩ := splitBy_parts rule a b axis hr.self hx h h'
  unfold splitBy?
  rw [if_neg (hr.self axis.other).not_isEmpty, if_neg hdivisor, if_neg, if_neg]
  · exact not_or.2 ⟨hsecond.not_isEmpty, not_not.2 hsecond.includes⟩
  · exact not_or.2 ⟨hfirst.not_isEmpty, not_not.2 hfirst.includes⟩

/-! ## 4. One cell -/

theorem column?_eq (hr : r.Narrows (.ofPair a b)) (hx : Scalar.IsNumber x) (i : Bool) :
    column? rule a b x i r = some (column rule a b x i r) := by
  unfold column? column
  split
  · rfl
  · rename_i hhi
    split
    · rfl
    · rename_i hlo
      rw [splitBy?_eq .v hr hx hhi hlo]
      rfl

theorem quadrants?_eq (hr : r.Narrows (.ofPair a b)) (hc : center.IsNumber) :
    quadrants? rule a b center r = some (quadrants rule a b center r) := by
  unfold quadrants? quadrants
  split
  · exact column?_eq hr (hc .v) false
  · rename_i hhi
    split
    · exact column?_eq hr (hc .v) true
    · rename_i hlo
      obtain ⟨⟨hleft, -⟩, hright, -⟩ := splitBy_parts rule a b .u (x := center.x) hr.self (hc .u)
        hhi hlo
      -- The parts are parts of AB again, for the splits along v.
      rw [splitBy?_eq .u (x := center.x) hr (hc .u) hhi hlo, Option.bind_eq_bind,
        Option.bind_some]
      dsimp only
      split
      · rfl
      · split
        · rfl
        · rw [column?_eq (x := center.y) (hleft.trans hr) (hc .v),
            column?_eq (x := center.y) (hright.trans hr) (hc .v)]
          rfl

theorem forall_mem_column (hr : r.Narrows r) (hx : Scalar.IsNumber x) (i : Bool) :
    ∀ p ∈ column rule a b x i r, p.2.Narrows r ∧ p.2.y.Beside p.1.j x := by
  unfold column
  split
  · rename_i hhi
    exact List.forall_mem_singleton.2 ⟨hr, Ordered.le_of_lt hhi⟩
  · rename_i hhi
    split
    · rename_i hlo
      exact List.forall_mem_singleton.2 ⟨hr, hlo⟩
    · rename_i hlo
      obtain ⟨hlower, hupper⟩ := splitBy_parts rule a b .v hr hx hhi hlo
      exact List.forall_mem_cons.2 ⟨hlower, List.forall_mem_singleton.2 hupper⟩

theorem fits_of_mem_quadrants (hr : r.Narrows r) (hc : center.IsNumber) :
    ∀ p ∈ quadrants rule a b center r, Fits center r p := by
  -- The bound of a column is on the side of the column already.
  have hcolumn {s : Rect α} {i : Bool} (hs : s.Narrows r) (hi : s.x.Beside i center.x) :
      ∀ p ∈ column rule a b center.y i s, Fits center r p := by
    intro p hp
    obtain ⟨hnarrows, hj⟩ := forall_mem_column hs.self (hc .v) i p hp
    refine .of_axes (hnarrows.trans hs) ?_ hj
    rw [i_of_mem_column hp]
    exact beside_of_narrows hi (hnarrows .u)
  unfold quadrants
  split
  · rename_i hhi
    exact hcolumn (i := false) hr (Ordered.le_of_lt hhi)
  · rename_i hhi
    split
    · rename_i hlo
      exact hcolumn (i := true) hr hlo
    · rename_i hlo
      obtain ⟨⟨hleft, hbelow⟩, hright, habove⟩ := splitBy_parts rule a b .u hr (hc .u)
        hhi hlo
      -- A side along v that the whole bound is on is the side of both parts.
      have hpair {j : Bool} (hj : r.y.Beside j center.y) :
          ∀ p ∈ [(Quadrant.mk false j, (Planar.splitBy rule a b r .u center.x).1),
            (⟨true, j⟩, (Planar.splitBy rule a b r .u center.x).2)], Fits center r p := by
        rw [List.forall_mem_cons, List.forall_mem_singleton]
        constructor
        · exact .of_axes hleft hbelow (beside_of_narrows hj (hleft .v))
        · exact .of_axes hright habove (beside_of_narrows hj (hright .v))
      dsimp only
      split
      · rename_i hv
        exact hpair (j := false) (Ordered.le_of_lt hv)
      · split
        · rename_i hv
          exact hpair (j := true) hv
        · exact List.forall_mem_append.2 ⟨hcolumn hleft hbelow, hcolumn hright habove⟩

/-- Where the halves of a split bound meet, one of them ends on either side of the cut. -/
theorem length_columns_le_three {v y : α} (hv : Scalar.IsNumber v) (hy : Scalar.IsNumber y)
    {left right : Rect α} {e : End} (hleft : left.y = r.y.set e.other y)
    (hright : right.y = r.y.set e y) :
    (column rule a b v false left).length + (column rule a b v true right).length ≤ 3 := by
  have hone : (left.y.hi < v ∨ v ≤ left.y.lo) ∨ (right.y.hi < v ∨ v ≤ right.y.lo) := by
    rw [hleft, hright]
    by_cases hlt : y < v
    · cases e with
      | lo => exact .inl (.inl hlt)
      | hi => exact .inr (.inl hlt)
    · have hle := (Ordered.not_lt hy hv).1 hlt
      cases e with
      | lo => exact .inr (.inr hle)
      | hi => exact .inl (.inr hle)
  rcases hone with h | h
  · have hlength := length_column_le_two rule a b v true right
    rw [length_column_of_beside false h]
    omega
  · have hlength := length_column_le_two rule a b v false left
    rw [length_column_of_beside true h]
    omega

/-- **At most three quadrants are entered.** -/
theorem length_quadrants_le_three (hr : r.Narrows r) (hc : center.IsNumber) :
    (quadrants rule a b center r).length ≤ 3 := by
  unfold quadrants
  split
  · exact (length_column_le_two ..).trans (Nat.le_succ 2)
  · split
    · exact (length_column_le_two ..).trans (Nat.le_succ 2)
    · obtain ⟨y, hy, heq⟩ := Planar.exists_splitBy_eq rule a b .u center.x hr
      rw [heq]
      dsimp only
      split
      · exact Nat.le_succ 2
      · split
        · exact Nat.le_succ 2
        · rw [List.length_append]
          exact length_columns_le_three (hc .v) (Ordered.isNumber_of_le hy.1).2 rfl rfl

/-! ## 5. The walk -/

/-- **Every bound is a part of that of the segment.** -/
theorem Visits.narrows (h : Visits rule cells a b root (.ofPair a b) n c r) (ha : a.IsNumber)
    (hb : b.IsNumber) (hcenter : ∀ n c r, Visits rule cells a b root (.ofPair a b) n c r →
      GoesOn cells c → c.center.IsNumber) : r.Narrows (.ofPair a b) := by
  induction h with
  | root => exact Rect.ofPair_narrows ha hb
  | child h hgo hq ih =>
    exact (fits_of_mem_quadrants ih.self (hcenter _ _ _ h hgo) _ hq).narrows.trans ih

/-- **The bounds of the walk are safe under rounding.**  Let the numbers be ordered, but rounded in
any way, and let the rule for crossings give any values.  For a segment and centers that are numbers,
every bound in the walk is in order.  Where the walk goes on, no assertion fails and nothing is
divided by zero; it enters at most three quadrants, none of them twice; and what it hands down to one
of them is a part of the bound, in order, on the sides of the center that it is for. -/
theorem bounds_safe_under_rounding (rule : Interpolation α) (cells : Array StoredCell)
    (root : PaddedCell α) (ha : a.IsNumber) (hb : b.IsNumber)
    (hcenter : ∀ n c r, Visits rule cells a b root (.ofPair a b) n c r → GoesOn cells c →
      c.center.IsNumber) (h : Visits rule cells a b root (.ofPair a b) n c r) :
    (∀ axis, (r.along axis).lo ≤ (r.along axis).hi) ∧ ¬r.IsEmpty ∧
    (GoesOn cells c →
      quadrants? rule a b c.center r = some (quadrants rule a b c.center r) ∧
      (quadrants rule a b c.center r).length ≤ 3 ∧
      ((quadrants rule a b c.center r).map Prod.fst).Nodup ∧
      ∀ q r', (q, r') ∈ quadrants rule a b c.center r → r.Includes r' ∧ ¬r'.IsEmpty ∧
        ∀ axis, (r'.along axis).lo ≤ (r'.along axis).hi ∧
          (q.along axis = false → (r'.along axis).hi ≤ c.center.along axis) ∧
          (q.along axis = true → c.center.along axis ≤ (r'.along axis).lo)) := by
  have hr := h.narrows ha hb hcenter
  refine ⟨fun axis => (hr axis).le, hr.not_isEmpty, fun hgo => ?_⟩
  have hc := hcenter n c r h hgo
  refine ⟨quadrants?_eq hr hc, length_quadrants_le_three hr.self hc, quadrants_nodup rule a b _ r, ?_⟩
  intro q r' hq
  obtain ⟨hnarrows, hbeside⟩ := fits_of_mem_quadrants hr.self hc _ hq
  refine ⟨hnarrows.includes, hnarrows.not_isEmpty, fun axis => ⟨(hnarrows axis).le, ?_⟩⟩
  have hside := hbeside axis
  constructor
  · intro hlower
    rwa [hlower] at hside
  · intro hupper
    rwa [hupper] at hside

/-- A diagonal through the center of a face in double precision, with a rule that never gives a
number. -/
theorem bounds_safe_without_numbers :
    Vec2.IsNumber (⟨-0.5, -0.5⟩ : Vec2 Float) ∧ Vec2.IsNumber (⟨0.5, 0.5⟩ : Vec2 Float) ∧
    quadrants? (fun _ _ _ _ _ => 0 / 0) ⟨-0.5, -0.5⟩ ⟨0.5, 0.5⟩
      (PaddedCell.ofFace .xPos (0 : Float)).center (.ofPair ⟨-0.5, -0.5⟩ ⟨0.5, 0.5⟩) =
      some (quadrants (fun _ _ _ _ _ => 0 / 0) ⟨-0.5, -0.5⟩ ⟨0.5, 0.5⟩
        (PaddedCell.ofFace .xPos (0 : Float)).center (.ofPair ⟨-0.5, -0.5⟩ ⟨0.5, 0.5⟩)) := by
  have ha : Vec2.IsNumber (⟨-0.5, -0.5⟩ : Vec2 Float) := by
    intro axis
    cases axis <;> exact (by decide +kernel : (-0.5 : Float) ≤ -0.5)
  have hb : Vec2.IsNumber (⟨0.5, 0.5⟩ : Vec2 Float) := by
    intro axis
    cases axis <;> exact (by decide +kernel : (0.5 : Float) ≤ 0.5)
  have hroot := PaddedCell.onTree_ofFace .xPos (0 : Float)
  have hgo : GoesOn quarters (PaddedCell.ofFace .xPos (0 : Float)) :=
    ⟨quarter false, by decide +kernel, by decide +kernel, by decide +kernel⟩
  refine ⟨ha, hb, ?_⟩
  have hsafe := bounds_safe_under_rounding (fun _ _ _ _ _ => 0 / 0) quarters
    (PaddedCell.ofFace .xPos (0 : Float)) ha hb ?_ .root
  · exact (hsafe.2.2 hgo).1
  · intro n c r h hgo
    obtain ⟨hc, hlevel⟩ := h.onTree quarters_inOrder hroot
    rw [level_of_goesOn_quarters hc hgo] at hlevel
    obtain rfl : n = 0 := by omega
    cases h
    intro axis
    cases axis <;> exact (by decide +kernel :
      (PaddedCell.ofFace .xPos (0 : Float)).center.x ≤ (PaddedCell.ofFace .xPos (0 : Float)).center.x)

end Walk

end SphereIndex
