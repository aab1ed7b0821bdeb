import Mathlib.Data.List.Nodup
import SphereIndex.Query.Walk

/-!
# Quadrants of a cell

The quadrants that the parts of a segment lie in are found by comparisons and splits.  However these
come out, there are few lists of quadrants that they can give, which tells that there is always a
quadrant to enter and that none is entered twice.
-/

namespace SphereIndex.Walk

/-! ## 1. Lists of quadrants -/

/-- What can be entered in a half of a cell: one of the two quadrants, or both. -/
def columnChoices (i : Bool) : List (List Quadrant) :=
  [[⟨i, false⟩], [⟨i, true⟩], [⟨i, false⟩, ⟨i, true⟩]]

/-- What can be entered in a cell: one half of it, or both. -/
def choices : List (List Quadrant) :=
  columnChoices false ++ columnChoices true ++
    (columnChoices false).flatMap fun left => (columnChoices true).map (left ++ ·)

variable {α : Type} [Scalar α] {rule : Interpolation α} {a b : Vec2 α} {v : α} {i : Bool}
  {bound : Rect α}

theorem column_of_hi_lt (i : Bool) (h : bound.y.hi < v) :
    column rule a b v i bound = [(⟨i, false⟩, bound)] := if_pos h

theorem column_of_le_lo (i : Bool) (h : ¬bound.y.hi < v) (h' : v ≤ bound.y.lo) :
    column rule a b v i bound = [(⟨i, true⟩, bound)] :=
  (if_neg h).trans (if_pos h')

theorem column_mem_choices (rule : Interpolation α) (a b : Vec2 α) (v : α) (i : Bool)
    (bound : Rect α) : (column rule a b v i bound).map Prod.fst ∈ columnChoices i := by
  unfold column
  split
  · exact List.mem_cons_self
  · apply List.mem_cons_of_mem
    split
    · exact List.mem_cons_self
    · exact List.mem_cons_of_mem _ List.mem_cons_self

theorem quadrants_mem_choices (rule : Interpolation α) (a b center : Vec2 α) (bound : Rect α) :
    (quadrants rule a b center bound).map Prod.fst ∈ choices := by
  unfold quadrants choices
  split
  · exact List.mem_append_left _ (List.mem_append_left _ (column_mem_choices ..))
  · split
    · exact List.mem_append_left _ (List.mem_append_right _ (column_mem_choices ..))
    · apply List.mem_append_right
      dsimp only
      split
      · show [Quadrant.mk false false, ⟨true, false⟩] ∈ _
        decide
      · split
        · show [Quadrant.mk false true, ⟨true, true⟩] ∈ _
          decide
        · rw [List.map_append, List.mem_flatMap]
          exact ⟨_, column_mem_choices .., List.mem_map_of_mem (column_mem_choices ..)⟩

/-! ## 2. What they have in common -/

theorem i_of_mem_column {x : Quadrant × Rect α} (h : x ∈ column rule a b v i bound) :
    x.1.i = i := by
  have hall : ∀ i, ∀ qs ∈ columnChoices i, ∀ q ∈ qs, q.i = i := by decide
  exact hall i _ (column_mem_choices rule a b v i bound) _ (List.mem_map_of_mem h)

theorem length_column_le_two (rule : Interpolation α) (a b : Vec2 α) (v : α) (i : Bool)
    (bound : Rect α) : (column rule a b v i bound).length ≤ 2 := by
  have hall : ∀ i, ∀ qs ∈ columnChoices i, qs.length ≤ 2 := by decide
  have hlength := hall i _ (column_mem_choices rule a b v i bound)
  rwa [List.length_map] at hlength

theorem length_column_of_beside (i : Bool) (h : bound.y.hi < v ∨ v ≤ bound.y.lo) :
    (column rule a b v i bound).length = 1 := by
  by_cases hhi : bound.y.hi < v
  · rw [column_of_hi_lt i hhi]
    rfl
  · rw [column_of_le_lo i hhi (h.resolve_left hhi)]
    rfl

/-- **No quadrant is entered twice.** -/
theorem quadrants_nodup (rule : Interpolation α) (a b center : Vec2 α) (bound : Rect α) :
    ((quadrants rule a b center bound).map Prod.fst).Nodup := by
  have hall : ∀ qs ∈ choices, qs.Nodup := by decide
  exact hall _ (quadrants_mem_choices rule a b center bound)

end SphereIndex.Walk
