import SphereIndex.Index.Cursor
import SphereIndex.Proofs.Index.Invariant

/-!
# Looking up stored cells

The stored cells are valid, ascend and do not overlap.  So two of them that reach one cell are the
same, and binary search finds the first stored cell below a cell.
-/

namespace SphereIndex.StoredInOrder

variable {cells : Array StoredCell} {s x : StoredCell} {c : CellId}

theorem ascending (h : StoredInOrder cells.toList) : Cursor.Ascending cells := by
  refine h.precedes.imp_of_mem fun {a b} ha hb hab => ?_
  exact (h.isValid a ha).lt_of_precedes (h.isValid b hb) hab

theorem eq_of_contains (h : StoredInOrder cells.toList) (hs : s ∈ cells) (hx : x ∈ cells)
    (hc : c.IsValid) (hsc : s.id.Contains c) (hxc : x.id.Contains c) : s = x := by
  have hs := Array.mem_toList_iff.2 hs
  have hx := Array.mem_toList_iff.2 hx
  have hsymm : Std.Symm fun a b : StoredCell => a.id.Apart b.id := ⟨fun _ _ => CellId.Apart.symm⟩
  have hapart : cells.toList.Pairwise fun a b => a.id.Apart b.id := h.precedes.imp .inl
  by_contra hne
  rcases hapart.forall hs hx hne with hprec | hprec
  · exact (h.isValid s hs).not_precedes_of_contains (h.isValid x hx) hc hsc hxc hprec
  · exact (h.isValid x hx).not_precedes_of_contains (h.isValid s hs) hc hxc hsc hprec

theorem le_of_lowerBound (h : StoredInOrder cells.toList) {target : CellId}
    (hs : cells[Cursor.lowerBound cells target]? = some s) : target ≤ s.id := by
  rw [CellId.le_iff, ← Nat.not_lt, ← CellId.lt_iff, ← Cursor.lt_lowerBound_iff h.ascending hs]
  exact Nat.lt_irrefl _

/-- **Binary search for the stored cells below a cell** finds one, if there are any. -/
theorem exists_lowerBound (h : StoredInOrder cells.toList) (hx : x ∈ cells)
    (hcx : c.Contains x.id) : ∃ s ∈ cells,
      cells[Cursor.lowerBound cells c.rangeMin]? = some s ∧ c.Contains s.id ∧ s.id ≤ x.id := by
  obtain ⟨n, hn, hx⟩ := Array.mem_iff_getElem.1 hx
  have hget : cells[n]? = some x := by rw [Array.getElem?_eq_getElem hn, hx]
  have hle : ¬n < Cursor.lowerBound cells c.rangeMin := by
    rw [Cursor.lt_lowerBound_iff h.ascending hget, CellId.lt_iff, Nat.not_lt]
    exact hcx.1
  have hlt : Cursor.lowerBound cells c.rangeMin < cells.size := by omega
  refine ⟨_, Array.getElem_mem hlt, Array.getElem?_eq_getElem hlt, ?_⟩
  have hmin : c.rangeMin ≤ cells[Cursor.lowerBound cells c.rangeMin].id :=
    h.le_of_lowerBound (Array.getElem?_eq_getElem hlt)
  have hasc : cells[Cursor.lowerBound cells c.rangeMin].id ≤ x.id := by
    rcases Nat.lt_or_eq_of_le (Nat.not_lt.1 hle) with hlt' | heq
    · have hlist := List.pairwise_iff_getElem.1 h.ascending _ n hlt hn hlt'
      rw [Array.getElem_toList, Array.getElem_toList, hx] at hlist
      exact UInt64.le_of_lt hlist
    · subst heq
      rw [hx]
      exact UInt64.le_refl _
  exact ⟨⟨hmin, UInt64.le_trans hasc hcx.2⟩, hasc⟩

/-- Nothing is stored below a cell if the first stored cell not before it lies beyond it. -/
theorem not_contains_of_first (h : StoredInOrder cells.toList)
    (hfirst : ∀ z, cells[Cursor.lowerBound cells c.rangeMin]? = some z → ¬z.id ≤ c.rangeMax) :
    ∀ x ∈ cells, ¬c.Contains x.id := by
  intro x hx hcx
  obtain ⟨z, -, hz, hcz, -⟩ := h.exists_lowerBound hx hcx
  exact hfirst z hz hcz.2

end SphereIndex.StoredInOrder
