import SphereIndex.Proofs.Cell.Leaf
import SphereIndex.Proofs.Index.Lookup

/-!
# Locating a cell

A stored cell that contains the target is the first one not below the range of the target, or the one
before it.  So a cursor finds it by one search and one step back, and the relation of the target to
the stored cells is told apart exactly.
-/

namespace SphereIndex

namespace StoredInOrder

variable {cells : Array StoredCell} {s z : StoredCell} {t : CellId} {m n : Nat}

theorem isValid_of_getElem? (h : StoredInOrder cells.toList) (hs : cells[n]? = some s) :
    s.id.IsValid :=
  h.isValid s (Array.mem_toList_iff.2 (Array.mem_of_getElem? hs))

theorem precedes_of_lt (h : StoredInOrder cells.toList) (hz : cells[m]? = some z)
    (hs : cells[n]? = some s) (hmn : m < n) : z.id.Precedes s.id := by
  obtain ⟨hm, rfl⟩ := Array.getElem?_eq_some_iff.1 hz
  obtain ⟨hn, rfl⟩ := Array.getElem?_eq_some_iff.1 hs
  exact List.pairwise_iff_getElem.1 h.precedes m n hm hn hmn

/-- **Where the stored cell that contains a target stands**: at the first position not below the
range of the target, or just before it. -/
theorem position_of_contains (h : StoredInOrder cells.toList) (ht : t.IsValid)
    (hs : cells[n]? = some s) (hst : s.id.Contains t) :
    n = Cursor.lowerBound cells t.rangeMin ∧ t ≤ s.id ∨
      n + 1 = Cursor.lowerBound cells t.rangeMin := by
  have hvalid := h.isValid_of_getElem? hs
  have hmin := CellId.le_iff.1 ht.contains_self.1
  have hmax := CellId.le_iff.1 ht.contains_self.2
  by_cases hlt : n < Cursor.lowerBound cells t.rangeMin
  · right
    by_contra hne
    -- The next cell would begin after the target, and still be below it.
    have hnext : n + 1 < Cursor.lowerBound cells t.rangeMin := by omega
    obtain ⟨p, hp⟩ : ∃ p, cells[n + 1]? = some p :=
      ⟨_, Array.getElem?_eq_getElem (Nat.lt_of_lt_of_le hnext (partitionPoint_le _ _))⟩
    have hpvalid := h.isValid_of_getElem? hp
    have hpmin := CellId.le_iff.1 hpvalid.contains_self.1
    have hbelow := CellId.lt_iff.1 ((Cursor.lt_lowerBound_iff h.ascending hp).1 hnext)
    have hprec := CellId.lt_iff.1 (hvalid.precedes_of_contains hpvalid ht hpvalid
      (h.precedes_of_lt hs hp (Nat.lt_succ_self n)) hst hpvalid.contains_self)
    omega
  · -- At or after the first position: nothing before it can end after the target begins.
    left
    have hge := hlt
    rw [Cursor.lt_lowerBound_iff h.ascending hs, CellId.lt_iff] at hge
    constructor
    · by_contra hne
      have hlast : Cursor.lowerBound cells t.rangeMin < n := by omega
      obtain ⟨z, hz⟩ : ∃ z, cells[Cursor.lowerBound cells t.rangeMin]? = some z :=
        ⟨_, Array.getElem?_eq_getElem
          (Nat.lt_trans hlast (Array.getElem?_eq_some_iff.1 hs).1)⟩
      have hzvalid := h.isValid_of_getElem? hz
      have hzmax := CellId.le_iff.1 hzvalid.contains_self.2
      have hprec := CellId.lt_iff.1 (hzvalid.precedes_of_contains hvalid hzvalid ht
        (h.precedes_of_lt hz hs hlast) hzvalid.contains_self hst)
      have hbelow : z.id < t.rangeMin := CellId.lt_iff.2 (by omega)
      exact Nat.lt_irrefl _ ((Cursor.lt_lowerBound_iff h.ascending hz).2 hbelow)
    · rw [CellId.le_iff]
      by_contra hlt'
      have hts : t.Contains s.id := ⟨CellId.le_iff.2 (by omega), CellId.le_iff.2 (by omega)⟩
      have heq := hvalid.contains_antisymm ht hst hts
      rw [heq] at hlt'
      exact hlt' (Nat.le_refl _)

end StoredInOrder

namespace Cursor

/-- **How a target lies among stored cells**, and the stored cell that tells. -/
inductive Located (cells : Array StoredCell) (t : CellId) : CellRelation → Option StoredCell → Prop
  | indexed {s : StoredCell} (hs : s ∈ cells) (h : s.id.Contains t) :
      Located cells t .indexed (some s)
  | subdivided {s : StoredCell} (hs : s ∈ cells) (h : t.Contains s.id) (hne : s.id ≠ t)
      (first : ∀ x ∈ cells, t.Contains x.id → s.id ≤ x.id) : Located cells t .subdivided (some s)
  | disjoint (o : Option StoredCell) (above : ∀ s ∈ cells, ¬s.id.Contains t)
      (below : ∀ s ∈ cells, ¬t.Contains s.id) : Located cells t .disjoint o

section located
variable {cells : Array StoredCell} {s : StoredCell} {t : CellId} {r : CellRelation}
  {o : Option StoredCell}

theorem Located.of_contains (h : StoredInOrder cells.toList) (ht : t.IsValid)
    (hl : Located cells t r o) (hs : s ∈ cells) (hst : s.id.Contains t) :
    r = .indexed ∧ o = some s := by
  have hvalid := h.isValid s (Array.mem_toList_iff.2 hs)
  cases hl with
  | indexed hz hzt => exact ⟨rfl, congrArg some (h.eq_of_contains hz hs ht hzt hst)⟩
  | @subdivided z hz htz hne _ =>
    have hzvalid := h.isValid z (Array.mem_toList_iff.2 hz)
    obtain rfl := h.eq_of_contains hs hz hzvalid (hvalid.contains_trans ht hzvalid hst htz)
      hzvalid.contains_self
    exact absurd (hvalid.contains_antisymm ht hst htz) hne
  | disjoint _ above _ => exact absurd hst (above s hs)

theorem Located.of_below (h : StoredInOrder cells.toList) (ht : t.IsValid)
    (hl : Located cells t r o) (hs : s ∈ cells) (hts : t.Contains s.id) (hne : s.id ≠ t) :
    r = .subdivided := by
  have hvalid := h.isValid s (Array.mem_toList_iff.2 hs)
  cases hl with
  | @indexed z hz hzt =>
    have hzvalid := h.isValid z (Array.mem_toList_iff.2 hz)
    obtain rfl := h.eq_of_contains hs hz hvalid hvalid.contains_self
      (hzvalid.contains_trans ht hvalid hzt hts)
    exact absurd (hvalid.contains_antisymm ht hzt hts) hne
  | subdivided => rfl
  | disjoint _ _ below => exact absurd hts (below s hs)

theorem Located.indexed_iff (h : StoredInOrder cells.toList) (ht : t.IsValid)
    (hl : Located cells t r o) : r = .indexed ↔ ∃ s ∈ cells, s.id.Contains t := by
  constructor
  · rintro rfl
    cases hl with
    | indexed hs hst => exact ⟨_, hs, hst⟩
  · rintro ⟨s, hs, hst⟩
    exact (hl.of_contains h ht hs hst).1

theorem Located.subdivided_iff (h : StoredInOrder cells.toList) (ht : t.IsValid)
    (hl : Located cells t r o) : r = .subdivided ↔
      (∀ s ∈ cells, ¬s.id.Contains t) ∧ ∃ s ∈ cells, t.Contains s.id ∧ s.id ≠ t := by
  constructor
  · rintro rfl
    refine ⟨fun s hs hst => ?_, ?_⟩
    · exact CellRelation.noConfusion (hl.of_contains h ht hs hst).1
    · cases hl with
      | subdivided hs hts hne => exact ⟨_, hs, hts, hne⟩
  · rintro ⟨-, s, hs, hts, hne⟩
    exact hl.of_below h ht hs hts hne

/-- A cell that neither lies in a stored cell nor has one below it meets none of them. -/
theorem Located.disjoint_iff (hl : Located cells t r o) : r = .disjoint ↔
    ∀ s ∈ cells, ¬s.id.Contains t ∧ ¬t.Contains s.id := by
  constructor
  · rintro rfl
    cases hl with
    | disjoint _ above below => exact fun s hs => ⟨above s hs, below s hs⟩
  · intro hno
    cases hl with
    | indexed hs hst => exact absurd hst (hno _ hs).1
    | subdivided hs hts => exact absurd hts (hno _ hs).2
    | disjoint => rfl

end located

variable {c : Cursor} {t : CellId}

theorem locate_def (c : Cursor) (t : CellId) : c.locate t =
    if !(c.seek t.rangeMin).done && t ≤ (c.seek t.rangeMin).id &&
        (c.seek t.rangeMin).id.rangeMin ≤ t then (.indexed, c.seek t.rangeMin)
    else if !(c.seek t.rangeMin).done && (c.seek t.rangeMin).id ≤ t.rangeMax then
      (.subdivided, c.seek t.rangeMin)
    else (if ((c.seek t.rangeMin).reachesBack t).1 then .indexed else .disjoint,
      ((c.seek t.rangeMin).reachesBack t).2) := rfl

theorem reachesBack_def (c : Cursor) (t : CellId) : c.reachesBack t =
    if c.pos = 0 then (false, c)
    else (t ≤ (Cursor.mk c.cells (c.pos - 1)).id.rangeMax, ⟨c.cells, c.pos - 1⟩) := by
  unfold reachesBack prev?
  split_ifs <;> rfl

@[simp] theorem cells_locate (c : Cursor) (t : CellId) : (c.locate t).2.cells = c.cells := by
  rw [locate_def, reachesBack_def]
  split_ifs <;> rfl

theorem done_eq {z : StoredCell} (hz : c.current? = some z) : c.done = false :=
  decide_eq_false (Nat.not_le.2 (Array.getElem?_eq_some_iff.1 hz).1)

theorem id_eq {z : StoredCell} (hz : c.current? = some z) : c.id = z.id := by
  rw [id, hz]
  rfl

/-- The last part of a search: the stored cells from the position on lie beyond the target. -/
theorem reachesBack_located (h : StoredInOrder c.cells.toList) (ht : t.IsValid)
    (hpos : c.pos = lowerBound c.cells t.rangeMin)
    (hbeyond : ∀ z, c.current? = some z →
      ¬(t ≤ z.id ∧ z.id.rangeMin ≤ t) ∧ ¬z.id ≤ t.rangeMax) :
    Located c.cells t (if (c.reachesBack t).1 then .indexed else .disjoint)
      (c.reachesBack t).2.current? := by
  have hbelow : ∀ s ∈ c.cells, ¬t.Contains s.id := by
    refine h.not_contains_of_first fun z hz => ?_
    rw [← hpos] at hz
    exact (hbeyond z hz).2
  -- A stored cell that contains the target would have been found, unless it stands just before.
  have habove (s : StoredCell) (hs : s ∈ c.cells) (hst : s.id.Contains t) :
      ∃ n, c.cells[n]? = some s ∧ n + 1 = c.pos := by
    obtain ⟨n, hn⟩ := Array.mem_iff_getElem?.1 hs
    rcases h.position_of_contains ht hn hst with ⟨rfl, hle⟩ | hprev
    · rw [← hpos] at hn
      exact absurd ⟨hle, hst.1⟩ (hbeyond s hn).1
    · exact ⟨n, hn, hprev.trans hpos.symm⟩
  rw [reachesBack_def]
  by_cases hzero : c.pos = 0
  · rw [if_pos hzero]
    refine .disjoint _ (fun s hs hst => ?_) hbelow
    obtain ⟨n, -, hn⟩ := habove s hs hst
    omega
  · rw [if_neg hzero]
    obtain ⟨p, hp⟩ : ∃ p, (Cursor.mk c.cells (c.pos - 1)).current? = some p := by
      have hle := partitionPoint_le c.cells fun s => s.id < t.rangeMin
      exact ⟨_, Array.getElem?_eq_getElem (show c.pos - 1 < c.cells.size by
        rw [lowerBound] at hpos
        omega)⟩
    have hpvalid := h.isValid_of_getElem? hp
    rw [id_eq hp, hp]
    by_cases hreach : t ≤ p.id.rangeMax
    · rw [if_pos (decide_eq_true hreach)]
      -- The cell before begins before the target, and so contains it.
      refine .indexed (Array.mem_of_getElem? hp) ⟨?_, hreach⟩
      have hlt : c.pos - 1 < lowerBound c.cells t.rangeMin := by omega
      have hplt := CellId.lt_iff.1 ((lt_lowerBound_iff h.ascending hp).1 hlt)
      have hpmin := CellId.le_iff.1 hpvalid.contains_self.1
      have htmin := CellId.le_iff.1 ht.contains_self.1
      rw [CellId.le_iff]
      omega
    · rw [if_neg (by rw [decide_eq_true_iff]; exact hreach)]
      refine .disjoint _ (fun s hs hst => ?_) hbelow
      obtain ⟨n, hn, hprev⟩ := habove s hs hst
      obtain rfl : n = c.pos - 1 := by omega
      obtain rfl := Option.some.inj (hn.symm.trans hp)
      exact hreach hst.2

/-- **Every search tells the relation of its target.** -/
theorem locate_located (h : StoredInOrder c.cells.toList) (ht : t.IsValid) :
    Located c.cells t (c.locate t).1 (c.locate t).2.current? := by
  rw [locate_def]
  cases hz : (c.seek t.rangeMin).current? with
  | none =>
    have hdone : (c.seek t.rangeMin).done = true :=
      decide_eq_true (Array.getElem?_eq_none_iff.1 hz)
    rw [hdone]
    simp only [Bool.not_true, Bool.false_and, Bool.false_eq_true, if_false]
    refine reachesBack_located (c := c.seek t.rangeMin) h ht rfl fun z hz' => ?_
    rw [hz] at hz'
    cases hz'
  | some z =>
    have hmem : z ∈ c.cells := Array.mem_of_getElem? hz
    have hzvalid := h.isValid_of_getElem? hz
    have hge : ¬z.id < t.rangeMin := by
      rw [← lt_lowerBound_iff h.ascending hz]
      exact Nat.lt_irrefl _
    rw [done_eq hz, id_eq hz]
    simp only [Bool.not_false, Bool.true_and, Bool.and_eq_true, decide_eq_true_iff]
    by_cases hindexed : t ≤ z.id ∧ z.id.rangeMin ≤ t
    · rw [if_pos hindexed, hz]
      exact .indexed hmem ⟨hindexed.2, UInt64.le_trans hindexed.1 hzvalid.contains_self.2⟩
    · rw [if_neg hindexed]
      by_cases hsub : z.id ≤ t.rangeMax
      · -- The first stored cell below the target.
        have htz : t.Contains z.id := ⟨UInt64.not_lt.1 hge, hsub⟩
        rw [if_pos hsub, hz]
        refine .subdivided hmem htz (fun heq => ?_) fun x hx htx => ?_
        · exact hindexed (by rw [heq]; exact ⟨UInt64.le_refl _, ht.contains_self.1⟩)
        · obtain ⟨s, -, hs, -, hle⟩ := h.exists_lowerBound hx htx
          obtain rfl := Option.some.inj (hs.symm.trans hz)
          exact hle
      · rw [if_neg hsub]
        refine reachesBack_located (c := c.seek t.rangeMin) h ht rfl fun z' hz' => ?_
        obtain rfl := Option.some.inj (hz.symm.trans hz')
        exact ⟨hindexed, hsub⟩

/-- **The search for a point** is the search for its leaf cell: a leaf cell has nothing below it, so
the two searches look at the same stored cells. -/
theorem locatePoint_eq {α : Type} [Scalar α] (h : StoredInOrder c.cells.toList) (p : Vec3 α) :
    c.locatePoint p = (decide ((c.locate (.ofPoint p)).1 = .indexed), (c.locate (.ofPoint p)).2) := by
  obtain ⟨m, hm⟩ := CellId.exists_numbered_ofPoint p
  change (if !(c.seek (.ofPoint p)).done && (c.seek (.ofPoint p)).id.rangeMin ≤ .ofPoint p then
    (true, c.seek (.ofPoint p)) else (c.seek (.ofPoint p)).reachesBack (.ofPoint p)) = _
  rw [locate_def, hm.rangeMin_of_leaf, hm.rangeMax_of_leaf]
  generalize CellId.ofPoint p = t at *
  have hback : decide ((if ((c.seek t).reachesBack t).1 then CellRelation.indexed else .disjoint) =
      .indexed) = ((c.seek t).reachesBack t).1 := by
    cases ((c.seek t).reachesBack t).1 <;> rfl
  cases hz : (c.seek t).current? with
  | none =>
    have hdone : (c.seek t).done = true := decide_eq_true (Array.getElem?_eq_none_iff.1 hz)
    rw [hdone]
    simp only [Bool.not_true, Bool.false_and, Bool.false_eq_true, if_false, hback]
  | some z =>
    have hvalid := h.isValid_of_getElem? hz
    have hle : t ≤ z.id := UInt64.not_lt.1 fun hlt =>
      Nat.lt_irrefl _ ((lt_lowerBound_iff h.ascending hz).2 hlt)
    rw [done_eq hz, id_eq hz]
    simp only [Bool.not_false, Bool.true_and, Bool.and_eq_true, decide_eq_true_iff, hle, true_and]
    by_cases hmin : z.id.rangeMin ≤ t
    · rw [if_pos hmin, if_pos hmin]
      rfl
    · -- The cell is not the target, or its range would begin there.
      have hgt : ¬z.id ≤ t := fun hzt => hmin (UInt64.le_trans hvalid.contains_self.1 hzt)
      rw [if_neg hmin, if_neg hmin, if_neg hgt, hback]

/-- **A search tells how its target lies among the stored cells**, wherever the cursor stood before.
It is indexed if a stored cell contains it, and the cursor is left on that cell; otherwise subdivided
if stored cells lie strictly below it, and the cursor is left on the first of them; otherwise it
meets no stored cell.  The search for a point says whether its leaf cell is indexed, and leaves the
cursor where the search for that cell does. -/
theorem locate_tells_relation (c : Cursor) (h : StoredInOrder c.cells.toList) :
    (∀ t : CellId, t.IsValid →
      ((c.locate t).1 = .indexed ↔ ∃ s ∈ c.cells, s.id.Contains t) ∧
      (∀ s ∈ c.cells, s.id.Contains t → (c.locate t).2.current? = some s) ∧
      ((c.locate t).1 = .subdivided ↔
        (∀ s ∈ c.cells, ¬s.id.Contains t) ∧ ∃ s ∈ c.cells, t.Contains s.id ∧ s.id ≠ t) ∧
      ((c.locate t).1 = .subdivided → ∃ s ∈ c.cells, (c.locate t).2.current? = some s ∧
        t.Contains s.id ∧ s.id ≠ t ∧ ∀ x ∈ c.cells, t.Contains x.id → s.id ≤ x.id) ∧
      ((c.locate t).1 = .disjoint ↔ ∀ s ∈ c.cells, ¬s.id.Contains t ∧ ¬t.Contains s.id)) ∧
    ∀ {α : Type} [Scalar α] (p : Vec3 α), c.locatePoint p =
      (decide ((c.locate (.ofPoint p)).1 = .indexed), (c.locate (.ofPoint p)).2) := by
  refine ⟨fun t ht => ?_, fun p => locatePoint_eq h p⟩
  have hl := locate_located h ht
  refine ⟨hl.indexed_iff h ht, fun s hs hst => (hl.of_contains h ht hs hst).2,
    hl.subdivided_iff h ht, fun hsub => ?_, hl.disjoint_iff⟩
  generalize c.locate t = found at hl hsub
  obtain ⟨r, c'⟩ := found
  obtain rfl : r = .subdivided := hsub
  change Located c.cells t .subdivided c'.current? at hl
  change ∃ s ∈ c.cells, c'.current? = some s ∧ _
  generalize c'.current? = o at hl
  cases hl with
  | subdivided hs hts hne first => exact ⟨_, hs, rfl, hts, hne, first⟩

/-- A child of a face, or a grandchild further along the curve. -/
def spacedCell : Bool → StoredCell
  | false => ⟨(CellId.ofFace .xPos).child ⟨0, by decide⟩, ⟨[⟨0, [0]⟩]⟩⟩
  | true => ⟨((CellId.ofFace .xPos).child ⟨2, by decide⟩).child ⟨1, by decide⟩, ⟨[⟨0, [0]⟩]⟩⟩

/-- Two stored cells with a gap between them on the curve. -/
def spacedCells : Array StoredCell := #[spacedCell false, spacedCell true]

theorem spacedCells_inOrder : StoredInOrder spacedCells.toList := by
  have hall : ∀ s ∈ spacedCells.toList, s.id.IsValid := by decide +kernel
  exact ⟨hall, by decide +kernel⟩

/-- From the end of the list, a target below the first cell, one above the second and one in the gap
are told apart. -/
theorem locate_spacedCells : StoredInOrder spacedCells.toList ∧
    (((CellId.ofFace .xPos).child 0).child 3).IsValid ∧
    ((Cursor.mk spacedCells 2).locate (((CellId.ofFace .xPos).child 0).child 3)).2.current? =
      some (spacedCell false) ∧
    ((Cursor.mk spacedCells 2).locate ((CellId.ofFace .xPos).child 2)).1 = .subdivided ∧
    ((Cursor.mk spacedCells 2).locate ((CellId.ofFace .xPos).child 1)).1 = .disjoint := by
  have hbelow : (((CellId.ofFace .xPos).child 0).child 3).IsValid := by decide +kernel
  obtain ⟨hrelation, -⟩ := locate_tells_relation ⟨spacedCells, 2⟩ spacedCells_inOrder
  obtain ⟨-, hcursor, -, -, -⟩ := hrelation _ hbelow
  obtain ⟨-, -, hsubdivided, -, -⟩ := hrelation ((CellId.ofFace .xPos).child 2) (by decide +kernel)
  obtain ⟨-, -, -, -, hdisjoint⟩ := hrelation ((CellId.ofFace .xPos).child 1) (by decide +kernel)
  have habove : ∀ s ∈ spacedCells.toList, ¬s.id.Contains ((CellId.ofFace .xPos).child 2) := by
    decide +kernel
  have hgap : ∀ s ∈ spacedCells.toList, ¬s.id.Contains ((CellId.ofFace .xPos).child 1) ∧
      ¬((CellId.ofFace .xPos).child 1).Contains s.id := by decide +kernel
  refine ⟨spacedCells_inOrder, hbelow, hcursor _ ?_ (by decide +kernel), hsubdivided.2 ⟨?_, ?_⟩,
    hdisjoint.2 fun s hs => hgap s (Array.mem_toList_iff.2 hs)⟩
  · simp [spacedCells]
  · exact fun s hs => habove s (Array.mem_toList_iff.2 hs)
  · exact ⟨spacedCell true, by simp [spacedCells], by decide +kernel, by decide +kernel⟩

end Cursor

end SphereIndex
