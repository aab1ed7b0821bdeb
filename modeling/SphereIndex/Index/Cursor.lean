import SphereIndex.Index.Content

/-!
# Cursors

The cells of an index are stored by ascending id and do not overlap, so the cells below any cell
are one run of them.  A cursor is a position in that list, or at its end; it is moved to a cell by
binary search.
-/

namespace SphereIndex

/-- How a cell relates to the stored cells. -/
inductive CellRelation where
  /-- It is a stored cell, or lies below one. -/
  | indexed
  /-- Stored cells lie below it. -/
  | subdivided
  /-- It meets no stored cell. -/
  | disjoint
  deriving DecidableEq, Repr

structure Cursor where
  cells : Array StoredCell
  pos : Nat

namespace Cursor

/-! ## 1. Search -/

/-- **The position of the first id not below `target`.** -/
def lowerBound (cells : Array StoredCell) (target : CellId) : Nat :=
  partitionPoint cells fun c => c.id < target

def Ascending (cells : Array StoredCell) : Prop :=
  cells.toList.Pairwise fun a b => a.id < b.id

theorem Ascending.parted {cells : Array StoredCell} (h : Ascending cells) (target : CellId) :
    Parted cells fun c => c.id < target := by
  refine h.imp fun hab hb => ?_
  exact decide_eq_true (UInt64.lt_trans hab (of_decide_eq_true hb))

/-- A cell of an ascending list lies left of the lower bound if and only if its id is below the
target. -/
theorem lt_lowerBound_iff {cells : Array StoredCell} (h : Ascending cells) {target : CellId}
    {n : Nat} {c : StoredCell} (hc : cells[n]? = some c) :
    n < lowerBound cells target ↔ c.id < target := by
  rw [lowerBound, lt_partitionPoint_iff (h.parted target) hc, decide_eq_true_iff]

/-! ## 2. Reading -/

def current? (c : Cursor) : Option StoredCell := c.cells[c.pos]?

/-- The id of the current cell, the sentinel at the end. -/
def id (c : Cursor) : CellId := (c.current?.map (·.id)).getD .sentinel

def content? (c : Cursor) : Option Content := c.current?.map (·.content)

def done (c : Cursor) : Bool := c.cells.size ≤ c.pos

/-! ## 3. Moving -/

def start (cells : Array StoredCell) : Cursor := ⟨cells, 0⟩

def first (c : Cursor) : Cursor := { c with pos := 0 }

def seek (c : Cursor) (target : CellId) : Cursor := { c with pos := lowerBound c.cells target }

def next (c : Cursor) : Cursor := { c with pos := c.pos + 1 }

def prev? (c : Cursor) : Option Cursor :=
  if c.pos = 0 then none else some { c with pos := c.pos - 1 }

/-- Whether the cell before the cursor reaches up to `target`, and the cursor on that cell if there
is one. -/
def reachesBack (c : Cursor) (target : CellId) : Bool × Cursor :=
  match c.prev? with
  | some p => (target ≤ p.id.rangeMax, p)
  | none => (false, c)

/-- **The relation of a cell to the stored ones.**  If it is indexed the cursor is left on the
stored cell that contains it, and if it is subdivided on the first stored cell below it. -/
def locate (c : Cursor) (target : CellId) : CellRelation × Cursor :=
  let c := c.seek target.rangeMin
  if !c.done && target ≤ c.id && c.id.rangeMin ≤ target then (.indexed, c)
  else if !c.done && c.id ≤ target.rangeMax then (.subdivided, c)
  else
    -- What else could contain the target is the cell before, which begins before its range.
    let (reaches, c) := c.reachesBack target
    (if reaches then .indexed else .disjoint, c)

/-- Whether a stored cell contains a point, and the cursor on that cell. -/
def locatePoint {α : Type} [Scalar α] (c : Cursor) (p : Vec3 α) : Bool × Cursor :=
  let target := CellId.ofPoint p
  let c := c.seek target
  if !c.done && c.id.rangeMin ≤ target then (true, c) else c.reachesBack target

end Cursor

end SphereIndex
