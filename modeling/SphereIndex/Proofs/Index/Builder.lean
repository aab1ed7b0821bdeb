import SphereIndex.Proofs.Index.Invariant

/-!
# Building an index face by face

An index is built with a running result: cells are added to it one after another, along with the
deepest level so far, and the results of the faces are put together in the end.  All of that adds up
to the cells that are found below the faces, and to the deepest level among them.
-/

namespace SphereIndex

/-! ## 1. Running results -/

/-- The deepest level of some cells. -/
def deepest (cells : List StoredCell) : Nat := cells.foldl (fun n c => max n c.id.level) 0

theorem deepest_cons (c : StoredCell) (cells : List StoredCell) :
    deepest (c :: cells) = max c.id.level (deepest cells) := by
  have hfold (n : Nat) : cells.foldl (fun n c => max n c.id.level) n = max n (deepest cells) := by
    induction cells generalizing n with
    | nil => exact (Nat.max_zero n).symm
    | cons d rest ih =>
      rw [deepest, List.foldl_cons, List.foldl_cons, ih, ih (max 0 d.id.level), Nat.zero_max,
        Nat.max_assoc]
  rw [deepest, List.foldl_cons, hfold, Nat.zero_max]

theorem deepest_append (cs ds : List StoredCell) :
    deepest (cs ++ ds) = max (deepest cs) (deepest ds) := by
  induction cs with
  | nil => exact (Nat.zero_max _).symm
  | cons c rest ih => rw [List.cons_append, deepest_cons, deepest_cons, ih, Nat.max_assoc]

theorem deepest_perm {cs ds : List StoredCell} (h : cs.Perm ds) : deepest cs = deepest ds :=
  h.foldl_eq' (fun _ _ _ _ _ => Nat.max_right_comm _ _ _) 0

theorem le_deepest {cells : List StoredCell} {c : StoredCell} (hc : c ∈ cells) :
    c.id.level ≤ deepest cells := by
  obtain ⟨cs, ds, rfl⟩ := List.append_of_mem hc
  rw [deepest_append, deepest_cons]
  omega

/-- The deepest level is the level of some cell, if there are any. -/
theorem deepest_attained (cells : List StoredCell) :
    deepest cells = 0 ∨ ∃ c ∈ cells, c.id.level = deepest cells := by
  induction cells with
  | nil => exact .inl rfl
  | cons c rest ih =>
    rw [deepest_cons]
    rcases Nat.le_total (deepest rest) c.id.level with hle | hle
    · exact .inr ⟨c, List.mem_cons_self, (Nat.max_eq_left hle).symm⟩
    · rw [Nat.max_eq_right hle]
      exact ih.imp_right fun ⟨d, hd, hlevel⟩ => ⟨d, List.mem_cons_of_mem _ hd, hlevel⟩

/-- The cells that were found so far, and the deepest level among them. -/
structure Found where
  cells : List StoredCell
  maxLevel : Nat

namespace Found

def nothing : Found := ⟨[], 0⟩

def push (r : Found) (c : StoredCell) (level : Nat) : Found :=
  ⟨r.cells ++ [c], max r.maxLevel level⟩

def merge (r s : Found) : Found := ⟨r.cells ++ s.cells, max r.maxLevel s.maxLevel⟩

def ofCells (cells : List StoredCell) : Found := ⟨cells, deepest cells⟩

theorem nothing_merge (r : Found) : nothing.merge r = r := by
  rw [merge, nothing, Nat.zero_max]
  rfl

theorem merge_nothing (r : Found) : r.merge nothing = r := by
  rw [merge, nothing, Nat.max_zero, List.append_nil]

theorem merge_assoc (r s t : Found) : (r.merge s).merge t = r.merge (s.merge t) :=
  congrArg₂ Found.mk (List.append_assoc _ _ _) (Nat.max_assoc _ _ _)

theorem ofCells_append (cs ds : List StoredCell) :
    ofCells (cs ++ ds) = (ofCells cs).merge (ofCells ds) :=
  congrArg (Found.mk (cs ++ ds)) (deepest_append cs ds)

theorem push_eq (r : Found) (c : StoredCell) : r.push c c.id.level = r.merge (ofCells [c]) := by
  have hone : deepest [c] = c.id.level := Nat.zero_max _
  rw [merge, ofCells, hone]
  rfl

/-- **Steps that each add some cells** add all of them, in the order of the steps. -/
theorem foldl_merge {β : Type} {step : Found → β → Found} {cells : β → List StoredCell}
    (h : ∀ r b, step r b = r.merge (ofCells (cells b))) (bs : List β) (r : Found) :
    bs.foldl step r = r.merge (ofCells (bs.flatMap cells)) := by
  induction bs generalizing r with
  | nil => exact r.merge_nothing.symm
  | cons b rest ih => rw [List.foldl_cons, List.flatMap_cons, ofCells_append, ih, h, merge_assoc]

end Found

variable {α : Type}

/-! ## 2. One face -/

namespace Subdivision

/-- Whether to divide a cell: short edges are counted only if there are more edges than allowed. -/
def mustDivide (limit level : Nat) (edges : List (CellEdge α)) : Bool :=
  if maxLevel ≤ level || edges.length ≤ limit then false
  else decide (limit < numShort level edges)

/-- A cell with few edges has few short ones, so there is no need to count them. -/
theorem mustDivide_iff {limit level : Nat} {edges : List (CellEdge α)} :
    mustDivide limit level edges = true ↔ Divides limit level edges := by
  have hle : numShort level edges ≤ edges.length := List.countP_le_length
  unfold mustDivide Divides
  split
  · rename_i hstop
    rw [Bool.or_eq_true, decide_eq_true_iff, decide_eq_true_iff] at hstop
    refine ⟨fun h => Bool.noConfusion h, fun ⟨hl, hn⟩ => ?_⟩
    omega
  · rename_i hgo
    rw [Bool.or_eq_true, decide_eq_true_iff, decide_eq_true_iff, not_or] at hgo
    rw [decide_eq_true_iff]
    exact ⟨fun h => ⟨Nat.not_le.1 hgo.1, h⟩, fun h => h.2⟩

variable [Scalar α]

/-- The result after a cell with the given edges has been dealt with. -/
def update (limit : Nat) (c : PaddedCell α) (edges : List (CellEdge α)) (r : Found) : Found :=
  if edges.isEmpty then r
  else if _h : mustDivide limit c.level edges = true then
    Quadrant.all.foldl (fun r q => update limit (c.child q) (clipTo (c.child q).bound edges) r) r
  else r.push ⟨c.id, contentOf edges⟩ c.level
termination_by maxLevel - c.level
decreasing_by
  have := (mustDivide_iff.1 _h).1
  simp only [PaddedCell.level_child]
  omega

/-- **A cell adds the cells that are found below it.** -/
theorem update_eq (limit : Nat) {c : PaddedCell α} (hc : c.OnTree) (edges : List (CellEdge α))
    (r : Found) : update limit c edges r = r.merge (.ofCells (cellsBelow limit c edges)) := by
  fun_induction update limit c edges r with
  | case1 c edges r he =>
    rw [cellsBelow, if_pos he]
    exact r.merge_nothing.symm
  | case2 c edges r he hd ih =>
    have hdivides := mustDivide_iff.1 hd
    rw [cellsBelow, if_neg he, dif_pos hdivides]
    exact Found.foldl_merge (fun r q => ih r q (hc.child hdivides.1 q)) _ r
  | case3 c edges r he hd =>
    rw [cellsBelow, if_neg he, dif_neg fun hdivides => hd (mustDivide_iff.2 hdivides), hc.level_eq]
    exact r.push_eq _

def buildFace (o : IndexOptions α) (f : Face) (edges : List (FaceEdge α)) : Found :=
  update o.maxEdgesPerCell (PaddedCell.ofFace f o.cellPadding)
    (edges.map fun e => ⟨e, Rect.ofPair e.a e.b⟩) .nothing

theorem buildFace_eq (o : IndexOptions α) (f : Face) (edges : List (FaceEdge α)) :
    buildFace o f edges = .ofCells (ofFace o f edges) := by
  rw [buildFace, update_eq _ (PaddedCell.onTree_ofFace f o.cellPadding), Found.nothing_merge]
  rfl

end Subdivision

/-! ## 3. All faces -/

namespace ShapeIndex

variable [Scalar α]

/-- The results of all faces put together. -/
def mergedFaces (o : IndexOptions α) (shapes : Array (Shape α)) : Found :=
  Face.all.foldl (fun r f => r.merge (Subdivision.buildFace o f (faceEdges o shapes f))) .nothing

theorem mergedFaces_eq (o : IndexOptions α) (shapes : Array (Shape α)) :
    mergedFaces o shapes = .ofCells (foundCells o shapes) := by
  have hface (r : Found) (f : Face) :
      r.merge (Subdivision.buildFace o f (faceEdges o shapes f)) =
        r.merge (.ofCells (Subdivision.ofFace o f (faceEdges o shapes f))) := by
    rw [Subdivision.buildFace_eq]
  rw [mergedFaces, Found.foldl_merge hface, Found.nothing_merge]
  rfl

/-- The index rebuilt face by face. -/
def rebuildByFace (x : ShapeIndex α) : ShapeIndex α :=
  let found := mergedFaces x.options x.shapes
  let cells := found.cells.mergeSort fun a b => a.id ≤ b.id
  { x with
    cells := cells.toArray
    pending := 0
    info := ⟨x.shapes.size, x.shapes.foldl (fun n s => n + s.edges.size) 0, cells.length,
      found.maxLevel⟩ }

/-- **Rebuilding face by face is rebuilding.**  The deepest level is the same in any order of the
cells. -/
theorem rebuildByFace_eq (x : ShapeIndex α) : x.rebuildByFace = x.rebuild := by
  have hdeepest : deepest (foundCells x.options x.shapes) =
      deepest (cellsOf x.options x.shapes) := deepest_perm (List.mergeSort_perm _ _).symm
  unfold rebuildByFace
  rw [mergedFaces_eq]
  simp only [Found.ofCells, hdeepest]
  rfl

end ShapeIndex

end SphereIndex
