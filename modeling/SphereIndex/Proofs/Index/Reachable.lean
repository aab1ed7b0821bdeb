import SphereIndex.Proofs.Index.Invariant

/-!
# Indexes in use

An index starts empty; after that shapes are added to it and it is rebuilt, in any order.  Shapes
that are added keep their numbers, so what a rebuild has stored stays true of the shapes it was made
from.  An index built at once holds all of its shapes and their cells.
-/

namespace SphereIndex

variable {α : Type}

/-- What the cells list stays in range when a shape is added. -/
theorem Content.Proper.push {c : Content} {shapes : Array (Shape α)} (h : c.Proper shapes)
    (s : Shape α) : c.Proper (shapes.push s) := by
  refine ⟨h.ne_nil, h.grouped, fun g hg => ?_⟩
  obtain ⟨s', hs', hlt⟩ := h.edge_lt g hg
  have hsize : g.shape < shapes.size := (Array.getElem?_eq_some_iff.1 hs').1
  refine ⟨s', ?_, hlt⟩
  rw [Array.getElem?_push_lt hsize, ← hs', Array.getElem?_eq_getElem hsize]

namespace ShapeIndex

theorem Proper.add {x : ShapeIndex α} (h : x.Proper) (s : Shape α) : (x.add s).Proper :=
  ⟨h.inOrder, fun c hc => (h.contents c hc).push s⟩

theorem proper_of_no_cells {x : ShapeIndex α} (h : x.cells = #[]) : x.Proper := by
  refine ⟨⟨fun c hc => ?_, ?_⟩, fun c hc => ?_⟩
  · rw [h] at hc
    exact absurd hc List.not_mem_nil
  · rw [h]
    exact .nil
  · rw [h] at hc
    exact absurd hc (Array.not_mem_empty c)

variable [Scalar α]

/-- **The indexes that adding shapes and rebuilding lead to**, in any order, from an empty one. -/
inductive Reachable : ShapeIndex α → Prop where
  | empty {o : IndexOptions α} {x : ShapeIndex α} (h : ShapeIndex.empty o = .ok x) : Reachable x
  | add {x : ShapeIndex α} (h : Reachable x) (s : Shape α) : Reachable (x.add s)
  | rebuild {x : ShapeIndex α} (h : Reachable x) : Reachable x.rebuild

theorem cells_of_empty {o : IndexOptions α} {x : ShapeIndex α} (h : empty o = .ok x) :
    x.cells = #[] := by
  unfold empty at h
  cases hv : o.validate with
  | error e =>
    rw [hv] at h
    cases h
  | ok o =>
    rw [hv] at h
    cases h
    rfl

/-- **Every index in use keeps the invariant.** -/
theorem Reachable.proper {x : ShapeIndex α} (h : x.Reachable) : x.Proper := by
  induction h with
  | empty h => exact proper_of_no_cells (cells_of_empty h)
  | add _ s ih => exact ih.add s
  | rebuild _ _ => exact proper_rebuild _

/-- The index of some shapes and of the cells found for them. -/
def built (o : IndexOptions α) (shapes : List (Shape α)) : ShapeIndex α :=
  let cells := cellsOf o shapes.toArray
  ⟨o, shapes.toArray, cells.toArray, 0, infoOf shapes.toArray cells⟩

theorem empty_eq {o : IndexOptions α} (ho : o.validate = .ok o) :
    empty o = .ok ⟨o, #[], #[], 0, ⟨0, 0, 0, 0⟩⟩ := by
  rw [empty, ho]
  rfl

theorem rebuild_foldl_add (x : ShapeIndex α) (shapes : List (Shape α)) :
    (shapes.foldl add x).rebuild = built x.options (x.shapes.toList ++ shapes) := by
  induction shapes generalizing x with
  | nil =>
    rw [List.foldl_nil, List.append_nil]
    rfl
  | cons s rest ih =>
    rw [List.foldl_cons, ih]
    show built x.options ((x.shapes.push s).toList ++ rest) = _
    rw [Array.toList_push, List.append_assoc]
    rfl

/-- **Building an index** succeeds with all options that make sense. -/
theorem build_eq {o : IndexOptions α} (ho : o.validate = .ok o) (shapes : List (Shape α)) :
    build shapes o = .ok (built o shapes) := by
  rw [build, empty_eq ho]
  apply congrArg Except.ok
  exact rebuild_foldl_add _ shapes

/-- A shape of one edge, from a point of the equator to the pole. -/
def meridian (x y : Float) : Shape Float := ⟨#[⟨⟨x, y, 0⟩, ⟨0, 0, 1⟩⟩]⟩

end ShapeIndex

/-- In double precision the default options make sense. -/
theorem IndexOptions.validate_default_float :
    (IndexOptions.default : IndexOptions Float).validate = .ok .default := by
  unfold validate
  rw [if_neg (by decide), if_neg (by decide +kernel), if_neg (by decide +kernel)]

end SphereIndex
