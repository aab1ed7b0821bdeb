import SphereIndex.Proofs.Shape.Unit
import SphereIndex.Shape

/-!
# The vertices of shapes

Polylines and edge sets move their points onto the unit sphere.  What they store for a point whose
squared length is computed without loss is a unit vector.  For a point whose squared length
overflows it is the zero vector: only the point is asked for being finite, not its squared length.
-/

namespace SphereIndex

variable {α : Type} [Scalar α] {p v : Vec3 Float}

/-! ## 1. Single vertices -/

/-- **What is stored for a point.** -/
structure IsVertexOf (p v : Vec3 Float) : Prop where
  /-- Without overflow and without a loss of bits, a unit vector. -/
  isUnit : p.HasNormalLength → v.isUnit = true
  /-- After an overflow, another vector. -/
  isUnit_eq_false : p.lengthSquared.isFinite = false → v.isUnit = false

theorem isVertexOf_of_unitVertex {index : ℕ} (h : unitVertex p index = .ok v) : IsVertexOf p v := by
  unfold unitVertex at h
  split at h
  · cases h
  · rename_i haccepted
    have hp : p.isFinite = true := by
      by_contra hne
      simp [hne] at haccepted
    split at h
    · rename_i hunit
      cases h
      refine ⟨fun _ => hunit, fun hlen => ?_⟩
      rw [(Vec3.isFinite_of_isUnit hunit).1] at hlen
      cases hlen
    · cases h
      exact ⟨Vec3.isUnit_normalize hp, Vec3.isUnit_normalize_eq_false⟩

/-! ## 2. Polylines -/

theorem forall₂_of_mapM_zipIdx {ε β γ : Type} {f : β × ℕ → Except ε γ} {xs : List β} {ys : List γ}
    {n : ℕ} (h : (xs.zipIdx n).mapM f = .ok ys) :
    List.Forall₂ (fun x y => ∃ i, f (x, i) = .ok y) xs ys := by
  induction xs generalizing n ys with
  | nil =>
    cases h
    exact .nil
  | cons x xs ih =>
    rw [List.zipIdx_cons, List.mapM_cons] at h
    cases hx : f (x, n) with
    | error e =>
      rw [hx] at h
      cases h
    | ok y =>
      rw [hx] at h
      change ((xs.zipIdx (n + 1)).mapM f >>= fun zs => pure (y :: zs)) = .ok ys at h
      cases htail : (xs.zipIdx (n + 1)).mapM f with
      | error e =>
        rw [htail] at h
        cases h
      | ok zs =>
        rw [htail] at h
        cases h
        exact .cons ⟨n, hx⟩ (ih htail)

theorem isVertexOf_of_ofPoints {points : List (Vec3 Float)} {poly : Polyline Float}
    (h : Polyline.ofPoints points = .ok poly) :
    List.Forall₂ IsVertexOf points poly.vertices := by
  unfold Polyline.ofPoints at h
  split at h
  · cases h
  · cases hvertices : points.zipIdx.mapM fun (p, i) => unitVertex p i with
    | error e =>
      rw [hvertices] at h
      cases h
    | ok vertices =>
      rw [hvertices] at h
      cases h
      exact (forall₂_of_mapM_zipIdx hvertices).imp fun p v ⟨i, hv⟩ => isVertexOf_of_unitVertex hv

/-! ## 3. Edge sets -/

namespace EdgeSet

/-- Pushing an edge in place. -/
def pushInPlace (a b : Vec3 α) : ExceptT (ShapeError α) (StateM (EdgeSet α)) Unit := do
  let index := 2 * (← get).edges.size
  let v0 ← MonadExcept.ofExcept (unitVertex a index)
  let v1 ← MonadExcept.ofExcept (unitVertex b (index + 1))
  modify fun s => ⟨s.edges.push ⟨v0, v1⟩⟩

/-- Pushing edges in place one after another, whether or not those before were refused. -/
def pushAll (calls : List (Vec3 α × Vec3 α)) :
    StateM (EdgeSet α) (List (Except (ShapeError α) Unit)) :=
  calls.mapM fun (a, b) => (pushInPlace a b).run

/-- **Pushing in place** leaves the set with one more edge, or as it was. -/
theorem pushInPlace_run (s : EdgeSet α) (a b : Vec3 α) : (pushInPlace a b).run.run s =
    match s.push a b with
    | .ok s' => (.ok (), s')
    | .error e => (.error e, s) := by
  change ((MonadExcept.ofExcept (unitVertex a (2 * s.edges.size)) >>= fun v0 =>
    MonadExcept.ofExcept (unitVertex b (2 * s.edges.size + 1)) >>= fun v1 =>
    modify fun s => ⟨s.edges.push ⟨v0, v1⟩⟩ :
      ExceptT (ShapeError α) (StateM (EdgeSet α)) Unit).run.run s) =
    match (unitVertex a (2 * s.edges.size) >>= fun v0 =>
      unitVertex b (2 * s.edges.size + 1) >>= fun v1 => .ok ⟨s.edges.push ⟨v0, v1⟩⟩) with
    | .ok s' => (.ok (), s')
    | .error e => (.error e, s)
  cases unitVertex a (2 * s.edges.size) with
  | error e => rfl
  | ok v0 => cases unitVertex b (2 * s.edges.size + 1) <;> rfl

theorem push_eq_ok {s s' : EdgeSet α} {a b : Vec3 α} (h : s.push a b = .ok s') :
    ∃ v0 v1, unitVertex a (2 * s.edges.size) = .ok v0 ∧
      unitVertex b (2 * s.edges.size + 1) = .ok v1 ∧ s' = ⟨s.edges.push ⟨v0, v1⟩⟩ := by
  change (unitVertex a (2 * s.edges.size) >>= fun v0 =>
    unitVertex b (2 * s.edges.size + 1) >>= fun v1 => .ok ⟨s.edges.push ⟨v0, v1⟩⟩) = .ok s' at h
  cases ha : unitVertex a (2 * s.edges.size) with
  | error e =>
    rw [ha] at h
    cases h
  | ok v0 => cases hb : unitVertex b (2 * s.edges.size + 1) with
    | error e =>
      rw [ha, hb] at h
      cases h
    | ok v1 =>
      rw [ha, hb] at h
      cases h
      exact ⟨v0, v1, rfl, rfl, rfl⟩

/-- A push that is refused leaves the set as it was. -/
theorem pushInPlace_of_error {s : EdgeSet α} {a b : Vec3 α} {e : ShapeError α}
    (h : ((pushInPlace a b).run.run s).1 = .error e) : ((pushInPlace a b).run.run s).2 = s := by
  rw [pushInPlace_run] at h ⊢
  cases hpush : s.push a b with
  | error e => rfl
  | ok s' =>
    rw [hpush] at h
    cases h

/-- **What one push may add.** -/
theorem mem_edges_of_pushInPlace {s : EdgeSet Float} {a b : Vec3 Float} {e : Edge Float}
    (h : e ∈ ((pushInPlace a b).run.run s).2.edges) :
    e ∈ s.edges ∨ IsVertexOf a e.v0 ∧ IsVertexOf b e.v1 := by
  rw [pushInPlace_run] at h
  cases hpush : s.push a b with
  | error err =>
    rw [hpush] at h
    exact .inl h
  | ok s' =>
    rw [hpush] at h
    obtain ⟨v0, v1, ha, hb, rfl⟩ := push_eq_ok hpush
    rcases Array.mem_push.1 h with hmem | rfl
    · exact .inl hmem
    · exact .inr ⟨isVertexOf_of_unitVertex ha, isVertexOf_of_unitVertex hb⟩

/-- **What any sequence of pushes adds.** -/
theorem mem_edges_of_pushAll {calls : List (Vec3 Float × Vec3 Float)} {s : EdgeSet Float}
    {e : Edge Float} (h : e ∈ ((pushAll calls).run s).2.edges) :
    e ∈ s.edges ∨ ∃ c ∈ calls, IsVertexOf c.1 e.v0 ∧ IsVertexOf c.2 e.v1 := by
  induction calls generalizing s with
  | nil => exact .inl h
  | cons c calls ih =>
    have hrun : ((pushAll (c :: calls)).run s).2 =
        ((pushAll calls).run ((pushInPlace c.1 c.2).run.run s).2).2 := by
      unfold pushAll
      rw [List.mapM_cons]
      rfl
    rw [hrun] at h
    rcases ih h with hmem | ⟨d, hd, hvertices⟩
    · rcases mem_edges_of_pushInPlace hmem with hmem | hvertices
      · exact .inl hmem
      · exact .inr ⟨c, List.mem_cons_self, hvertices⟩
    · exact .inr ⟨d, List.mem_cons_of_mem c hd, hvertices⟩

end EdgeSet

/-! ## 4. Shapes -/

/-- **The vertices of shapes**: what `IsVertexOf` tells of any point that is given to them, and that
a refused edge changes nothing. -/
theorem vertices_of_shapes (points : List (Vec3 Float)) (calls : List (Vec3 Float × Vec3 Float))
    (s : EdgeSet Float) (a b : Vec3 Float) :
    (∀ poly, Polyline.ofPoints points = .ok poly →
      List.Forall₂ IsVertexOf points poly.vertices) ∧
    (∀ e ∈ ((EdgeSet.pushAll calls).run EdgeSet.empty).2.edges,
      ∃ c ∈ calls, IsVertexOf c.1 e.v0 ∧ IsVertexOf c.2 e.v1) ∧
    (∀ e, ((EdgeSet.pushInPlace a b).run.run s).1 = .error e →
      ((EdgeSet.pushInPlace a b).run.run s).2 = s) := by
  refine ⟨fun _ => isVertexOf_of_ofPoints, fun e he => ?_,
    fun _ => EdgeSet.pushInPlace_of_error⟩
  rcases EdgeSet.mem_edges_of_pushAll he with hmem | hvertices
  · exact absurd hmem (Array.not_mem_empty e)
  · exact hvertices

/-- A point outside the sphere, on the first axis. -/
def longPoint : Vec3 Float := ⟨2, 0, 0⟩

/-- A point farther outside, on the second axis. -/
def longerPoint : Vec3 Float := ⟨0, 3, 0⟩

theorem vertices_of_long_points :
    (∃ poly, Polyline.ofPoints [longPoint, longerPoint] = .ok poly ∧
      ∀ v ∈ poly.vertices, v.isUnit = true) ∧
    (((EdgeSet.pushAll [(longPoint, longerPoint)]).run EdgeSet.empty).2.edges.size = 1 ∧
      ∀ e ∈ ((EdgeSet.pushAll [(longPoint, longerPoint)]).run EdgeSet.empty).2.edges,
        e.v0.isUnit = true ∧ e.v1.isUnit = true) ∧
    ((EdgeSet.pushInPlace Vec3.zero longerPoint).run.run EdgeSet.empty).2 = EdgeSet.empty := by
  obtain ⟨hpolyline, hedges, hrefused⟩ := vertices_of_shapes [longPoint, longerPoint]
    [(longPoint, longerPoint)] EdgeSet.empty Vec3.zero longerPoint
  refine ⟨?_, ⟨by decide +kernel, fun e he => ?_⟩, ?_⟩
  · have hok : (Polyline.ofPoints [longPoint, longerPoint]).isOk = true := by decide +kernel
    cases hpoly : Polyline.ofPoints [longPoint, longerPoint] with
    | error e =>
      rw [hpoly] at hok
      cases hok
    | ok poly =>
      refine ⟨poly, rfl, ?_⟩
      have hvertices := hpolyline poly hpoly
      generalize poly.vertices = vertices at hvertices ⊢
      rcases hvertices with _ | ⟨hfirst, _ | ⟨hsecond, ⟨⟩⟩⟩
      rintro v (_ | ⟨_, _ | ⟨_, ⟨⟩⟩⟩)
      · exact hfirst.isUnit (by decide +kernel)
      · exact hsecond.isUnit (by decide +kernel)
  · obtain ⟨c, hc, hfirst, hsecond⟩ := hedges e he
    cases List.mem_singleton.1 hc
    exact ⟨hfirst.isUnit (by decide +kernel), hsecond.isUnit (by decide +kernel)⟩
  · have hok : ((EdgeSet.pushInPlace Vec3.zero longerPoint).run.run EdgeSet.empty).1.isOk =
      false := by decide +kernel
    cases hpush : ((EdgeSet.pushInPlace Vec3.zero longerPoint).run.run EdgeSet.empty).1 with
    | ok _ =>
      rw [hpush] at hok
      cases hok
    | error e => exact hrefused e hpush

/-- A vertex of which the squared length overflows: the coordinate is `10 ^ 200`. -/
theorem polyline_of_huge_point :
    (Polyline.ofPoints [⟨Float.ofBits 0x6974e718d7d7625a, 0, 0⟩, ⟨1, 0, 0⟩]).toOption.map
      (fun poly => poly.vertices.map Vec3.isUnit) = some [false, true] := by
  decide +kernel

end SphereIndex
