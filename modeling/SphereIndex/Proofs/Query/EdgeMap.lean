import SphereIndex.Query.EdgeMap

/-!
# Collecting edges by shape

The map is kept by ascending shape, so a shape that is added goes to its place.  After all groups of
some cells have been added, the list of a shape is what they have for it, one after the other.
-/

namespace SphereIndex.EdgeMap

def Ordered (m : EdgeMap) : Prop := m.Pairwise fun a b => a.1 < b.1

variable {m : EdgeMap} {f : List Nat → List Nat} {shape : ShapeId}

theorem find?_eq_none (h : ∀ x ∈ m, x.1 ≠ shape) : m.find? shape = none := by
  induction m with
  | nil => rfl
  | cons x rest ih =>
    rw [find?, if_neg (h x List.mem_cons_self)]
    exact ih fun y hy => h y (List.mem_cons_of_mem _ hy)

theorem mem_alter {x : ShapeId × List Nat} (hx : x ∈ m.alter f shape) :
    x.1 = shape ∨ ∃ y ∈ m, y.1 = x.1 := by
  induction m with
  | nil =>
    rw [alter, List.mem_singleton] at hx
    exact .inl (congrArg Prod.fst hx)
  | cons y rest ih =>
    rw [alter] at hx
    split at hx
    · rcases List.mem_cons.1 hx with rfl | hx
      · exact .inl rfl
      · exact .inr ⟨x, hx, rfl⟩
    · split at hx
      · rcases List.mem_cons.1 hx with rfl | hx
        · exact .inr ⟨y, List.mem_cons_self, rfl⟩
        · exact .inr ⟨x, List.mem_cons_of_mem _ hx, rfl⟩
      · rcases List.mem_cons.1 hx with rfl | hx
        · exact .inr ⟨y, List.mem_cons_self, rfl⟩
        · rcases ih hx with heq | ⟨z, hz, heq⟩
          · exact .inl heq
          · exact .inr ⟨z, List.mem_cons_of_mem _ hz, heq⟩

theorem Ordered.alter (h : Ordered m) : Ordered (m.alter f shape) := by
  induction m with
  | nil => exact List.pairwise_singleton _ _
  | cons y rest ih =>
    have hy : ∀ z ∈ rest, y.1 < z.1 := fun z hz => List.rel_of_pairwise_cons h hz
    rw [EdgeMap.alter]
    split
    · rename_i hlt
      refine .cons (fun z hz => ?_) h
      rcases List.mem_cons.1 hz with rfl | hz
      · exact hlt
      · exact Nat.lt_trans hlt (hy z hz)
    · rename_i hle
      split
      · exact .cons hy h.of_cons
      · -- Every shape of the changed rest is an old one or the new one.
        rename_i hne
        refine .cons (fun z hz => ?_) (ih h.of_cons)
        rcases mem_alter hz with heq | ⟨w, hw, heq⟩
        · rw [heq]
          exact Nat.lt_of_le_of_ne (Nat.not_lt.1 hle) (Ne.symm hne)
        · rw [← heq]
          exact hy w hw

/-- **The list of the changed shape**, in a map by ascending shape. -/
theorem find?_alter_self (h : Ordered m) :
    (m.alter f shape).find? shape = some (f (m.edgesOf shape)) := by
  induction m with
  | nil => exact if_pos rfl
  | cons y rest ih =>
    have hy : ∀ z ∈ rest, y.1 < z.1 := fun z hz => List.rel_of_pairwise_cons h hz
    rw [alter, edgesOf]
    split
    · -- All shapes of the map come after the new one.
      rename_i hlt
      have hnone : EdgeMap.find? (y :: rest) shape = none := find?_eq_none fun z hz => by
        rcases List.mem_cons.1 hz with rfl | hz
        · exact Nat.ne_of_gt hlt
        · exact Nat.ne_of_gt (Nat.lt_trans hlt (hy z hz))
      rw [find?, if_pos rfl, hnone]
      rfl
    · split
      · rename_i heq
        rw [find?, if_pos heq.symm, find?, if_pos heq.symm]
        rfl
      · rename_i hne
        rw [find?, if_neg (Ne.symm hne), ih h.of_cons, find?, if_neg (Ne.symm hne)]
        rfl

/-- **What the groups have for a shape** is collected in order. -/
theorem edgesOf_foldl_append (h : Ordered m) (groups : List ClippedShape) (shape : ShapeId) :
    (groups.foldl append m).edgesOf shape = m.edgesOf shape ++
      groups.flatMap fun g => if g.shape = shape then g.edges else [] := by
  induction groups generalizing m with
  | nil => exact (List.append_nil _).symm
  | cons g rest ih =>
    have hstep : (m.append g).edgesOf shape =
        m.edgesOf shape ++ if g.shape = shape then g.edges else [] := by
      unfold append
      by_cases heq : g.shape = shape
      · rw [edgesOf, heq, find?_alter_self h, if_pos rfl]
        rfl
      · rw [edgesOf, find?_alter_of_ne (Ne.symm heq), if_neg heq, List.append_nil]
        rfl
    rw [List.foldl_cons, ih (show Ordered (m.append g) from h.alter), hstep, List.flatMap_cons,
      List.append_assoc]

/-- The lookup of a shape gives its entry, in a map by ascending shape. -/
theorem find?_eq_some_iff (h : Ordered m) {edges : List Nat} :
    m.find? shape = some edges ↔ (shape, edges) ∈ m := by
  induction m with
  | nil => simp [find?]
  | cons y rest ih =>
    obtain ⟨s, es⟩ := y
    have hy : ∀ z ∈ rest, s < z.1 := fun z hz => List.rel_of_pairwise_cons h hz
    rw [find?, List.mem_cons]
    by_cases heq : s = shape
    · subst heq
      rw [if_pos rfl, Option.some_inj, Prod.mk.injEq, eq_comm (a := s), eq_comm (a := edges)]
      -- No later entry has the same shape.
      have hlater : (s, edges) ∉ rest := fun hmem => Nat.lt_irrefl _ (hy _ hmem)
      simp [hlater]
    · rw [if_neg heq, ih h.of_cons, Prod.mk.injEq]
      simp [Ne.symm heq]

theorem edgesOf_of_mem (h : Ordered m) {x : ShapeId × List Nat} (hx : x ∈ m) :
    m.edgesOf x.1 = x.2 := by
  rw [edgesOf, (find?_eq_some_iff h).2 hx]
  rfl

/-- **The shapes of the map** after groups have been added are its own and those of the groups. -/
theorem isSome_find?_foldl_append (h : Ordered m) (groups : List ClippedShape) (shape : ShapeId) :
    ((groups.foldl append m).find? shape).isSome = true ↔
      (m.find? shape).isSome = true ∨ ∃ g ∈ groups, g.shape = shape := by
  induction groups generalizing m with
  | nil => simp
  | cons g rest ih =>
    have hstep : ((m.append g).find? shape).isSome = true ↔
        (m.find? shape).isSome = true ∨ g.shape = shape := by
      unfold append
      by_cases heq : g.shape = shape
      · subst heq
        simp [find?_alter_self h]
      · simp [find?_alter_of_ne (Ne.symm heq), heq]
    rw [List.foldl_cons, ih (show Ordered (m.append g) from h.alter), hstep, or_assoc]
    simp only [List.mem_cons, exists_eq_or_imp]

theorem Ordered.foldl_append (h : Ordered m) (groups : List ClippedShape) :
    Ordered (groups.foldl EdgeMap.append m) := by
  induction groups generalizing m with
  | nil => exact h
  | cons g rest ih => exact ih h.alter

theorem find?_sorted (m : EdgeMap) (shape : ShapeId) :
    m.sorted.find? shape = (m.find? shape).map ascending := by
  induction m with
  | nil => rfl
  | cons y rest ih =>
    obtain ⟨s, edges⟩ := y
    change find? ((s, ascending edges) :: sorted rest) shape = _
    rw [find?, find?]
    split
    · rfl
    · exact ih

theorem edgesOf_sorted (m : EdgeMap) (shape : ShapeId) :
    m.sorted.edgesOf shape = ascending (m.edgesOf shape) := by
  rw [edgesOf, edgesOf, find?_sorted]
  cases m.find? shape with
  | none => simp [ascending, dropRepeats]
  | some edges => rfl

theorem Ordered.sorted (h : Ordered m) : Ordered m.sorted := List.pairwise_map.2 h

theorem exists_find? {e : Nat} (h : e ∈ m.edgesOf shape) :
    ∃ edges, m.find? shape = some edges ∧ e ∈ edges := by
  unfold edgesOf at h
  cases hf : m.find? shape with
  | none =>
    rw [hf] at h
    cases h
  | some edges =>
    rw [hf] at h
    exact ⟨edges, rfl, h⟩

end SphereIndex.EdgeMap
