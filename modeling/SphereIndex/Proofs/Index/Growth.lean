import SphereIndex.Proofs.Index.Reachable

/-!
# Indexes that grow

An index is used by adding shapes and rebuilding it now and then.  At every moment it is made of two
lists of shapes: those that it held when it was last rebuilt, whose cells are those of an index built
of them at once, and those that were added since.  Nothing of earlier rebuilds is left.
-/

namespace SphereIndex.ShapeIndex

variable {α : Type} [Scalar α]

/-! ## 1. Operations -/

/-- **What changes an index.**  A shape that is added may be shared with others that hold it. -/
inductive Operation (α : Type) where
  | add (s : Shape α) (shared : Bool)
  | rebuild

/-- The shape that an operation adds. -/
def Operation.shape? : Operation α → Option (Shape α)
  | .add s _ => some s
  | .rebuild => none

/-- The shapes that some operations add, in order. -/
def added (ops : List (Operation α)) : List (Shape α) := ops.filterMap Operation.shape?

/-- The index after an operation, and the number that a shape was given by it. -/
def perform (x : ShapeIndex α) : Operation α → Option ShapeId × ShapeIndex α
  | .add s _ => (some x.numShapes, x.add s)
  | .rebuild => (none, x.rebuild)

/-- The index after some operations, and the numbers that were given on the way. -/
def run (x : ShapeIndex α) : List (Operation α) → List ShapeId × ShapeIndex α
  | [] => ([], x)
  | op :: rest =>
    let (id, x) := x.perform op
    let (ids, x) := x.run rest
    (id.toList ++ ids, x)

theorem run_append (x : ShapeIndex α) (before after : List (Operation α)) :
    x.run (before ++ after) =
      ((x.run before).1 ++ ((x.run before).2.run after).1, ((x.run before).2.run after).2) := by
  induction before generalizing x with
  | nil => rfl
  | cons op rest ih =>
    simp only [List.cons_append, run, ih, List.append_assoc]

/-! ## 2. The two lists of shapes -/

/-- The index with cells for the shapes `indexed`, and the shapes `waiting` added since. -/
def staged (o : IndexOptions α) (indexed waiting : List (Shape α)) : ShapeIndex α :=
  { built o indexed with
    shapes := (indexed ++ waiting).toArray
    pending := waiting.length }

variable {o : IndexOptions α} {indexed waiting : List (Shape α)}

theorem cellsOf_nil (o : IndexOptions α) : cellsOf o #[] = [] := by
  have hfound : foundCells o #[] = [] := by
    apply List.flatMap_eq_nil_iff.2
    intro f _
    show Subdivision.cellsBelow _ _ [] = []
    rw [Subdivision.cellsBelow, if_pos List.isEmpty_nil]
  rw [cellsOf, hfound, List.mergeSort_nil]

theorem staged_nil (o : IndexOptions α) : staged o [] [] = ⟨o, #[], #[], 0, ⟨0, 0, 0, 0⟩⟩ := by
  show ShapeIndex.mk o _ (cellsOf o #[]).toArray _ (infoOf #[] (cellsOf o #[])) = _
  rw [cellsOf_nil]
  rfl

theorem numShapes_staged : (staged o indexed waiting).numShapes = (indexed ++ waiting).length := rfl

theorem shape?_staged (i : ShapeId) :
    (staged o indexed waiting).shape? i = (indexed ++ waiting)[i]? := List.getElem?_toArray

theorem isFresh_staged : (staged o indexed waiting).isFresh ↔ waiting = [] := by
  show (waiting.length == 0) = true ↔ _
  rw [beq_iff_eq, List.length_eq_zero_iff]

theorem add_staged (s : Shape α) :
    (staged o indexed waiting).add s = staged o indexed (waiting ++ [s]) := by
  show ShapeIndex.mk _ ((indexed ++ waiting).toArray.push s) _ (waiting.length + 1) _ =
    ShapeIndex.mk _ (indexed ++ (waiting ++ [s])).toArray _ (waiting ++ [s]).length _
  rw [List.push_toArray, List.append_assoc, List.length_append]
  rfl

/-- **Rebuilding forgets** which of the shapes had cells before. -/
theorem rebuild_staged : (staged o indexed waiting).rebuild = staged o (indexed ++ waiting) [] := by
  show built o (indexed ++ waiting) = { built o (indexed ++ waiting) with
    shapes := (indexed ++ waiting ++ []).toArray, pending := 0 }
  rw [List.append_nil]
  rfl

/-! ## 3. Runs -/

/-- As long as the index is not rebuilt, all that is added has to wait. -/
theorem run_staged_of_no_rebuild {ops : List (Operation α)} (h : .rebuild ∉ ops) :
    ((staged o indexed waiting).run ops).2 = staged o indexed (waiting ++ added ops) := by
  induction ops generalizing waiting with
  | nil =>
    show staged o indexed waiting = staged o indexed (waiting ++ [])
    rw [List.append_nil]
  | cons op rest ih =>
    cases op with
    | add s shared =>
      show (((staged o indexed waiting).add s).run rest).2 = staged o indexed (waiting ++ ([s] ++ _))
      rw [add_staged, ih (mt (List.mem_cons_of_mem _) h), List.append_assoc]
      rfl
    | rebuild => exact absurd List.mem_cons_self h

/-- **After any run** the index holds all shapes that were added, each of them indexed or waiting,
and gave them consecutive numbers. -/
theorem exists_staged_run (o : IndexOptions α) (indexed waiting : List (Shape α))
    (ops : List (Operation α)) :
    ∃ indexed' waiting', indexed' ++ waiting' = indexed ++ waiting ++ added ops ∧
      (staged o indexed waiting).run ops =
        (List.range' (indexed ++ waiting).length (added ops).length, staged o indexed' waiting') := by
  induction ops generalizing indexed waiting with
  | nil => exact ⟨indexed, waiting, (List.append_nil _).symm, rfl⟩
  | cons op rest ih =>
    cases op with
    | add s shared =>
      obtain ⟨indexed', waiting', happend, hrun⟩ := @ih indexed (waiting ++ [s])
      -- The new shape comes after all others, in the list of those that wait.
      refine ⟨indexed', waiting', ?_, ?_⟩
      · rw [happend]
        simp [added, Operation.shape?]
      · show (_ :: (((staged o indexed waiting).add s).run rest).1,
          (((staged o indexed waiting).add s).run rest).2) = _
        rw [add_staged, hrun, numShapes_staged]
        simp [added, Operation.shape?, List.range'_succ, Nat.add_assoc]
    | rebuild =>
      obtain ⟨indexed', waiting', happend, hrun⟩ := @ih (indexed ++ waiting) []
      -- Nothing waits now; the list of all shapes is the same.
      rw [List.append_nil] at happend hrun
      refine ⟨indexed', waiting', happend, ?_⟩
      show (((staged o indexed waiting).rebuild.run rest).1,
        ((staged o indexed waiting).rebuild.run rest).2) = _
      rw [rebuild_staged, hrun]
      rfl

/-- What comes after the last rebuild waits, and all that came before it is indexed. -/
theorem run_staged_of_last_rebuild {before after : List (Operation α)} (h : .rebuild ∉ after) :
    ((staged o [] []).run (before ++ .rebuild :: after)).2 =
      staged o (added before) (added after) := by
  obtain ⟨indexed, waiting, happend, hrun⟩ :=
    exists_staged_run o [] [] before
  rw [run_append, hrun]
  show ((staged o indexed waiting).rebuild.run after).2 = _
  rw [rebuild_staged, run_staged_of_no_rebuild h, happend]
  rfl

/-- **An index that grows agrees with one built at once.**  After any operations on a new index, the
shapes have the numbers from 0 in the order in which they were added, the cells and the summary are
those of an index built of the shapes that were there at the last rebuild, and none before the first
one, and the index is fresh if and only if nothing was added since. -/
theorem run_agrees_with_build (ho : o.validate = .ok o) (ops : List (Operation α)) :
    ∃ x y, empty o = .ok x ∧ x.run ops = (List.range (added ops).length, y) ∧
      y.numShapes = (added ops).length ∧ (∀ i, y.shape? i = (added ops)[i]?) ∧
      (.rebuild ∉ ops →
        y.cells = #[] ∧ y.info = ⟨0, 0, 0, 0⟩ ∧ (y.isFresh ↔ added ops = [])) ∧
      ∀ before after, ops = before ++ .rebuild :: after → .rebuild ∉ after →
        ∃ z, build (added before) o = .ok z ∧ y.cells = z.cells ∧ y.info = z.info ∧
          (y.isFresh ↔ added after = []) := by
  obtain ⟨indexed, waiting, happend, hrun⟩ :=
    exists_staged_run o [] [] ops
  have hstate : ((staged o [] []).run ops).2 = staged o indexed waiting := by rw [hrun]
  have hall : indexed ++ waiting = added ops := happend
  refine ⟨staged o [] [], staged o indexed waiting, ?_, ?_, ?_, ?_, ?_, ?_⟩
  · rw [staged_nil]
    exact empty_eq ho
  · rw [hrun, List.range_eq_range']
    rfl
  · rw [numShapes_staged, hall]
  · intro i
    rw [shape?_staged, hall]
  · intro hnone
    rw [← hstate, run_staged_of_no_rebuild hnone, List.nil_append]
    have hnil := staged_nil o
    exact ⟨congrArg cells hnil, congrArg info hnil, isFresh_staged⟩
  · intro before after hops hafter
    refine ⟨built o (added before), build_eq ho _, ?_⟩
    rw [← hstate, hops, run_staged_of_last_rebuild hafter]
    exact ⟨rfl, rfl, isFresh_staged⟩

/-! ## 4. Numbers of 32 bits -/

/-- **What is asserted whenever a shape is added**: there are fewer shapes than can be numbered. -/
def HasRoom (x : ShapeIndex α) : List (Operation α) → Prop
  | [] => True
  | .add s _ :: rest => x.numShapes < maxShapes ∧ (x.add s).HasRoom rest
  | .rebuild :: rest => x.rebuild.HasRoom rest

/-- **Where the assertion holds, all numbers have 32 bits.** -/
theorem toNat_of_hasRoom {x : ShapeIndex α} {ops : List (Operation α)} (h : x.HasRoom ops) :
    ∀ id ∈ (x.run ops).1, (UInt32.ofNat id).toNat = id := by
  induction ops generalizing x with
  | nil => nofun
  | cons op rest ih =>
    cases op with
    | add s shared =>
      obtain ⟨hlt, hrest⟩ := h
      intro id hid
      rcases List.mem_cons.1 hid with rfl | hid
      · exact UInt32.toNat_ofNat_of_lt' (hlt.trans (by decide))
      · exact ih hrest id hid
    | rebuild => exact ih h

/-- **There is room for all shapes** if there is a number for the last one. -/
theorem hasRoom_iff {x : ShapeIndex α} {ops : List (Operation α)} :
    x.HasRoom ops ↔ (added ops).length = 0 ∨ x.numShapes + (added ops).length ≤ maxShapes := by
  induction ops generalizing x with
  | nil => exact iff_of_true trivial (.inl rfl)
  | cons op rest ih =>
    cases op with
    | add s shared =>
      have hadded : (added (.add s shared :: rest)).length = (added rest).length + 1 := rfl
      rw [HasRoom, ih, numShapes_add, hadded]
      omega
    | rebuild => exact ih

/-- Two meridians in double precision, with a rebuild between them. -/
theorem run_add_rebuild_add :
    (IndexOptions.default : IndexOptions Float).validate = .ok .default ∧
    ∃ x y z, empty .default = .ok x ∧
      x.run [.add (meridian 1 0) false, .rebuild, .add (meridian 0 1) true] = ([0, 1], y) ∧
      y.shape? 1 = some (meridian 0 1) ∧ build [meridian 1 0] .default = .ok z ∧
      y.cells = z.cells ∧ y.info = z.info ∧ ¬y.isFresh := by
  have ho := IndexOptions.validate_default_float
  obtain ⟨x, y, hx, hrun, _, hshape, _, hlast⟩ :=
    run_agrees_with_build ho [.add (meridian 1 0) false, .rebuild, .add (meridian 0 1) true]
  obtain ⟨z, hz, hcells, hinfo, hfresh⟩ :=
    hlast [.add (meridian 1 0) false] [.add (meridian 0 1) true] rfl (by simp)
  refine ⟨ho, x, y, z, hx, hrun, hshape 1, hz, hcells, hinfo, fun h => ?_⟩
  exact List.cons_ne_nil _ _ (hfresh.1 h)

end SphereIndex.ShapeIndex
