import SphereIndex.Proofs.Query.Candidates

/-!
# Queries without a history

A query keeps a cursor and the cells found last from one call to the next, and a call is given a list or
a map that may hold something.  Every call moves the cursor before it reads there, finds its cells anew
and makes the list or map anew, so that its answer is the one that a new query gives with an empty one.
-/

namespace SphereIndex.EdgeQuery

variable {α : Type} [Scalar α]

/-! ## 1. Calls -/

/-- **A call of a query**, with what the list or map that it fills holds before. -/
inductive Call (α : Type) where
  | candidates (a b : Vec3 α) (shape : ShapeId) (edges : List Nat)
  | candidatesByShape (a b : Vec3 α) (map : EdgeMap)
  | cells (a b : Vec3 α)
  | cellsInRoot (a b : Vec3 α) (root : PaddedCell α) (list : List StoredCell)

/-- What a call returns, and what the list or map holds after it. -/
inductive Answer where
  | edges (any : Bool) (edges : List Nat)
  | map (any : Bool) (map : EdgeMap)
  | cells (list : List StoredCell)
  | cellsInRoot (any : Bool) (list : List StoredCell)

/-- The same call with an empty list or map. -/
def Call.onEmpty : Call α → Call α
  | .candidates a b shape _ => .candidates a b shape []
  | .candidatesByShape a b _ => .candidatesByShape a b []
  | .cells a b => .cells a b
  | .cellsInRoot a b root _ => .cellsInRoot a b root []

/-- **One call**: its answer and the query after it, if it returns. -/
def run? (q : EdgeQuery α) : Call α → Option (Answer × EdgeQuery α)
  | .candidates a b shape edges =>
    (q.candidates? a b shape edges).map fun (x, q) => (.edges x.any x.result, q)
  | .candidatesByShape a b map =>
    (q.candidatesByShape? a b map).map fun (x, q) => (.map x.any x.result, q)
  | .cells a b => (q.cells? a b).map fun (list, q) => (.cells list, q)
  | .cellsInRoot a b root list =>
    let (x, q) := q.fillCellsInRoot a b root list
    some (.cellsInRoot x.any x.result, q)

/-- The answers to calls one after the other, if all of them return. -/
def answers? (q : EdgeQuery α) : List (Call α) → Option (List Answer)
  | [] => some []
  | call :: rest => (q.run? call).bind fun (x, q) => (q.answers? rest).map (x :: ·)

/-! ## 2. What a query keeps -/

/-- A new query on the same index with the same options. -/
def renewed (q : EdgeQuery α) : EdgeQuery α := ofIndex q.index q.options

variable {q r : EdgeQuery α} {a b : Vec3 α}

/-- What only makes something of the result of a call leaves the same behind. -/
theorem exists_of_map {β γ σ : Type} {call : Option (β × σ)} {f : β × σ → γ} {y : γ} {r : σ}
    (h : call.map (fun x => (f x, x.2)) = some (y, r)) : ∃ x, call = some (x, r) := by
  obtain ⟨⟨x, r'⟩, hcall, heq⟩ := Option.map_eq_some_iff.1 h
  obtain ⟨-, rfl⟩ := Prod.mk.inj heq
  exact ⟨x, hcall⟩

theorem renewed_discover? {n : Nat} (h : q.discover? a b = some (n, r)) : r.renewed = q.renewed := by
  obtain ⟨segments, -, heq⟩ := Option.map_eq_some_iff.1 h
  obtain ⟨-, rfl⟩ := Prod.mk.inj heq
  rfl

theorem renewed_candidates? {shape : ShapeId} {edges : List Nat} {x : Outcome (List Nat)}
    (h : q.candidates? a b shape edges = some (x, r)) : r.renewed = q.renewed := by
  unfold candidates? at h
  split at h
  · obtain ⟨-, rfl⟩ := Prod.mk.inj (Option.some.inj h)
    rfl
  · dsimp only at h
    split at h
    · obtain ⟨-, rfl⟩ := Prod.mk.inj (Option.some.inj h)
      rfl
    · obtain ⟨n, hdiscover⟩ := exists_of_map h
      exact renewed_discover? hdiscover

theorem renewed_candidatesByShape? {map : EdgeMap} {x : Outcome EdgeMap}
    (h : q.candidatesByShape? a b map = some (x, r)) : r.renewed = q.renewed := by
  unfold candidatesByShape? at h
  split at h
  · obtain ⟨y, hcandidates⟩ := exists_of_map h
    exact renewed_candidates? hcandidates
  · obtain ⟨n, hdiscover⟩ := exists_of_map h
    exact renewed_discover? hdiscover

theorem renewed_cells? {list : List StoredCell} (h : q.cells? a b = some (list, r)) :
    r.renewed = q.renewed := by
  obtain ⟨n, hdiscover⟩ := exists_of_map h
  exact renewed_discover? hdiscover

/-- **No call changes the index or the options.** -/
theorem renewed_run? {call : Call α} {x : Answer} (h : q.run? call = some (x, r)) :
    r.renewed = q.renewed := by
  cases call with
  | candidates a b shape edges =>
    obtain ⟨y, hcall⟩ := exists_of_map h
    exact renewed_candidates? hcall
  | candidatesByShape a b map =>
    obtain ⟨y, hcall⟩ := exists_of_map h
    exact renewed_candidatesByShape? hcall
  | cells a b =>
    obtain ⟨y, hcall⟩ := exists_of_map h
    exact renewed_cells? hcall
  | cellsInRoot a b root list =>
    obtain ⟨-, rfl⟩ := Prod.mk.inj (Option.some.inj h)
    rfl

/-! ## 3. What an answer depends on -/

/-- **Two searches with the same result**, on indexes and with options that are the same. -/
structure SameSearch (q : EdgeQuery α) (a b : Vec3 α) (r : EdgeQuery α) (c d : Vec3 α) : Prop where
  index : q.index = r.index
  options : q.options = r.options
  report : q.report? a b = r.report? c d

/-- The cells found do not depend on the cursor or on those found before. -/
theorem sameSearch_renewed (q : EdgeQuery α) (a b : Vec3 α) : SameSearch q a b q.renewed a b := by
  refine ⟨rfl, rfl, ?_⟩
  rw [report?_eq, report?_eq]
  rfl

/-- Calls with the same result give the same, whatever is made of it. -/
theorem map_fst_congr {β γ σ : Type} {x y : Option (β × σ)} (f : β → γ)
    (h : x.map (·.1) = y.map (·.1)) :
    (x.map fun z => (f z.1, z.2)).map (·.1) = (y.map fun z => (f z.1, z.2)).map (·.1) := by
  have hmap := congrArg (Option.map f) h
  rw [Option.map_map, Option.map_map] at hmap ⊢
  exact hmap

namespace SameSearch

variable {c d : Vec3 α}

theorem cells? (h : SameSearch q a b r c d) :
    (q.cells? a b).map (·.1) = (r.cells? c d).map (·.1) := by
  rw [cells?_fst, cells?_fst, h.report]

/-- Whatever the lists held before. -/
theorem candidates? (h : SameSearch q a b r c d) (shape : ShapeId) (edges edges' : List Nat) :
    (q.candidates? a b shape edges).map (·.1) = (r.candidates? c d shape edges').map (·.1) := by
  cases hs : q.index.shape? shape with
  | none =>
    rw [candidates?_of_unknown hs, candidates?_of_unknown (h.index ▸ hs)]
    rfl
  | some s =>
    have hs' : r.index.shape? shape = some s := h.index ▸ hs
    by_cases hfew : s.edges.size ≤ q.options.maxBruteForceEdges
    · rw [candidates?_of_few hs hfew, candidates?_of_few hs' (h.options ▸ hfew)]
      rfl
    · rw [candidates?_of_many hs (Nat.not_le.1 hfew),
        candidates?_of_many hs' (Nat.not_le.1 (h.options ▸ hfew)), h.report]

/-- Whatever the maps held before. -/
theorem candidatesByShape? (h : SameSearch q a b r c d) (map map' : EdgeMap) :
    (q.candidatesByShape? a b map).map (·.1) = (r.candidatesByShape? c d map').map (·.1) := by
  by_cases hone : q.index.numShapes = 1
  · rw [candidatesByShape?_of_one hone map [], candidatesByShape?_of_one (h.index ▸ hone) map' []]
    exact map_fst_congr (fun x => Outcome.mk x.any [((0 : ShapeId), x.result)])
      (h.candidates? 0 [] [])
  · rw [candidatesByShape?_of_many hone, candidatesByShape?_of_many (h.index ▸ hone), h.report]

end SameSearch

/-- **A call is answered as by a new query with an empty list or map.** -/
theorem run?_renewed (q : EdgeQuery α) (call : Call α) :
    (q.run? call).map (·.1) = (q.renewed.run? call.onEmpty).map (·.1) := by
  have hsame (a b : Vec3 α) := sameSearch_renewed q a b
  cases call with
  | candidates a b shape edges =>
    exact map_fst_congr (fun x => Answer.edges x.any x.result)
      ((hsame a b).candidates? shape edges [])
  | candidatesByShape a b map =>
    exact map_fst_congr (fun x => Answer.map x.any x.result) ((hsame a b).candidatesByShape? map [])
  | cells a b => exact map_fst_congr Answer.cells (hsame a b).cells?
  | cellsInRoot a b root list =>
    unfold Call.onEmpty run?
    dsimp only
    rw [Option.map_some, Option.map_some, fillCellsInRoot_fst, fillCellsInRoot_fst]
    rfl

/-- **The answers of a query do not depend on its history.**  Whatever it was asked before, and
whatever the list or map that was passed in held, each call of a sequence is answered as by a new
query on the same index with an empty list or map, and returns if and only if that one does. -/
theorem answers_independent_of_history (q : EdgeQuery α) (calls : List (Call α)) :
    q.answers? calls = calls.mapM fun call =>
      ((ofIndex q.index q.options).run? call.onEmpty).map (·.1) := by
  induction calls generalizing q with
  | nil => rfl
  | cons call rest ih =>
    have hcall : (q.run? call).map (·.1) =
        ((ofIndex q.index q.options).run? call.onEmpty).map (·.1) := run?_renewed q call
    rw [List.mapM_cons, ← hcall]
    unfold answers?
    cases hrun : q.run? call with
    | none => rfl
    | some x =>
      obtain ⟨answer, r⟩ := x
      have hsame : ofIndex r.index r.options = ofIndex q.index q.options := renewed_run? hrun
      rw [Option.bind_some]
      dsimp only
      rw [ih r, hsame, Option.map_eq_bind]
      rfl

end SphereIndex.EdgeQuery
