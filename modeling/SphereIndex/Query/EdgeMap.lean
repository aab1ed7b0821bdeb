import SphereIndex.Index.Content

/-!
# Ascending lists and edge maps

A query reports edges as a strictly ascending list, and the edges of several shapes as a map from
shapes to such lists, kept by ascending shape.
-/

namespace SphereIndex

/-! ## 1. Ascending lists -/

/-- The list with runs of equal members cut down to one. -/
def dropRepeats : List Nat → List Nat
  | [] => []
  | [x] => [x]
  | x :: y :: rest => if x = y then dropRepeats (y :: rest) else x :: dropRepeats (y :: rest)

/-- **The members of a list in strictly ascending order.** -/
def ascending (xs : List Nat) : List Nat := dropRepeats (xs.mergeSort (· ≤ ·))

@[simp] theorem mem_dropRepeats {n : Nat} {xs : List Nat} : n ∈ dropRepeats xs ↔ n ∈ xs := by
  fun_induction dropRepeats xs with
  | case1 => rfl
  | case2 => rfl
  | case3 y rest ih => simp [ih]
  | case4 x y rest _ ih => simp [ih]

@[simp] theorem mem_ascending {n : Nat} {xs : List Nat} : n ∈ ascending xs ↔ n ∈ xs := by
  simp [ascending]

theorem pairwise_dropRepeats {xs : List Nat} (h : xs.Pairwise (· ≤ ·)) :
    (dropRepeats xs).Pairwise (· < ·) := by
  fun_induction dropRepeats xs with
  | case1 => exact .nil
  | case2 => exact List.pairwise_singleton _ _
  | case3 y rest ih => exact ih h.of_cons
  | case4 x y rest hne ih =>
    refine .cons (fun n hn => ?_) (ih h.of_cons)
    have hx := List.rel_of_pairwise_cons h List.mem_cons_self
    rcases List.mem_cons.1 (mem_dropRepeats.1 hn) with rfl | hn
    · omega
    · have := List.rel_of_pairwise_cons h.of_cons hn
      omega

theorem pairwise_ascending (xs : List Nat) : (ascending xs).Pairwise (· < ·) := by
  have trans (a b c : Nat) : decide (a ≤ b) = true → decide (b ≤ c) = true →
      decide (a ≤ c) = true := by simpa using Nat.le_trans
  have total (a b : Nat) : (decide (a ≤ b) || decide (b ≤ a)) = true := by
    simpa using Nat.le_total a b
  exact pairwise_dropRepeats ((List.pairwise_mergeSort trans total xs).imp of_decide_eq_true)

/-! ## 2. Maps -/

/-- The edges of some shapes, by ascending shape. -/
abbrev EdgeMap := List (ShapeId × List Nat)

namespace EdgeMap

def find? : EdgeMap → ShapeId → Option (List Nat)
  | [], _ => none
  | (s, edges) :: rest, shape => if s = shape then some edges else find? rest shape

def edgesOf (m : EdgeMap) (shape : ShapeId) : List Nat := (m.find? shape).getD []

/-- The map with the list of one shape changed; a shape that is not there starts from no edges. -/
def alter (f : List Nat → List Nat) (shape : ShapeId) : EdgeMap → EdgeMap
  | [] => [(shape, f [])]
  | (s, edges) :: rest =>
    if shape < s then (shape, f []) :: (s, edges) :: rest
    else if shape = s then (s, f edges) :: rest
    else (s, edges) :: alter f shape rest

theorem find?_alter_of_ne {f : List Nat → List Nat} {shape other : ShapeId} (h : other ≠ shape)
    (m : EdgeMap) : find? (m.alter f shape) other = m.find? other := by
  induction m with
  | nil => simp [alter, find?, h.symm]
  | cons x rest ih =>
    obtain ⟨s, edges⟩ := x
    rw [alter]
    split
    · simp [find?, h.symm]
    · split
      · rename_i hs
        subst hs
        simp [find?, h.symm]
      · simp [find?, ih]

def append (m : EdgeMap) (c : ClippedShape) : EdgeMap := m.alter (· ++ c.edges) c.shape

def insert (m : EdgeMap) (shape : ShapeId) (edges : List Nat) : EdgeMap :=
  m.alter (fun _ => edges) shape

def sorted (m : EdgeMap) : EdgeMap := m.map fun (s, edges) => (s, ascending edges)

end EdgeMap

end SphereIndex
