import SphereIndex.Cell.Table
import SphereIndex.Proofs.Cell.Coordinates

/-!
# The tables hold the curve

Every piece of four digits is entered under its own index, so that no entry is overwritten and each
reads back as the piece that was entered there.  A path is joined from such pieces, and what follows a
piece depends only on the orientation after it.  So ids made by the tables are those made by the path,
and coordinates read by the tables are those that following the path leads to.
-/

namespace SphereIndex

/-! ## 1. Pieces of a path -/

namespace Orientation

/-- The orientation after a path. -/
def follow (o : Orientation) (path : List Digit) : Orientation := path.foldl child o

theorem number_lt (o : Orientation) : o.number < 4 := by
  rcases o with ⟨_ | _, _ | _⟩ <;> decide

@[simp] theorem ofNumber_number (o : Orientation) : ofNumber o.number = o := by
  rcases o with ⟨_ | _, _ | _⟩ <;> rfl

theorem number_ofFace (face : Nat) : (ofFace face).number = face % 2 := by
  unfold ofFace number
  rcases Nat.mod_two_eq_zero_or_one face with h | h <;> rw [h] <;> rfl

theorem mem_all (o : Orientation) : o ∈ all := by
  rcases o with ⟨_ | _, _ | _⟩ <;> decide

end Orientation

namespace Spot

theorem orientation_follow (s : Spot) (path : List Digit) :
    (s.follow path).orientation = s.orientation.follow path := by
  induction path generalizing s with
  | nil => rfl
  | cons d path ih => exact ih (s.down d)

/-- **Following a path from a spot** is following it from the corner of the spot's own cell. -/
theorem follow_along (s : Spot) (path : List Digit) (axis : Axis) :
    (s.follow path).along axis =
      s.along axis * 2 ^ path.length + ((start s.orientation).follow path).along axis := by
  induction path using List.reverseRecOn with
  | nil => simp [start_along]
  | append_singleton path d ih =>
    have hlast (s : Spot) : s.follow (path ++ [d]) = (s.follow path).down d := by
      rw [follow_append]
      rfl
    rw [hlast, hlast, down_along, down_along, ih, orientation_follow, orientation_follow,
      List.length_append, List.length_singleton, Nat.pow_succ, start]
    ring

end Spot

/-- **The path to a place comes in pieces**: the first one leads to the cell around the place, and the
next one starts in the orientation there. -/
theorem pathTo_add (o : Orientation) (i j m n : Nat) : pathTo o i j (m + n) =
    pathTo o (i / 2 ^ n) (j / 2 ^ n) m ++
      pathTo (o.follow (pathTo o (i / 2 ^ n) (j / 2 ^ n) m)) i j n := by
  induction m generalizing o with
  | zero =>
    rw [Nat.zero_add]
    rfl
  | succ m ih =>
    rw [Nat.succ_add, pathTo, pathTo, Nat.testBit_div_two_pow, Nat.testBit_div_two_pow,
      List.cons_append, ih]
    rfl

/-! ## 2. Entries -/

namespace CurveTable

/-- The piece `x.2` of the curve that begins in orientation `x.1` leads there. -/
def spotOf (x : Orientation × List Digit) : Spot := (Spot.start x.1).follow x.2

def placeOf (x : Orientation × List Digit) : Nat := 16 * (spotOf x).i + (spotOf x).j

/-- All paths of some number of digits, along the curve. -/
def paths : Nat → List (List Digit)
  | 0 => [[]]
  | n + 1 => Digit.all.flatMap fun d => (paths n).map (d :: ·)

theorem mem_paths {n : Nat} {path : List Digit} : path ∈ paths n ↔ path.length = n := by
  induction n generalizing path with
  | zero => rw [paths, List.mem_singleton, List.length_eq_zero_iff]
  | succ n ih =>
    have hdigit (d : Digit) : d ∈ Digit.all := List.mem_finRange d
    rw [paths, List.mem_flatMap]
    constructor
    · rintro ⟨d, -, h⟩
      obtain ⟨rest, hrest, rfl⟩ := List.mem_map.1 h
      rw [List.length_cons, ih.1 hrest]
    · intro h
      obtain ⟨d, rest, rfl⟩ := List.exists_cons_of_length_eq_add_one h
      exact ⟨d, hdigit d, List.mem_map.2 ⟨rest, ih.2 (Nat.succ.inj h), rfl⟩⟩

/-- **The tables are filled by one entry after the other**, along the curve. -/
theorem fill_eq (o : Orientation) (more : Nat) (s : Spot) (n : Nat) (t : CurveTable) :
    fill o more s n t = (paths more).foldl
      (fun t path => t.enter o (s.follow path) (n * 4 ^ more + pathNumber path)) t := by
  induction more generalizing s n t with
  | zero =>
    rw [Nat.pow_zero, Nat.mul_one]
    rfl
  | succ more ih =>
    -- The entries below the digit `d` are those of the paths that begin with it.
    have hstep (d : Digit) (t : CurveTable) : fill o more (s.down d) (4 * n + d.val) t =
        ((paths more).map (d :: ·)).foldl
          (fun t path => t.enter o (s.follow path) (n * 4 ^ (more + 1) + pathNumber path)) t := by
      rw [ih, List.foldl_map]
      refine List.foldl_ext _ _ _ fun t path hpath => ?_
      rw [Spot.follow_cons, pathNumber_cons, mem_paths.1 hpath]
      congr 1
      ring
    rw [fill, paths, List.foldl_flatMap]
    exact congrArg (fun f => List.foldl f t _) (funext fun t => funext fun d => hstep d t)

/-- The pieces in the order in which they are entered. -/
def pieces : List (Orientation × List Digit) :=
  Orientation.all.flatMap fun o => (paths 4).map fun path => (o, path)

theorem mem_pieces {x : Orientation × List Digit} : x ∈ pieces ↔ x.2.length = 4 := by
  rw [pieces, List.mem_flatMap]
  constructor
  · rintro ⟨o, -, h⟩
    obtain ⟨path, hpath, rfl⟩ := List.mem_map.1 h
    exact mem_paths.1 hpath
  · exact fun h => ⟨x.1, x.1.mem_all, List.mem_map.2 ⟨x.2, mem_paths.2 h, rfl⟩⟩

theorem full_eq : full = pieces.foldl (fun t x => t.enter x.1 (spotOf x) (pathNumber x.2)) blank := by
  rw [full, pieces, List.foldl_flatMap]
  refine congrArg (fun f => List.foldl f blank _) (funext fun t => funext fun o => ?_)
  rw [fill_eq, List.foldl_map, Nat.zero_mul]
  simp only [Nat.zero_add]
  rfl

/-! ## 3. Reading -/

theorem size_foldl_set {β : Type} (key val : β → Nat) (xs : List β) (a : Array Nat) :
    (xs.foldl (fun a x => a.set! (key x) (val x)) a).size = a.size := by
  induction xs generalizing a with
  | nil => rfl
  | cons x xs ih => exact (ih _).trans Array.size_setIfInBounds

/-- **What was entered is read again**, if no other entry has its key. -/
theorem getElem?_foldl_set {β : Type} {key val : β → Nat} {xs : List β}
    (hkey : ∀ x ∈ xs, ∀ y ∈ xs, key x = key y → val x = val y) {a : Array Nat} {x : β} (hx : x ∈ xs)
    (hlt : key x < a.size) :
    (xs.foldl (fun a x => a.set! (key x) (val x)) a)[key x]? = some (val x) := by
  induction xs using List.reverseRecOn with
  | nil => cases hx
  | append_singleton xs y ih =>
    have hy : y ∈ xs ++ [y] := List.mem_append_right _ (List.mem_singleton_self y)
    rw [List.foldl_append, List.foldl_cons, List.foldl_nil, Array.set!_eq_setIfInBounds,
      Array.getElem?_setIfInBounds, size_foldl_set]
    -- The last entry is the one that counts, if it has the key, and else it is out of the way.
    by_cases heq : key y = key x
    · rw [if_pos heq, if_pos (heq ▸ hlt), hkey x hx y hy heq.symm]
    · have hxs : x ∈ xs := by
        rcases List.mem_append.1 hx with h | h
        · exact h
        · exact absurd (congrArg key (List.mem_singleton.1 h).symm) heq
      rw [if_neg heq]
      exact ih (fun x hx y hy => hkey x (List.mem_append_left _ hx) y (List.mem_append_left _ hy)) hxs

theorem orientation_spotOf (x : Orientation × List Digit) :
    (spotOf x).orientation = x.1.follow x.2 :=
  Spot.orientation_follow (Spot.start x.1) x.2

theorem spotOf_lt {x : Orientation × List Digit} (h : x.2.length = 4) :
    (spotOf x).i < 16 ∧ (spotOf x).j < 16 := by
  have hlt (axis : Axis) : (spotOf x).along axis < 2 ^ x.2.length :=
    Spot.start_follow_lt x.1 x.2 axis
  rw [h] at hlt
  exact ⟨hlt .u, hlt .v⟩

/-- **Different pieces of one orientation lead to different places.** -/
theorem eq_of_placeOf_eq {x y : Orientation × List Digit} (hx : x.2.length = 4)
    (hy : y.2.length = 4) (ho : x.1 = y.1) (h : placeOf x = placeOf y) : x = y := by
  obtain ⟨-, hjx⟩ := spotOf_lt hx
  obtain ⟨-, hjy⟩ := spotOf_lt hy
  unfold placeOf at h
  have hi : (spotOf x).i = (spotOf y).i := by omega
  have hj : (spotOf x).j = (spotOf y).j := by omega
  have hpx : pathTo x.1 (spotOf x).i (spotOf x).j x.2.length = x.2 :=
    Spot.pathTo_follow (Spot.start x.1) x.2
  have hpy : pathTo y.1 (spotOf y).i (spotOf y).j y.2.length = y.2 :=
    Spot.pathTo_follow (Spot.start y.1) y.2
  refine Prod.ext ho ?_
  rw [← hpx, ← hpy, ho, hi, hj, hx, hy]

theorem eq_of_number_eq {m n : Nat} {o o' : Orientation}
    (h : 4 * m + o.number = 4 * n + o'.number) : m = n ∧ o = o' := by
  have hlt := o.number_lt
  have hlt' := o'.number_lt
  refine ⟨by omega, ?_⟩
  rw [← o.ofNumber_number, ← o'.ofNumber_number, show o.number = o'.number by omega]

/-- **A full table reads back every piece**, if each piece has an index of its own. -/
theorem read_full (table : CurveTable → Array Nat) (key val : Orientation × List Digit → Nat)
    (henter : ∀ t x, table (t.enter x.1 (spotOf x) (pathNumber x.2)) =
      (table t).set! (key x) (val x))
    (hkey : ∀ x y : Orientation × List Digit, x.2.length = 4 → y.2.length = 4 → key x = key y →
      x = y)
    (hsize : (table blank).size = 1024) {x : Orientation × List Digit} (hx : x.2.length = 4)
    (hlt : key x < 1024) : (table full)[key x]! = val x := by
  have hfull : table full = pieces.foldl (fun a x => a.set! (key x) (val x)) (table blank) := by
    rw [full_eq]
    exact (List.foldl_hom table fun t x => (henter t x).symm).symm
  have hread := getElem?_foldl_set (fun x hx y hy heq => congrArg val
    (hkey x y (mem_pieces.1 hx) (mem_pieces.1 hy) heq)) (a := table blank) (mem_pieces.2 hx)
    (hsize ▸ hlt)
  rw [hfull, getElem!_def, hread]

variable {o : Orientation} {path : List Digit}

/-- **The position is read at the place**, along with the orientation after the piece. -/
theorem position_full (h : path.length = 4) : full.position[4 * placeOf (o, path) + o.number]! =
    4 * pathNumber path + (o.follow path).number := by
  have ho := o.number_lt
  obtain ⟨hi, hj⟩ := spotOf_lt (x := (o, path)) h
  refine read_full CurveTable.position (fun x => 4 * placeOf x + x.1.number)
    (fun x => 4 * pathNumber x.2 + (x.1.follow x.2).number) (fun t x => ?_) (fun x y hx hy heq => ?_)
    Array.size_replicate (x := (o, path)) h ?_
  · rw [← orientation_spotOf]
    rfl
  · obtain ⟨hplace, ho⟩ := eq_of_number_eq heq
    exact eq_of_placeOf_eq hx hy ho hplace
  · change 4 * (16 * (spotOf (o, path)).i + (spotOf (o, path)).j) + o.number < 1024
    omega

/-- **The place is read at the position**, along with the orientation after the piece. -/
theorem place_full (h : path.length = 4) : full.place[4 * pathNumber path + o.number]! =
    4 * placeOf (o, path) + (o.follow path).number := by
  have ho := o.number_lt
  have hpath := pathNumber_lt path
  rw [h] at hpath
  refine read_full CurveTable.place (fun x => 4 * pathNumber x.2 + x.1.number)
    (fun x => 4 * placeOf x + (x.1.follow x.2).number) (fun t x => ?_) (fun x y hx hy heq => ?_)
    Array.size_replicate (x := (o, path)) h ?_
  · rw [← orientation_spotOf]
    rfl
  · obtain ⟨hnumber, ho⟩ := eq_of_number_eq heq
    exact Prod.ext ho (eq_of_pathNumber_eq (hx.trans hy.symm) hnumber)
  · change 4 * pathNumber path + o.number < 1024
    omega

end CurveTable

open CurveTable

namespace CellId

/-! ## 4. From column and row to the path -/

/-- The index of the piece that leads to a place. -/
theorem index_eq (o : Orientation) (i j k : Nat) : o.number + piece i k * 64 + piece j k * 4 =
    4 * placeOf (o, pathTo o (i / 2 ^ (4 * k)) (j / 2 ^ (4 * k)) 4) + o.number := by
  obtain ⟨hi, hj⟩ :=
    Spot.follow_pathTo (Spot.start o) (i / 2 ^ (4 * k)) (j / 2 ^ (4 * k)) 4
  have hpi : piece i k = i / 2 ^ (4 * k) % 2 ^ 4 := rfl
  have hpj : piece j k = j / 2 ^ (4 * k) % 2 ^ 4 := rfl
  change _ = 4 * (16 * ((Spot.start o).follow (pathTo (Spot.start o).orientation _ _ 4)).i +
    ((Spot.start o).follow (pathTo (Spot.start o).orientation _ _ 4)).j) + o.number
  rw [hi, hj, hpi, hpj]
  change _ = 4 * (16 * (0 * 2 ^ 4 + _) + (0 * 2 ^ 4 + _)) + _
  omega

/-- Numbers that share no bit are joined by adding them. -/
theorem ofNat_shiftLeft_or {m n k : Nat} (hk : k < 64) (hn : n < 2 ^ k)
    (hm : m * 2 ^ k + n < 2 ^ 64) :
    (UInt64.ofNat m <<< UInt64.ofNat k) ||| UInt64.ofNat n = UInt64.ofNat (m * 2 ^ k + n) := by
  have hle := Nat.le_mul_of_pos_right m (Nat.two_pow_pos k)
  have hk' : (UInt64.ofNat k).toNat = k := UInt64.toNat_ofNat_of_lt' (by
    change k < 2 ^ 64
    omega)
  have htoNat {x : Nat} (hx : x < 2 ^ 64) : (UInt64.ofNat x).toNat = x :=
    UInt64.toNat_ofNat_of_lt' hx
  apply UInt64.toNat_inj.1
  rw [UInt64.toNat_or, UInt64.toNat_shiftLeft, hk', htoNat (by omega), htoNat (by omega), htoNat hm,
    Nat.mod_eq_of_lt hk, Nat.shiftLeft_eq, Nat.mod_eq_of_lt (by omega), ← Nat.shiftLeft_eq,
    ← Nat.shiftLeft_add_eq_or_of_lt hn]

/-- **The pieces joined to a word** are the path. -/
theorem joinPieces_eq (i j : Nat) {k : Nat} (hk : k ≤ 8) (word : UInt64) (o : Orientation) :
    joinPieces full i j k word o.number = word ||| UInt64.ofNat (pathNumber (pathTo o i j (4 * k))) := by
  induction k generalizing word o with
  | zero =>
    change word = word ||| 0
    exact UInt64.or_zero.symm
  | succ k ih =>
    have hlength : (pathTo o (i / 2 ^ (4 * k)) (j / 2 ^ (4 * k)) 4).length = 4 := length_pathTo ..
    have hsplit := pathTo_add o i j 4 (4 * k)
    generalize hp : pathTo o (i / 2 ^ (4 * k)) (j / 2 ^ (4 * k)) 4 = p at hlength hsplit
    have hlt := (o.follow p).number_lt
    have hpow : 4 ^ (4 * k) = 2 ^ (8 * k) := by rw [four_pow_eq, ← Nat.mul_assoc]
    have hnumber : pathNumber (pathTo o i j (4 * (k + 1))) =
        pathNumber p * 2 ^ (8 * k) + pathNumber (pathTo (o.follow p) i j (4 * k)) := by
      rw [Nat.mul_succ, Nat.add_comm (4 * k), hsplit, pathNumber_append, length_pathTo, hpow]
    have hrest := pathNumber_lt (pathTo (o.follow p) i j (4 * k))
    rw [length_pathTo, hpow] at hrest
    -- All pieces together have no more digits than fit into a word.
    have hall : pathNumber (pathTo o i j (4 * (k + 1))) < 2 ^ 64 := by
      refine (pathNumber_lt _).trans_le ?_
      rw [length_pathTo]
      exact Nat.pow_le_pow_right (by decide) (show 4 * (k + 1) ≤ 32 by omega)
    unfold joinPieces
    dsimp only
    rw [index_eq, hp, position_full hlength,
      show (4 * pathNumber p + (o.follow p).number) / 4 = pathNumber p by omega,
      show (4 * pathNumber p + (o.follow p).number) % 4 = (o.follow p).number by omega,
      ih (by omega), UInt64.or_assoc, ofNat_shiftLeft_or (by omega) hrest (hnumber ▸ hall), hnumber]

/-- **The leaf cell made by the tables** is that made by the path. -/
theorem ofLeafByTable_eq (face i j : Nat) : ofLeafByTable face i j = ofLeaf face i j := by
  unfold ofLeafByTable ofLeaf
  rw [← Orientation.number_ofFace, joinPieces_eq i j (Nat.le_refl 8)]

/-! ## 5. From the path to column and row -/

/-- **One more piece** leads from a spot to the spot after it, seen from leaf cells. -/
theorem readPieces_succ {word : UInt64} {k length : Nat} (hlength : length = if k = 7 then 2 else 4)
    (s : Spot) {p : List Digit} (hp : p.length = 4)
    (hnumber : (word >>> UInt64.ofNat (8 * k + 1)).toNat % 4 ^ length = pathNumber p) :
    readPieces full word (k + 1) (s.i * 2 ^ (4 * (k + 1))) (s.j * 2 ^ (4 * (k + 1)))
        s.orientation.number =
      readPieces full word k ((s.follow p).i * 2 ^ (4 * k)) ((s.follow p).j * 2 ^ (4 * k))
        (s.follow p).orientation.number := by
  obtain ⟨hi, hj⟩ := spotOf_lt (x := (s.orientation, p)) hp
  have hlt := (s.orientation.follow p).number_lt
  have hu : (s.follow p).i = s.i * 2 ^ p.length + (spotOf (s.orientation, p)).i :=
    s.follow_along p .u
  have hv : (s.follow p).j = s.j * 2 ^ p.length + (spotOf (s.orientation, p)).j :=
    s.follow_along p .v
  have hread : CurveTable.full.place[s.orientation.number + pathNumber p * 4]! =
      64 * (spotOf (s.orientation, p)).i + 4 * (spotOf (s.orientation, p)).j +
        (s.orientation.follow p).number := by
    rw [Nat.add_comm, Nat.mul_comm, place_full hp, placeOf]
    ring
  have hn : (word >>> UInt64.ofNat (8 * k + 1)).toNat % twoPow (2 * if k = 7 then 2 else 4) =
      pathNumber p := by
    rw [← hnumber, hlength, four_pow_eq]
    rfl
  have htwo : twoPow (4 * k) = 2 ^ (4 * k) := rfl
  have hi' : s.i * 2 ^ (4 * (k + 1)) + (spotOf (s.orientation, p)).i * 2 ^ (4 * k) =
      (s.follow p).i * 2 ^ (4 * k) := by
    rw [hu, hp]
    ring
  have hj' : s.j * 2 ^ (4 * (k + 1)) + (spotOf (s.orientation, p)).j * 2 ^ (4 * k) =
      (s.follow p).j * 2 ^ (4 * k) := by
    rw [hv, hp]
    ring
  rw [← hi', ← hj', Spot.orientation_follow, readPieces, hn, hread, htwo]
  generalize (spotOf (s.orientation, p)).i = a at hi ⊢
  generalize (spotOf (s.orientation, p)).j = b at hj ⊢
  generalize (s.orientation.follow p).number = c at hlt ⊢
  rw [show (64 * a + 4 * b + c) / 64 = a by omega,
    show (64 * a + 4 * b + c) / 4 % 16 = b by omega,
    show (64 * a + 4 * b + c) % 4 = c by omega]

theorem toNat_shiftRight_piece (word : UInt64) {k : Nat} (hk : k ≤ 7) :
    (word >>> UInt64.ofNat (8 * k + 1)).toNat = word.toNat / 2 / 4 ^ (4 * k) := by
  have hexp : (UInt64.ofNat (8 * k + 1)).toNat % 64 = 8 * k + 1 := by
    change (8 * k + 1) % 2 ^ 64 % 64 = _
    omega
  rw [UInt64.toNat_shiftRight, hexp, Nat.shiftRight_eq_div_pow, Nat.pow_succ', four_pow_eq,
    ← Nat.mul_assoc, Nat.div_div_eq_div_mul]

/-- **The last pieces of a word** are read as its last digits. -/
theorem readPieces_eq (word : UInt64) {k : Nat} (hk : k ≤ 7) (s : Spot) :
    readPieces full word k (s.i * 2 ^ (4 * k)) (s.j * 2 ^ (4 * k)) s.orientation.number =
      ((s.follow (lastDigits (word.toNat / 2) (4 * k))).i,
        (s.follow (lastDigits (word.toNat / 2) (4 * k))).j,
        (s.follow (lastDigits (word.toNat / 2) (4 * k))).orientation.number) := by
  induction k generalizing s with
  | zero => simp [readPieces, lastDigits]
  | succ k ih =>
    have hne : k ≠ 7 := by omega
    have hnumber : (word >>> UInt64.ofNat (8 * k + 1)).toNat % 4 ^ 4 =
        pathNumber (lastDigits (word.toNat / 2 / 4 ^ (4 * k)) 4) := by
      rw [toNat_shiftRight_piece word (by omega), pathNumber_lastDigits]
    rw [readPieces_succ (if_neg hne).symm s (length_lastDigits _ _) hnumber, ih (by omega),
      ← Spot.follow_append, Nat.mul_succ, Nat.add_comm (4 * k) 4, lastDigits_add]

/-- **The coordinates read by the tables** are those that following the path leads to. -/
theorem coordsByTable_eq (c : CellId) : c.coordsByTable = c.coords := by
  have hdigits : c.digits maxLevel = lastDigits (c.word.toNat / 2 / 4 ^ 28) 2 ++
      lastDigits (c.word.toNat / 2) (4 * 7) := by
    have hlast : c.digits maxLevel = lastDigits (c.word.toNat / 2 / 4 ^ 0) 30 :=
      Numbered.digits_eq c (Nat.le_refl 30)
    rw [hlast, Nat.pow_zero, Nat.div_one]
    exact lastDigits_add _ 2 28
  generalize hp : lastDigits (c.word.toNat / 2 / 4 ^ 28) 2 = p at hdigits
  have hlength : p.length = 2 := hp ▸ length_lastDigits _ _
  have hnumber : (c.word >>> UInt64.ofNat (8 * 7 + 1)).toNat % 4 ^ 2 = pathNumber (0 :: 0 :: p) := by
    rw [toNat_shiftRight_piece _ (Nat.le_refl 7), pathNumber_zero_cons, pathNumber_zero_cons, ← hp,
      pathNumber_lastDigits]
  -- The two zeros in front of the first digits lead nowhere on a whole face.
  have hfollow : (Spot.start (Orientation.ofFace c.faceNumber)).follow (0 :: 0 :: p) =
      (Spot.start (Orientation.ofFace c.faceNumber)).follow p := by
    unfold Orientation.ofFace
    cases c.faceNumber % 2 == 1 <;> rfl
  have hread := readPieces_succ (k := 7) rfl (Spot.start (Orientation.ofFace c.faceNumber))
    (p := 0 :: 0 :: p) (by rw [List.length_cons, List.length_cons, hlength]) hnumber
  rw [readPieces_eq c.word (Nat.le_refl 7), hfollow, ← Spot.follow_append, ← hdigits,
    show (Spot.start (Orientation.ofFace c.faceNumber)).orientation.number = c.faceNumber % 2 from
      Orientation.number_ofFace _, Spot.start, Nat.zero_mul] at hread
  unfold coordsByTable coords
  rw [hread]
  dsimp only
  rw [Orientation.ofNumber_number]
  rfl

end CellId

end SphereIndex
