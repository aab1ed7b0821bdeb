import SphereIndex.Proofs.Cell.Number

/-!
# Paths by number

The path to a cell is its number in base four.  Following a path on the grid multiplies the column
and the row by two at each step, so a cell covers a square of leaf cells whose side is a power of
two.
-/

namespace SphereIndex

/-! ## 1. The digits of a number -/

/-- The last `n` base four digits of a number, the leading one first. -/
def lastDigits (m : Nat) : Nat → List Digit
  | 0 => []
  | n + 1 => lastDigits (m / 4) n ++ [⟨m % 4, Nat.mod_lt _ (by decide)⟩]

@[simp] theorem length_lastDigits (m n : Nat) : (lastDigits m n).length = n := by
  induction n generalizing m with
  | zero => rfl
  | succ n ih => rw [lastDigits, List.length_append, ih, List.length_singleton]

theorem lastDigits_digit (m n : Nat) (d : Digit) :
    lastDigits (4 * m + d.val) (n + 1) = lastDigits m n ++ [d] := by
  have hd := d.isLt
  rw [lastDigits, show (4 * m + d.val) / 4 = m by omega]
  congr 2
  apply Fin.ext
  change (4 * m + d.val) % 4 = d.val
  omega

theorem lastDigits_add (m p q : Nat) :
    lastDigits m (p + q) = lastDigits (m / 4 ^ q) p ++ lastDigits m q := by
  induction q generalizing m with
  | zero => rw [Nat.pow_zero, Nat.div_one, lastDigits, List.append_nil, Nat.add_zero]
  | succ q ih =>
    rw [← Nat.add_assoc, lastDigits, ih, lastDigits, Nat.div_div_eq_div_mul, ← Nat.pow_succ',
      List.append_assoc]

theorem lastDigits_mul_pow_add (m x n : Nat) : lastDigits (m * 4 ^ n + x) n = lastDigits x n := by
  induction n generalizing x with
  | zero => rfl
  | succ n ih =>
    have hpow : m * 4 ^ (n + 1) = 4 * (m * 4 ^ n) := by ring
    have hdiv : (m * 4 ^ (n + 1) + x) / 4 = m * 4 ^ n + x / 4 := by omega
    have hmod : (m * 4 ^ (n + 1) + x) % 4 = x % 4 := by omega
    rw [lastDigits, lastDigits, hdiv, ih]
    congr 2
    apply Fin.ext
    exact hmod

theorem pathNumber_append_singleton (path : List Digit) (d : Digit) :
    pathNumber (path ++ [d]) = 4 * pathNumber path + d.val := by
  rw [pathNumber, List.foldl_append]
  rfl

theorem lastDigits_pathNumber (m : Nat) (path : List Digit) :
    lastDigits (m * 4 ^ path.length + pathNumber path) path.length = path := by
  induction path using List.reverseRecOn with
  | nil => rfl
  | append_singleton path d ih =>
    rw [List.length_append, List.length_singleton, pathNumber_append_singleton,
      show m * 4 ^ (path.length + 1) + (4 * pathNumber path + d.val) =
        4 * (m * 4 ^ path.length + pathNumber path) + d.val by rw [Nat.pow_succ]; ring,
      lastDigits_digit, ih]

theorem pathNumber_lt (path : List Digit) : pathNumber path < 4 ^ path.length := by
  induction path using List.reverseRecOn with
  | nil => exact Nat.one_pos
  | append_singleton path d ih =>
    have hd := d.isLt
    rw [pathNumber_append_singleton, List.length_append, List.length_singleton, Nat.pow_succ]
    omega

theorem pathNumber_cons (d : Digit) (path : List Digit) :
    pathNumber (d :: path) = d.val * 4 ^ path.length + pathNumber path := by
  induction path using List.reverseRecOn with
  | nil =>
    change 4 * 0 + d.val = d.val * 1 + 0
    omega
  | append_singleton path e ih =>
    rw [← List.cons_append, pathNumber_append_singleton, pathNumber_append_singleton, ih,
      List.length_append, List.length_singleton, Nat.pow_succ]
    ring

/-- Paths of one length are told apart by their numbers. -/
theorem eq_of_pathNumber_eq {p q : List Digit} (hl : p.length = q.length)
    (h : pathNumber p = pathNumber q) : p = q := by
  rw [← lastDigits_pathNumber 0 p, ← lastDigits_pathNumber 0 q, hl, h]

theorem pathNumber_append (p q : List Digit) :
    pathNumber (p ++ q) = pathNumber p * 4 ^ q.length + pathNumber q := by
  induction p with
  | nil => exact (congrArg (· + _) (Nat.zero_mul _)).symm ▸ (Nat.zero_add _).symm
  | cons d p ih =>
    rw [List.cons_append, pathNumber_cons, pathNumber_cons, ih, List.length_append, Nat.pow_add]
    ring

/-! ## 2. The path to a cell -/

namespace CellId

namespace Numbered

variable {a b c : CellId} {k l m n : Nat}

theorem digits_eq (c : CellId) {n : Nat} (hn : n ≤ 30) :
    c.digits n = lastDigits (c.word.toNat / 2 / 4 ^ (30 - n)) n := by
  induction n with
  | zero => rfl
  | succ n ih =>
    have hsplit : c.digits (n + 1) = c.digits n ++ [c.digit (n + 1)] := by
      rw [digits, List.range_succ, List.map_append]
      rfl
    -- The last digit stands `2 * (30 - (n + 1)) + 1` bits from the end of the word.
    have hexp : (UInt64.ofNat (2 * maxLevel + 1 - 2 * (n + 1))).toNat % 64 =
        2 * (30 - (n + 1)) + 1 := by
      change (2 * 30 + 1 - 2 * (n + 1)) % 2 ^ 64 % 64 = _
      omega
    have hsucc : (30 - (n + 1)).succ = 30 - n := by omega
    rw [hsplit, ih (by omega), lastDigits, Nat.div_div_eq_div_mul _ _ 4, ← Nat.pow_succ, hsucc]
    congr 2
    apply Fin.ext
    change (c.word >>> UInt64.ofNat (2 * maxLevel + 1 - 2 * (n + 1))).toNat % 4 = _
    rw [UInt64.toNat_shiftRight, hexp, Nat.shiftRight_eq_div_pow, Nat.pow_succ', ← four_pow_eq,
      Nat.div_div_eq_div_mul]

theorem path_eq (h : c.Numbered k m) : c.path = lastDigits m (30 - k) := by
  have hk := h.height_le
  rw [path, h.level_eq, digits_eq c (by omega), h.word_eq, show 30 - (30 - k) = k by omega,
    Nat.div_div_eq_div_mul, Nat.mul_comm 2 (4 ^ k), ← Nat.div_div_eq_div_mul,
    Nat.mul_div_cancel _ (four_pow_pos k)]
  congr 1
  omega

/-- Below the path come a two for the marker and then zeros. -/
theorem digits_maxLevel (h : c.Numbered k m) :
    c.digits maxLevel = c.path ++ lastDigits (4 ^ k / 2) k := by
  have hk := h.height_le
  have hword : c.word.toNat / 2 / 4 ^ (30 - maxLevel) = m * 4 ^ k + 4 ^ k / 2 := by
    change c.word.toNat / 2 / 4 ^ 0 = _
    rw [Nat.pow_zero, Nat.div_one, h.word_eq,
      show (2 * m + 1) * 4 ^ k = 4 ^ k + 2 * (m * 4 ^ k) by ring]
    omega
  have hpos := four_pow_pos k
  rw [show c.digits maxLevel = _ from digits_eq c (Nat.le_refl 30)]
  change lastDigits (c.word.toNat / 2 / 4 ^ (30 - maxLevel)) 30 = _
  rw [hword, h.path_eq]
  rw [show 30 = (30 - k) + k by omega, lastDigits_add, Nat.add_sub_cancel]
  congr 1
  · rw [Nat.mul_comm m, Nat.mul_add_div hpos, Nat.div_eq_of_lt (by omega), Nat.add_zero]
  · exact lastDigits_mul_pow_add _ _ _

theorem path_child (h : c.Numbered (k + 1) m) (d : Digit) : (c.child d).path = c.path ++ [d] := by
  have hk := h.height_le
  rw [(h.child d).path_eq, h.path_eq, show 30 - k = 30 - (k + 1) + 1 by omega, lastDigits_digit]

theorem faceNumber_child (h : c.Numbered (k + 1) m) (d : Digit) :
    (c.child d).faceNumber = c.faceNumber := by
  have hk := h.height_le
  have hd := d.isLt
  rw [(h.child d).faceNumber_eq, h.faceNumber_eq, show 30 - k = 30 - (k + 1) + 1 by omega,
    Nat.pow_succ', ← Nat.div_div_eq_div_mul]
  congr 1
  omega

theorem path_of_contains (ha : a.Numbered k m) (hb : b.Numbered l n) (h : a.Contains b) :
    a.faceNumber = b.faceNumber ∧ b.path = a.path ++ lastDigits n (k - l) := by
  have hk := ha.height_le
  rw [ha.contains_iff hb] at h
  obtain ⟨hlk, rfl⟩ := h
  constructor
  · rw [ha.faceNumber_eq, hb.faceNumber_eq, Nat.div_div_eq_div_mul, ← Nat.pow_add]
    congr 2
    omega
  · rw [ha.path_eq, hb.path_eq, ← lastDigits_add]
    congr 1
    omega

end Numbered

end CellId

end SphereIndex
