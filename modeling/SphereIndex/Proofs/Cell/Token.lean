import Mathlib.Data.String.Basic
import Mathlib.Tactic.IntervalCases
import SphereIndex.Cell.Text
import SphereIndex.Proofs.Cell.Number

/-!
# Tokens

A token is the word in hexadecimal, cut behind its last digit that is not 0.  How many zeros there
are is read off the lowest one of the word, of which the place need not be a multiple of four: what
is left of the place after the division lies inside the last digit.  Filling up with zeros does not
change how two texts compare, as no digit comes before `0`, so tokens are in the order of their
words.
-/

namespace SphereIndex

/-! ## 1. Texts filled up to one length -/

/-- If no letter comes before `z`, then filling up with `z` puts no text before another one. -/
theorem lt_of_append_replicate_lt {α : Type} [LinearOrder α] {z : α} {xs ys : List α} {i j : Nat}
    (hz : ∀ x ∈ xs, z ≤ x) (hlength : xs.length + i = ys.length + j)
    (h : xs ++ List.replicate i z < ys ++ List.replicate j z) : xs < ys := by
  induction xs generalizing ys j with
  | nil =>
    cases ys with
    | nil =>
      have hij : i = j := by simpa using hlength
      subst hij
      exact absurd h (List.lt_irrefl _)
    | cons y ys => exact List.nil_lt_cons y ys
  | cons x xs ih =>
    obtain ⟨hx, hxs⟩ := List.forall_mem_cons.1 hz
    cases ys with
    | nil =>
      -- The letter of the filling comes before none, so what follows it would have to differ.
      simp only [List.length_cons, List.length_nil] at hlength
      obtain ⟨n, rfl⟩ : ∃ n, j = n + 1 := ⟨j - 1, by omega⟩
      rw [List.cons_append, List.nil_append, List.replicate_succ, List.cons_lt_cons_iff] at h
      obtain hlt | ⟨-, hrest⟩ := h
      · exact absurd hlt (not_lt.2 hx)
      · have hnil : xs < [] := ih hxs (by simp only [List.length_nil]; omega) hrest
        exact absurd hnil (List.not_lt_nil xs)
    | cons y ys =>
      rw [List.cons_append, List.cons_append, List.cons_lt_cons_iff] at h
      rw [List.cons_lt_cons_iff]
      obtain hlt | ⟨heq, hrest⟩ := h
      · exact .inl hlt
      · exact .inr ⟨heq, ih hxs (by simpa [Nat.add_right_comm] using hlength) hrest⟩

/-- Texts of one length are compared at their last letters only if they agree before. -/
theorem append_singleton_lt {α : Type} [LinearOrder α] {xs ys : List α} {x y : α}
    (hlength : xs.length = ys.length) (h : xs < ys ∨ xs = ys ∧ x < y) :
    xs ++ [x] < ys ++ [y] := by
  induction xs generalizing ys with
  | nil =>
    obtain rfl : ys = [] := List.eq_nil_of_length_eq_zero hlength.symm
    obtain h | ⟨-, hxy⟩ := h
    · exact absurd h (List.not_lt_nil _)
    · exact List.cons_lt_cons_iff.2 (.inl hxy)
  | cons c xs ih =>
    cases ys with
    | nil => simp at hlength
    | cons d ys =>
      rw [List.cons_append, List.cons_append, List.cons_lt_cons_iff]
      rw [List.cons_lt_cons_iff, List.cons.injEq] at h
      obtain (hcd | ⟨hcd, hlt⟩) | ⟨⟨hcd, heq⟩, hxy⟩ := h
      · exact .inl hcd
      · exact .inr ⟨hcd, ih (by simpa using hlength) (.inl hlt)⟩
      · exact .inr ⟨hcd, ih (by simpa using hlength) (.inr ⟨heq, hxy⟩)⟩

namespace CellId

/-! ## 2. Hexadecimal digits -/

theorem hexDigit_lt_hexDigit {m n : Nat} (hn : n < 16) (h : m < n) : hexDigit m < hexDigit n := by
  have hm : m < 16 := Nat.lt_trans h hn
  interval_cases n <;> interval_cases m <;> decide

theorem zero_le_hexDigit {n : Nat} (hn : n < 16) : '0' ≤ hexDigit n := by
  interval_cases n <;> decide

theorem exists_of_mem_hexDigits {w n : Nat} {c : Char} (h : c ∈ hexDigits w n) :
    ∃ d < 16, c = hexDigit d := by
  induction n generalizing w with
  | zero => exact absurd h List.not_mem_nil
  | succ n ih =>
    obtain h | h := List.mem_append.1 h
    · exact ih h
    · exact ⟨w % 16, Nat.mod_lt _ (by decide), List.mem_singleton.1 h⟩

/-- **As many digits each, in the order of the numbers.** -/
theorem hexDigits_lt_hexDigits {v w n : Nat} (hw : w < 16 ^ n) (h : v < w) :
    hexDigits v n < hexDigits w n := by
  induction n generalizing v w with
  | zero => omega
  | succ n ih =>
    apply append_singleton_lt (by rw [length_hexDigits, length_hexDigits])
    have hdiv : v / 16 ≤ w / 16 := Nat.div_le_div_right (Nat.le_of_lt h)
    obtain hlt | heq := Nat.lt_or_eq_of_le hdiv
    · refine .inl (ih ?_ hlt)
      rw [Nat.pow_succ] at hw
      exact Nat.div_lt_of_lt_mul (by omega)
    · refine .inr ⟨by rw [heq], hexDigit_lt_hexDigit (Nat.mod_lt _ (by decide)) ?_⟩
      omega

/-- Each factor 16 writes one more zero. -/
theorem hexDigits_mul_pow (w n k : Nat) :
    hexDigits (w * 16 ^ k) (n + k) = hexDigits w n ++ List.replicate k '0' := by
  induction k with
  | zero => simp
  | succ k ih =>
    rw [Nat.pow_succ, ← Nat.mul_assoc, ← Nat.add_assoc, hexDigits, Nat.mul_mod_left,
      Nat.mul_div_cancel _ (by decide), ih, List.replicate_succ', List.append_assoc]
    rfl

def digitValue (c : Char) : Nat :=
  if c ≤ '9' then c.toNat - '0'.toNat else c.toNat - 'a'.toNat + 10

/-- The number that a text of hexadecimal digits stands for. -/
def readHex (cs : List Char) : Nat := cs.foldl (fun v c => 16 * v + digitValue c) 0

theorem digitValue_hexDigit {n : Nat} (hn : n < 16) : digitValue (hexDigit n) = n := by
  interval_cases n <;> decide

theorem readHex_hexDigits (w n : Nat) : readHex (hexDigits w n) = w % 16 ^ n := by
  induction n generalizing w with
  | zero => rw [Nat.pow_zero, Nat.mod_one]; rfl
  | succ n ih =>
    have hread (cs : List Char) (c : Char) :
        readHex (cs ++ [c]) = 16 * readHex cs + digitValue c := by simp [readHex]
    rw [hexDigits, hread, ih, digitValue_hexDigit (Nat.mod_lt _ (by decide)), Nat.pow_succ',
      Nat.mod_mul]
    omega

/-! ## 3. The digits of a token -/

/-- **The digits that are left**: those of a number of which the last one is not 0, from which the
word is made by writing the zeros again. -/
theorem exists_tokenChars {c : CellId} (h : c.word ≠ 0) :
    ∃ w k, k < 16 ∧ w % 16 ≠ 0 ∧ c.word.toNat = w * 16 ^ k ∧
      c.tokenChars = hexDigits w (16 - k) := by
  obtain ⟨m, e, hword⟩ := exists_odd_mul_two_pow h
  have he := exponent_lt hword
  have hk : e / 4 < 16 := by omega
  have hpow : 2 ^ e = 2 ^ (e % 4) * 16 ^ (e / 4) := by
    rw [show 16 = 2 ^ 4 from rfl, ← Nat.pow_mul, ← Nat.pow_add, Nat.mod_add_div]
  have hsplit : c.word.toNat = (2 * m + 1) * 2 ^ (e % 4) * 16 ^ (e / 4) := by
    rw [hword, hpow, Nat.mul_assoc]
  -- At most three of the zeros at the end of the word lie inside the last digit that is left.
  have hlast : (2 * m + 1) * 2 ^ (e % 4) % 16 ≠ 0 := by
    have hr : e % 4 < 4 := Nat.mod_lt _ (by decide)
    generalize e % 4 = r at hr ⊢
    interval_cases r <;> omega
  refine ⟨(2 * m + 1) * 2 ^ (e % 4), e / 4, hk, hlast, hsplit, ?_⟩
  have hhex : c.hex =
      hexDigits ((2 * m + 1) * 2 ^ (e % 4)) (16 - e / 4) ++ List.replicate (e / 4) '0' := by
    rw [hex, hsplit, ← hexDigits_mul_pow, Nat.sub_add_cancel (Nat.le_of_lt hk)]
  rw [tokenChars, if_neg h, marker_toNat_of_word hword, Nat.log2_two_pow, hhex]
  exact List.take_left' (length_hexDigits _ _)

theorem tokenChars_ne_nil {c : CellId} (h : c.word ≠ 0) : c.tokenChars ≠ [] := by
  obtain ⟨w, k, hk, -, -, hchars⟩ := exists_tokenChars h
  rw [hchars]
  apply List.ne_nil_of_length_pos
  rw [length_hexDigits]
  omega

theorem getLast?_tokenChars_ne {c : CellId} (h : c.word ≠ 0) :
    c.tokenChars.getLast? ≠ some '0' := by
  obtain ⟨w, k, hk, hlast, -, hchars⟩ := exists_tokenChars h
  obtain ⟨n, hn⟩ : ∃ n, 16 - k = n + 1 := ⟨15 - k, by omega⟩
  rw [hchars, hn, hexDigits, List.getLast?_concat, Ne, Option.some.injEq]
  have hdigit := hexDigit_lt_hexDigit (Nat.mod_lt w (by decide)) (Nat.pos_of_ne_zero hlast)
  exact ne_of_gt hdigit

theorem length_tokenChars_le (c : CellId) : c.tokenChars.length ≤ 16 := by
  by_cases h : c.word = 0
  · rw [tokenChars, if_pos h]
    decide
  · obtain ⟨w, k, -, -, -, hchars⟩ := exists_tokenChars h
    rw [hchars, length_hexDigits]
    omega

/-- **Filled up with zeros, the token is the word in hexadecimal.** -/
theorem tokenChars_append_zeros {c : CellId} (h : c.word ≠ 0) :
    c.tokenChars ++ List.replicate (16 - c.tokenChars.length) '0' = c.hex := by
  obtain ⟨w, k, hk, -, hword, hchars⟩ := exists_tokenChars h
  rw [hchars, length_hexDigits, hex, hword, Nat.sub_sub_self (Nat.le_of_lt hk),
    ← hexDigits_mul_pow, Nat.sub_add_cancel (Nat.le_of_lt hk)]

theorem readHex_hex (c : CellId) : readHex c.hex = c.word.toNat := by
  rw [hex, readHex_hexDigits]
  exact Nat.mod_eq_of_lt c.word.toNat_lt

theorem exists_of_mem_tokenChars {c : CellId} (h : c.word ≠ 0) {x : Char}
    (hx : x ∈ c.tokenChars) : ∃ d < 16, x = hexDigit d := by
  obtain ⟨w, k, -, -, -, hchars⟩ := exists_tokenChars h
  rw [hchars] at hx
  exact exists_of_mem_hexDigits hx

/-! ## 4. The order of tokens -/

theorem hex_lt_hex {a b : CellId} (h : a < b) : a.hex < b.hex :=
  hexDigits_lt_hexDigits b.word.toNat_lt (lt_iff.1 h)

theorem token_lt_token {a b : CellId} (ha : a.word ≠ 0) (hb : b.word ≠ 0) (h : a < b) :
    a.token < b.token := by
  have hhex := hex_lt_hex h
  rw [← tokenChars_append_zeros ha, ← tokenChars_append_zeros hb] at hhex
  have hlength : a.tokenChars.length + (16 - a.tokenChars.length) =
      b.tokenChars.length + (16 - b.tokenChars.length) := by
    have := a.length_tokenChars_le
    have := b.length_tokenChars_le
    omega
  have hzero : ∀ x ∈ a.tokenChars, '0' ≤ x := by
    intro x hx
    obtain ⟨d, hd, rfl⟩ := exists_of_mem_tokenChars ha hx
    exact zero_le_hexDigit hd
  rw [String.lt_iff_toList_lt, token, token, String.toList_ofList, String.toList_ofList]
  exact lt_of_append_replicate_lt hzero hlength hhex

theorem token_lt_token_iff {a b : CellId} (ha : a.word ≠ 0) (hb : b.word ≠ 0) :
    a.token < b.token ↔ a < b := by
  refine ⟨fun h => ?_, token_lt_token ha hb⟩
  obtain hlt | heq | hgt := Nat.lt_trichotomy a.word.toNat b.word.toNat
  · exact lt_iff.2 hlt
  · rw [ext heq] at h
    exact absurd h (lt_irrefl _)
  · exact absurd h (lt_asymm (token_lt_token hb ha (lt_iff.2 hgt)))

/-- The token of the word 0 is not made of digits. -/
theorem token_ne_token_none {c : CellId} (h : c.word ≠ 0) : c.token ≠ none.token := by
  intro heq
  have hchars : c.tokenChars = ['X'] := String.ofList_injective heq
  have hmem : 'X' ∈ c.tokenChars := by rw [hchars]; exact List.mem_singleton_self _
  obtain ⟨d, hd, hdigit⟩ := exists_of_mem_tokenChars h hmem
  interval_cases d <;> exact absurd hdigit (by decide)

/-- **Tokens are a faithful encoding in the order of the words.**  Of every word but 0 the token has
at least one and at most 16 digits, does not end in 0, and gives the word back when zeros are
written behind it up to 16 digits.  Tokens are ordered by letters as the words are as numbers, and
none of them is the token of the word 0. -/
theorem token_faithful :
    (∀ c : CellId, c.word ≠ 0 →
      c.token.toList ≠ [] ∧ c.token.toList.getLast? ≠ some '0' ∧ c.token.toList.length ≤ 16 ∧
        readHex (c.token.toList ++ List.replicate (16 - c.token.toList.length) '0') =
          c.word.toNat) ∧
      (∀ a b : CellId, a.word ≠ 0 → b.word ≠ 0 → (a.token < b.token ↔ a < b)) ∧
      ∀ c : CellId, c.word ≠ 0 → c.token ≠ none.token := by
  refine ⟨fun c h => ?_, fun _ _ => token_lt_token_iff, fun _ => token_ne_token_none⟩
  rw [token, String.toList_ofList]
  refine ⟨tokenChars_ne_nil h, getLast?_tokenChars_ne h, c.length_tokenChars_le, ?_⟩
  rw [tokenChars_append_zeros h, readHex_hex]

/-- Two words whose zeros end inside a digit, one of them with more digits left. -/
theorem token_faithful_example :
    readHex ((⟨0x3000000000000000⟩ : CellId).token.toList ++ List.replicate 15 '0') =
        0x3000000000000000 ∧
      (⟨0x3000000000000000⟩ : CellId).token < (⟨0x3020000000000000⟩ : CellId).token ∧
      (⟨0x3000000000000000⟩ : CellId).token ≠ none.token := by
  refine ⟨(token_faithful.1 ⟨0x3000000000000000⟩ (by decide)).2.2.2, ?_, ?_⟩
  · exact (token_faithful.2.1 _ _ (by decide) (by decide)).2 (by decide)
  · exact token_faithful.2.2 _ (by decide)

end CellId

end SphereIndex
