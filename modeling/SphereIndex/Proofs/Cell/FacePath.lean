import Mathlib.Data.Set.Function
import SphereIndex.Cell.Text
import SphereIndex.Proofs.Cell.Ancestors

/-!
# Cells by face and path

A face and a path of at most 30 digits name a cell, every valid id is named in exactly one way, and
no other word is.  Moving in the hierarchy is editing the path, and the written form of a cell is its
name.
-/

namespace SphereIndex

theorem Face.number_numbered {n : Nat} (hn : n < 6) : (Face.numbered n).number = n := by
  interval_cases n <;> rfl

theorem Face.numbered_number (f : Face) : Face.numbered f.number = f :=
  Face.number_injective (Face.number_numbered f.number_lt)

namespace CellId

/-! ## 1. Steps in the hierarchy -/

namespace Numbered

variable {c : CellId} {k m : Nat}

/-- The next word is two markers further on, and no word is too large for that. -/
theorem word_next (h : c.Numbered k m) : c.next.word.toNat = (2 * (m + 1) + 1) * 4 ^ k := by
  have hk := h.height_le
  have hpow : 4 ^ (30 - k) * 4 ^ k = 4 ^ 30 := by rw [← Nat.pow_add, Nat.sub_add_cancel hk]
  have hle : 4 ^ k ≤ 4 ^ 30 := Nat.pow_le_pow_right (by decide) hk
  have hword : (2 * (m + 1) + 1) * 4 ^ k = (2 * m + 1) * 4 ^ k + 2 * 4 ^ k := by ring
  have hrange : (2 * m + 2) * 4 ^ k ≤ 12 * 4 ^ 30 := by
    have hnumber := h.number_lt
    rw [← hpow, ← Nat.mul_assoc]
    exact Nat.mul_le_mul_right _ (by omega)
  have hsum : (2 * m + 2) * 4 ^ k = (2 * m + 1) * 4 ^ k + 4 ^ k := by ring
  have hstep : (c.marker <<< 1).toNat = 2 * 4 ^ k := by
    rw [UInt64.toNat_shiftLeft, h.marker_toNat]
    change 4 ^ k <<< 1 % 2 ^ 64 = _
    rw [Nat.shiftLeft_eq, Nat.pow_one, Nat.mul_comm]
    exact Nat.mod_eq_of_lt (by omega)
  change (c.word + (c.marker <<< 1)).toNat = _
  rw [UInt64.toNat_add, hstep, h.word_eq, hword]
  exact Nat.mod_eq_of_lt (by omega)

/-- Cells in a row have numbers in a row. -/
theorem next (h : c.Numbered k m) (hm : m + 1 < 6 * 4 ^ (30 - k)) : c.next.Numbered k (m + 1) :=
  ⟨h.height_le, hm, h.word_next⟩

theorem childBegin_eq (h : c.Numbered (k + 1) m) : c.childBegin = c.child 0 := by
  have hmarker : c.marker = (4 : UInt64) * (c.marker >>> 2) := by
    have hlt := c.marker.toNat_lt
    have hfour := h.marker_toNat
    rw [Nat.pow_succ] at hfour
    apply UInt64.toNat_inj.1
    rw [UInt64.toNat_mul, UInt64.toNat_shiftRight, Nat.shiftRight_eq_div_pow]
    change _ = 4 * (c.marker.toNat / 4) % 2 ^ 64
    omega
  rw [childBegin, CellId.child]
  generalize c.marker >>> 2 = step at hmarker
  rw [hmarker, CellId.mk.injEq]
  change c.word - 4 * step + step = c.word - 3 * step + 2 * 0 * step
  grind

end Numbered

/-! ## 2. Names -/

variable {c : CellId} {path : List Digit}

theorem ofPath_append_singleton (f : Face) (path : List Digit) (d : Digit) :
    ofPath f (path ++ [d]) = (ofPath f path).child d := by
  rw [ofPath, List.foldl_append]
  rfl

theorem numbered_ofPath (f : Face) (h : path.length ≤ maxLevel) :
    (ofPath f path).Numbered (30 - path.length)
      (f.number * 4 ^ path.length + pathNumber path) := by
  change path.length ≤ 30 at h
  induction path using List.reverseRecOn with
  | nil =>
    rw [List.length_nil, Nat.sub_zero, Nat.pow_zero, Nat.mul_one]
    exact .ofFace f
  | append_singleton path d ih =>
    rw [List.length_append, List.length_singleton] at h ⊢
    have hpath := ih (by omega)
    rw [show 30 - path.length = 30 - (path.length + 1) + 1 by omega] at hpath
    rw [ofPath_append_singleton, pathNumber_append_singleton,
      show f.number * 4 ^ (path.length + 1) + (4 * pathNumber path + d.val) =
        4 * (f.number * 4 ^ path.length + pathNumber path) + d.val by ring]
    exact hpath.child d

theorem level_ofPath (f : Face) (h : path.length ≤ maxLevel) :
    (ofPath f path).level = path.length := by
  rw [(numbered_ofPath f h).level_eq]
  exact Nat.sub_sub_self h

theorem faceNumber_ofPath (f : Face) (h : path.length ≤ maxLevel) :
    (ofPath f path).faceNumber = f.number := by
  have hlength : 30 - (30 - path.length) = path.length := Nat.sub_sub_self h
  rw [(numbered_ofPath f h).faceNumber_eq, hlength, Nat.mul_comm,
    Nat.mul_add_div (four_pow_pos _), Nat.div_eq_of_lt (pathNumber_lt path), Nat.add_zero]

theorem path_ofPath (f : Face) (h : path.length ≤ maxLevel) : (ofPath f path).path = path := by
  have hlength : 30 - (30 - path.length) = path.length := Nat.sub_sub_self h
  rw [(numbered_ofPath f h).path_eq, hlength, lastDigits_pathNumber]

/-- A valid id is that of the cell with its face and path. -/
theorem IsValid.ofPath_path (h : c.IsValid) :
    c.path.length ≤ maxLevel ∧ ofPath (Face.numbered c.faceNumber) c.path = c := by
  obtain ⟨k, m, hc⟩ := h.exists_numbered
  have hk := hc.height_le
  have hlength : c.path.length = 30 - k := by rw [hc.path_eq, length_lastDigits]
  have hle : c.path.length ≤ maxLevel := hlength ▸ Nat.sub_le 30 k
  have hpath := numbered_ofPath (Face.numbered c.faceNumber) hle
  have hnumber : c.faceNumber * 4 ^ (30 - k) + pathNumber c.path = m := by
    rw [hc.path_eq, pathNumber_lastDigits, hc.faceNumber_eq]
    exact Nat.div_add_mod' _ _
  rw [Face.number_numbered h.1, hlength, Nat.sub_sub_self hk, hnumber] at hpath
  exact ⟨hle, hpath.eq_of_numbered hc⟩

/-- A cell over the cell at the end of a path stands at some point of the path before. -/
theorem IsValid.exists_take_of_contains {f : Face} (hc : c.IsValid) (h : path.length ≤ maxLevel)
    (hcontains : c.Contains (ofPath f path)) (hne : c ≠ ofPath f path) :
    ∃ n < path.length, c = ofPath f (path.take n) := by
  obtain ⟨k, m, hn⟩ := hc.exists_numbered
  obtain ⟨hface, hsplit⟩ := hn.path_of_contains (numbered_ofPath f h) hcontains
  rw [path_ofPath f h] at hsplit
  have htake : path.take c.path.length = c.path := by rw [hsplit, List.take_left]
  have heq : c = ofPath f (path.take c.path.length) := by
    have hname := hc.ofPath_path.2
    rw [hface, faceNumber_ofPath f h, Face.numbered_number] at hname
    rw [htake, hname]
  refine ⟨c.path.length, Nat.lt_of_not_le fun hle => hne ?_, heq⟩
  rwa [List.take_of_length_le hle] at heq

/-- Going on along a path leads to cells below. -/
theorem ofPath_contains_append (f : Face) {p q : List Digit} (h : (p ++ q).length ≤ maxLevel) :
    (ofPath f p).Contains (ofPath f (p ++ q)) := by
  induction q using List.reverseRecOn with
  | nil =>
    rw [List.append_nil] at h ⊢
    exact (numbered_ofPath f h).isValid.contains_self
  | append_singleton q d ih =>
    rw [← List.append_assoc] at h ⊢
    have hlt : (p ++ q).length < maxLevel := by rwa [List.length_append] at h
    have hle : p.length ≤ maxLevel := by
      rw [List.length_append] at hlt
      omega
    have hmiddle := (numbered_ofPath f hlt.le).isValid
    have hlevel : (ofPath f (p ++ q)).level < maxLevel := by rwa [level_ofPath f hlt.le]
    rw [ofPath_append_singleton]
    exact (numbered_ofPath f hle).isValid.contains_trans hmiddle (hmiddle.child hlevel d)
      (ih hlt.le) (hmiddle.contains_child hlevel d)

theorem next_ofPath (f : Face) {d e : Digit} (h : path.length < maxLevel) (hde : d.val + 1 = e.val) :
    (ofPath f (path ++ [d])).next = ofPath f (path ++ [e]) := by
  have hlength (d : Digit) : (path ++ [d]).length ≤ maxLevel := by simpa using h
  have hd := numbered_ofPath f (hlength d)
  have he := numbered_ofPath f (hlength e)
  rw [pathNumber_append_singleton, List.length_append, List.length_singleton] at hd he
  have hsum : f.number * 4 ^ (path.length + 1) + (4 * pathNumber path + e.val) =
      f.number * 4 ^ (path.length + 1) + (4 * pathNumber path + d.val) + 1 := by omega
  rw [hsum] at he
  exact (hd.next he.number_lt).eq_of_numbered he

/-! ## 3. Written forms -/

theorem hexDigit_injective {m n : Nat} (hm : m < 16) (hn : n < 16) (h : hexDigit m = hexDigit n) :
    m = n := by
  interval_cases m <;> interval_cases n <;> first | rfl | exact absurd h (by decide)

theorem hexDigits_injective {v w n : Nat} (h : hexDigits v n = hexDigits w n) :
    v % 16 ^ n = w % 16 ^ n := by
  induction n generalizing v w with
  | zero => rw [Nat.pow_zero, Nat.mod_one, Nat.mod_one]
  | succ n ih =>
    obtain ⟨hinit, hlast⟩ := List.append_inj' h rfl
    have hdigit := hexDigit_injective (Nat.mod_lt v (by decide)) (Nat.mod_lt w (by decide))
      (List.singleton_inj.1 hlast)
    rw [Nat.pow_succ', Nat.mod_mul, Nat.mod_mul, ih hinit, hdigit]

theorem pathChars_injective {a b : CellId} (h : a.pathChars = b.pathChars) : a.path = b.path := by
  apply List.map_injective_iff.2 _ h
  intro d e hde
  exact Fin.ext (hexDigit_injective (Nat.lt_trans d.isLt (by decide))
    (Nat.lt_trans e.isLt (by decide)) hde)

/-- **The written form determines the word**, also that of a word which names no cell. -/
theorem display_injective : Function.Injective display := by
  intro a b hab
  have hchars : a.displayChars = b.displayChars := String.ofList_injective hab
  have hne {c d : CellId} (h : hexDigit c.faceNumber :: '/' :: c.pathChars =
      "Invalid: ".toList ++ d.hex) : False := by
    have hsecond : '/' = 'n' := Option.some.inj (congrArg (·[1]?) h)
    exact absurd hsecond (by decide)
  unfold displayChars at hchars
  by_cases ha : a.IsValid
  · by_cases hb : b.IsValid
    · rw [if_pos ha, if_pos hb, List.cons.injEq, List.cons.injEq] at hchars
      have hface := hexDigit_injective (Nat.lt_trans ha.1 (by decide))
        (Nat.lt_trans hb.1 (by decide)) hchars.1
      rw [← ha.ofPath_path.2, ← hb.ofPath_path.2, hface, pathChars_injective hchars.2.2]
    · rw [if_pos ha, if_neg hb] at hchars
      exact (hne hchars).elim
  · by_cases hb : b.IsValid
    · rw [if_neg ha, if_pos hb] at hchars
      exact (hne hchars.symm).elim
    · rw [if_neg ha, if_neg hb] at hchars
      have hword := hexDigits_injective (List.append_cancel_left hchars)
      change a.word.toNat % 2 ^ 64 = b.word.toNat % 2 ^ 64 at hword
      rw [Nat.mod_eq_of_lt a.word.toNat_lt, Nat.mod_eq_of_lt b.word.toNat_lt] at hword
      exact ext hword

theorem toString_of_lt {n : Nat} (h : n < 10) : toString n = String.ofList [hexDigit n] := by
  interval_cases n <;> rfl

theorem display_ofPath (f : Face) (h : path.length ≤ maxLevel) : (ofPath f path).display =
    toString f.number ++ "/" ++ String.join (path.map fun d => toString d.val) := by
  have hvalid := (numbered_ofPath f h).isValid
  have hface : f.number < 10 := Nat.lt_trans f.number_lt (by decide)
  have hdigit (d : Digit) : (toString d.val).toList = [hexDigit d.val] := by
    rw [toString_of_lt (Nat.lt_trans d.isLt (by decide)), String.toList_ofList]
  apply String.toList_injective
  rw [display, displayChars, if_pos hvalid, faceNumber_ofPath f h, pathChars, path_ofPath f h,
    toString_of_lt hface]
  simp only [String.toList_append, String.toList_ofList, String.toList_join, List.flatMap_map,
    hdigit]
  rw [← List.map_eq_flatMap]
  rfl

/-- **Valid ids are the paths of the hierarchy**: each is reached from one face along one path, its
parent, first child and next sibling are those of the path, and its written form is the path. -/
theorem valid_ids_are_paths :
    Set.BijOn (fun name : Face × List Digit => ofPath name.1 name.2)
      {name | name.2.length ≤ maxLevel} {c | c.IsValid} ∧
    (∀ (f : Face) (path : List Digit), path.length ≤ maxLevel →
      (ofPath f path).level = path.length ∧
      (ofPath f path).display =
        toString f.number ++ "/" ++ String.join (path.map fun d => toString d.val)) ∧
    (∀ (f : Face) (path : List Digit), path.length < maxLevel →
      (∀ d, (ofPath f (path ++ [d])).parent = ofPath f path) ∧
      (ofPath f path).childBegin = ofPath f (path ++ [0]) ∧
      ∀ d e : Digit, d.val + 1 = e.val →
        (ofPath f (path ++ [d])).next = ofPath f (path ++ [e])) ∧
    Function.Injective display := by
  refine ⟨⟨fun name h => (numbered_ofPath name.1 h).isValid, ?_, ?_⟩,
    fun f path h => ⟨level_ofPath f h, display_ofPath f h⟩, fun f path h => ?_, display_injective⟩
  · rintro ⟨f, path⟩ hpath ⟨g, path'⟩ hpath' heq
    change ofPath f path = ofPath g path' at heq
    have hface := faceNumber_ofPath f hpath
    have hsame := path_ofPath f hpath
    rw [heq, faceNumber_ofPath g hpath'] at hface
    rw [heq, path_ofPath g hpath'] at hsame
    rw [Face.number_injective hface, show path' = path from hsame]
  · intro c hc
    exact ⟨(Face.numbered c.faceNumber, c.path), hc.ofPath_path⟩
  · obtain ⟨k, hk⟩ : ∃ k, 30 - path.length = k + 1 :=
      ⟨30 - path.length - 1, by change path.length < 30 at h; omega⟩
    have hpath := numbered_ofPath f h.le
    rw [hk] at hpath
    refine ⟨fun d => ?_, ?_, fun d e => next_ofPath f h⟩
    · rw [ofPath_append_singleton]
      exact hpath.parent_child d
    · rw [ofPath_append_singleton]
      exact hpath.childBegin_eq

/-- The cell `2/0313`. -/
theorem valid_ids_are_paths_of_four_digits :
    ([0, 3, 1, 3] : List Digit).length ≤ maxLevel ∧ ([0, 3, 1] : List Digit).length < maxLevel ∧
    (ofPath .zPos [0, 3, 1, 3]).IsValid ∧ (ofPath .zPos [0, 3, 1, 3]).level = 4 ∧
    (ofPath .zPos [0, 3, 1, 3]).display = "2/0313" ∧
    (ofPath .zPos ([0, 3, 1] ++ [2])).parent = ofPath .zPos [0, 3, 1] ∧
    (ofPath .zPos [0, 3, 1]).childBegin = ofPath .zPos ([0, 3, 1] ++ [0]) ∧
    (ofPath .zPos ([0, 3, 1] ++ [2])).next = ofPath .zPos ([0, 3, 1] ++ [3]) := by
  have hfour : ([0, 3, 1, 3] : List Digit).length ≤ maxLevel := by decide
  have hthree : ([0, 3, 1] : List Digit).length < maxLevel := by decide
  obtain ⟨hbij, hnames, hsteps, -⟩ := valid_ids_are_paths
  obtain ⟨hlevel, hdisplay⟩ := hnames .zPos [0, 3, 1, 3] hfour
  obtain ⟨hparent, hbegin, hnext⟩ := hsteps .zPos [0, 3, 1] hthree
  have hname : (Face.zPos, ([0, 3, 1, 3] : List Digit)) ∈
      {name : Face × List Digit | name.2.length ≤ maxLevel} := hfour
  have hvalid := hbij.mapsTo hname
  rw [Set.mem_ofPred_eq] at hvalid
  have htext : toString Face.zPos.number ++ "/" ++
      String.join (([0, 3, 1, 3] : List Digit).map fun d => toString d.val) = "2/0313" := by decide
  exact ⟨hfour, hthree, hvalid, hlevel, hdisplay.trans htext, hparent 2, hbegin,
    hnext 2 3 rfl⟩

end CellId

end SphereIndex
