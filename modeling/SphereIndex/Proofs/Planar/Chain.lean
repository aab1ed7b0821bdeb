import Mathlib.Order.Bounds.Basic
import SphereIndex.Proofs.Planar.Clip
import SphereIndex.Proofs.Planar.Segment

/-!
# Repeated clipping in exact arithmetic

A clip knows of the rectangles before it only the bound that they left.  In exact arithmetic this is
enough: the bound is the box of the part of AB in all of them, and a part of AB is known from its
box.
-/

namespace SphereIndex

open Planar

/-- **The bounding box of a set of points**: its sides are the least and the greatest coordinates.
-/
structure Rect.IsBox (r : Rect ℝ) (s : Set (Vec2 ℝ)) : Prop where
  isLeast : ∀ axis, IsLeast ((fun p => p.along axis) '' s) (r.along axis).lo
  isGreatest : ∀ axis, IsGreatest ((fun p => p.along axis) '' s) (r.along axis).hi

theorem Rect.IsBox.unique {r r' : Rect ℝ} {s : Set (Vec2 ℝ)} (h : r.IsBox s) (h' : r'.IsBox s) :
    r = r' := by
  have hsides (axis : Axis) : r.along axis = r'.along axis := by
    have hlo := (h.isLeast axis).unique (h'.isLeast axis)
    have hhi := (h.isGreatest axis).unique (h'.isGreatest axis)
    exact (Interval.mk.injEq ..).mpr ⟨hlo, hhi⟩
  exact (Rect.mk.injEq ..).mpr ⟨hsides .u, hsides .v⟩

namespace Planar

/-! ## 1. The box of a part -/

theorem span_isLeast {p q s t : ℝ} (hst : s ≤ t) :
    IsLeast (linear p q '' Set.Icc s t) (span p q s t).lo := by
  constructor
  · rcases le_total p q with h | h
    · rw [span_of_le h hst]
      exact Set.mem_image_of_mem _ (Set.left_mem_Icc.2 hst)
    · rw [span_of_ge h hst]
      exact Set.mem_image_of_mem _ (Set.right_mem_Icc.2 hst)
  · rintro _ ⟨x, ⟨hs, ht⟩, rfl⟩
    exact (span_contains hs ht).1

theorem span_isGreatest {p q s t : ℝ} (hst : s ≤ t) :
    IsGreatest (linear p q '' Set.Icc s t) (span p q s t).hi := by
  constructor
  · rcases le_total p q with h | h
    · rw [span_of_le h hst]
      exact Set.mem_image_of_mem _ (Set.right_mem_Icc.2 hst)
    · rw [span_of_ge h hst]
      exact Set.mem_image_of_mem _ (Set.left_mem_Icc.2 hst)
  · rintro _ ⟨x, ⟨hs, ht⟩, rfl⟩
    exact (span_contains hs ht).2

theorem partBound_isBox (a b : Vec2 ℝ) {s t : ℝ} (hst : s ≤ t) :
    (partBound a b s t).IsBox (pointAt a b '' Set.Icc s t) := by
  have himage (axis : Axis) : (fun p : Vec2 ℝ => p.along axis) '' (pointAt a b '' Set.Icc s t) =
      linear (a.along axis) (b.along axis) '' Set.Icc s t := by
    rw [Set.image_image]
    exact Set.image_congr fun x _ => (linear_along a b axis x).symm
  constructor
  · intro axis
    rw [himage, partBound_along]
    exact span_isLeast hst
  · intro axis
    rw [himage, partBound_along]
    exact span_isGreatest hst

/-! ## 2. One clip after another -/

/-- The points of AB in all of some rectangles. -/
def commonPart (a b : Vec2 ℝ) (clips : List (Rect ℝ)) : Set (Vec2 ℝ) :=
  {p | OnSegment a b p ∧ ∀ clip ∈ clips, clip.Contains p}

/-- **Clipping the box of a part of AB by several rectangles** gives the box of the part of it in
all of them. -/
theorem clipAllBy?_cut (a b : Vec2 ℝ) (clips : List (Rect ℝ)) {s t : ℝ} (hst : s ≤ t) :
    ∃ r, Cut (fun x => ∀ clip ∈ clips, clip.Contains (pointAt a b x)) s t r ∧
      clipAllBy? interpolate a b clips (partBound a b s t) =
        r.map fun (s', t') => partBound a b s' t' := by
  induction clips generalizing s t with
  | nil => exact ⟨some (s, t), .all hst fun x _ _ => List.forall_mem_nil _, rfl⟩
  | cons clip clips ih =>
    obtain ⟨r, hr, h⟩ := clipBound?_cut a b clip hst
    change clipBoundBy? interpolate a b clip (partBound a b s t) = _ at h
    unfold clipAllBy?
    rw [List.foldlM_cons, h]
    simp only [List.forall_mem_cons]
    cases r with
    | none => exact ⟨none, hr.and_nowhere, rfl⟩
    | some r =>
      obtain ⟨s', t'⟩ := r
      have hst' : s' ≤ t' := by
        obtain _ | ⟨-, hst', -, -⟩ := hr
        exact hst'
      -- The other rectangles clip the part that the first one left.
      obtain ⟨r', hr', h'⟩ := ih hst'
      exact ⟨r', hr.and hr', h'⟩

theorem Cut.commonPart_eq {a b : Vec2 ℝ} {clips : List (Rect ℝ)} {s t : ℝ}
    (h : Cut (fun x => ∀ clip ∈ clips, clip.Contains (pointAt a b x)) 0 1 (some (s, t))) :
    commonPart a b clips = pointAt a b '' Set.Icc s t := by
  obtain _ | ⟨hs, hst, ht, hiff⟩ := h
  ext p
  constructor
  · rintro ⟨⟨x, h0, h1, rfl⟩, hall⟩
    exact Set.mem_image_of_mem _ ((hiff x h0 h1).1 hall)
  · rintro ⟨x, ⟨hsx, hxt⟩, rfl⟩
    have h0 := hs.trans hsx
    have h1 := hxt.trans ht
    exact ⟨⟨x, h0, h1, rfl⟩, (hiff x h0 h1).2 ⟨hsx, hxt⟩⟩

/-- What a run of clips on the whole of AB leaves: nothing if no point of AB is in all rectangles,
or else the box of the points that are. -/
theorem clipAllBy?_ofPair (a b : Vec2 ℝ) (clips : List (Rect ℝ)) :
    (commonPart a b clips = ∅ ∧ clipAllBy? interpolate a b clips (.ofPair a b) = none) ∨
      ∃ r, (commonPart a b clips).Nonempty ∧ r.IsBox (commonPart a b clips) ∧
        clipAllBy? interpolate a b clips (.ofPair a b) = some r := by
  rw [ofPair_eq_partBound]
  obtain ⟨r, hr, h⟩ := clipAllBy?_cut a b clips zero_le_one
  rw [h]
  cases r with
  | none =>
    obtain ⟨hnowhere⟩ := hr
    refine .inl ⟨Set.eq_empty_of_forall_notMem ?_, rfl⟩
    rintro p ⟨⟨x, h0, h1, rfl⟩, hall⟩
    exact hnowhere x h0 h1 hall
  | some r =>
    obtain ⟨s, t⟩ := r
    have hst : s ≤ t := by
      obtain _ | ⟨-, hst, -, -⟩ := hr
      exact hst
    rw [hr.commonPart_eq]
    exact .inr ⟨_, (Set.nonempty_Icc.2 hst).image _, partBound_isBox a b hst, rfl⟩

/-- **Repeated clipping is exact.**  Clipping the box of AB by one rectangle after another succeeds
at every step if and only if a point of AB lies in all of them, and then leaves the bounding box of
the points of AB that do.  So the order of the rectangles does not matter. -/
theorem clipAll_exact (a b : Vec2 ℝ) (clips : List (Rect ℝ)) :
    ((clipAllBy? interpolate a b clips (.ofPair a b)).isSome ↔
      ∃ p, OnSegment a b p ∧ ∀ clip ∈ clips, clip.Contains p) ∧
    (∀ r, clipAllBy? interpolate a b clips (.ofPair a b) = some r →
      r.IsBox (commonPart a b clips)) ∧
    ∀ clips', (∀ clip, clip ∈ clips' ↔ clip ∈ clips) →
      clipAllBy? interpolate a b clips' (.ofPair a b) =
        clipAllBy? interpolate a b clips (.ofPair a b) := by
  refine ⟨?_, ?_, ?_⟩
  · rcases clipAllBy?_ofPair a b clips with ⟨hempty, h⟩ | ⟨r, hne, -, h⟩
    · rw [h]
      refine iff_of_false Bool.false_ne_true fun ⟨p, hp⟩ => ?_
      exact Set.eq_empty_iff_forall_notMem.1 hempty p hp
    · rw [h]
      exact iff_of_true rfl hne
  · intro r hsome
    rcases clipAllBy?_ofPair a b clips with ⟨-, h⟩ | ⟨r', -, hbox, h⟩
    · rw [h] at hsome
      cases hsome
    · rw [h] at hsome
      cases hsome
      exact hbox
  · intro clips' hmem
    have hsame : commonPart a b clips' = commonPart a b clips := by
      simp only [commonPart, hmem]
    have h' := clipAllBy?_ofPair a b clips'
    rw [hsame] at h'
    rcases clipAllBy?_ofPair a b clips with ⟨hempty, h⟩ | ⟨r, hne, hbox, h⟩
    · rcases h' with ⟨-, h'⟩ | ⟨r', hne, -, -⟩
      · rw [h, h']
      · exact absurd hempty hne.ne_empty
    · rcases h' with ⟨hempty, -⟩ | ⟨r', -, hbox', h'⟩
      · exact absurd hempty hne.ne_empty
      · rw [h, h', hbox.unique hbox']

end Planar

end SphereIndex
