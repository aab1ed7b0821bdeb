import Mathlib.Tactic.FieldSimp
import Mathlib.Tactic.Linarith
import Mathlib.Tactic.LinearCombination
import SphereIndex.Planar.Segment
import SphereIndex.Proofs.Exact

/-!
# Parts of a segment

In exact arithmetic the bound that is carried along with a segment AB is always the bounding box of
a part of AB, given by two parameters.  Moving an end of the bound to where AB crosses a line gives
the box of the part on one side of that line, so clipping and splitting are operations on
parameters.
-/

namespace SphereIndex.Planar

/-! ## 1. Linear functions -/

def linear (p q t : ℝ) : ℝ := p + t * (q - p)

@[simp] theorem linear_zero (p q : ℝ) : linear p q 0 = p := by
  rw [linear, zero_mul, add_zero]

@[simp] theorem linear_one (p q : ℝ) : linear p q 1 = q := by
  rw [linear, one_mul, add_sub_cancel]

theorem linear_le_linear {p q s t : ℝ} (h : p ≤ q) (hst : s ≤ t) : linear p q s ≤ linear p q t := by
  have := mul_le_mul_of_nonneg_right hst (sub_nonneg.2 h)
  unfold linear
  linarith

theorem linear_le_linear_of_le {p q s t : ℝ} (h : q ≤ p) (hst : s ≤ t) :
    linear p q t ≤ linear p q s := by
  have := mul_le_mul_of_nonneg_right hst (sub_nonneg.2 h)
  unfold linear
  linarith

/-- The parameter at which a linear function has a given value. -/
noncomputable def crossing (p q x : ℝ) : ℝ := (x - p) / (q - p)

theorem linear_crossing {p q : ℝ} (h : p ≠ q) (x : ℝ) : linear p q (crossing p q x) = x := by
  have : q - p ≠ 0 := sub_ne_zero.2 h.symm
  unfold linear crossing
  rw [div_mul_cancel₀ _ this]
  ring

theorem interpolate_eq {p q : ℝ} (h : p ≠ q) (x p' q' : ℝ) :
    interpolate x p q p' q' = linear p' q' (crossing p q x) := by
  have h1 : q - p ≠ 0 := sub_ne_zero.2 h.symm
  have h2 : p - q ≠ 0 := sub_ne_zero.2 h
  change (if |p - x| ≤ |q - x| then p' + (q' - p') * (x - p) / (q - p)
    else q' + (p' - q') * (x - q) / (p - q)) = p' + (x - p) / (q - p) * (q' - p')
  split
  · ring
  · rw [show p - q = -(q - p) by ring]
    field_simp
    ring

theorem le_crossing_iff {p q : ℝ} (h : p < q) (s x : ℝ) : s ≤ crossing p q x ↔ linear p q s ≤ x := by
  rw [crossing, le_div_iff₀ (sub_pos.2 h), linear]
  constructor <;> intro h' <;> linarith

theorem crossing_le_iff {p q : ℝ} (h : p < q) (s x : ℝ) : crossing p q x ≤ s ↔ x ≤ linear p q s := by
  rw [crossing, div_le_iff₀ (sub_pos.2 h), linear]
  constructor <;> intro h' <;> linarith

theorem le_crossing_iff_of_lt {p q : ℝ} (h : q < p) (s x : ℝ) :
    s ≤ crossing p q x ↔ x ≤ linear p q s := by
  rw [crossing, le_div_iff_of_neg (sub_neg.2 h), linear]
  constructor <;> intro h' <;> linarith

theorem crossing_le_iff_of_lt {p q : ℝ} (h : q < p) (s x : ℝ) :
    crossing p q x ≤ s ↔ linear p q s ≤ x := by
  rw [crossing, div_le_iff_of_neg (sub_neg.2 h), linear]
  constructor <;> intro h' <;> linarith

/-! ## 2. Values of a part -/

/-- The values of a linear function between two parameters. -/
noncomputable def span (p q s t : ℝ) : Interval ℝ := .ofPair (linear p q s) (linear p q t)

theorem span_of_le {p q s t : ℝ} (h : p ≤ q) (hst : s ≤ t) :
    span p q s t = ⟨linear p q s, linear p q t⟩ := by
  change (if linear p q s ≤ linear p q t then _ else _) = _
  rw [if_pos (linear_le_linear h hst)]

theorem span_of_ge {p q s t : ℝ} (h : q ≤ p) (hst : s ≤ t) :
    span p q s t = ⟨linear p q t, linear p q s⟩ := by
  have hle := linear_le_linear_of_le h hst
  change (if linear p q s ≤ linear p q t then _ else _) = _
  split
  · rename_i h'
    rw [le_antisymm h' hle]
  · rfl

theorem span_le {p q s t : ℝ} (hst : s ≤ t) : (span p q s t).lo ≤ (span p q s t).hi := by
  rcases le_total p q with h | h
  · rw [span_of_le h hst]
    exact linear_le_linear h hst
  · rw [span_of_ge h hst]
    exact linear_le_linear_of_le h hst

theorem span_contains {p q s t x : ℝ} (h1 : s ≤ x) (h2 : x ≤ t) :
    (span p q s t).lo ≤ linear p q x ∧ linear p q x ≤ (span p q s t).hi := by
  have hst := h1.trans h2
  rcases le_total p q with h | h
  · rw [span_of_le h hst]
    exact ⟨linear_le_linear h h1, linear_le_linear h h2⟩
  · rw [span_of_ge h hst]
    exact ⟨linear_le_linear_of_le h h2, linear_le_linear_of_le h h1⟩

theorem span_subset {p q s s' t t' : ℝ} (hs : s ≤ s') (hst : s' ≤ t') (ht : t' ≤ t) :
    (span p q s t).lo ≤ (span p q s' t').lo ∧ (span p q s' t').hi ≤ (span p q s t).hi := by
  have hwhole := hs.trans (hst.trans ht)
  rcases le_total p q with h | h
  · rw [span_of_le h hwhole, span_of_le h hst]
    exact ⟨linear_le_linear h hs, linear_le_linear h ht⟩
  · rw [span_of_ge h hwhole, span_of_ge h hst]
    exact ⟨linear_le_linear_of_le h ht, linear_le_linear_of_le h hs⟩

/-- The end of the interval of values that belongs to the first of the two parameters. -/
noncomputable def firstEnd (p q : ℝ) : End := if q < p then .hi else .lo

theorem set_firstEnd {p q s r t : ℝ} (h1 : s ≤ r) (h2 : r ≤ t) :
    (span p q s t).set (firstEnd p q) (linear p q r) = span p q r t := by
  unfold firstEnd
  split
  · rename_i h
    rw [span_of_ge h.le (h1.trans h2), span_of_ge h.le h2]
    rfl
  · rename_i h
    rw [span_of_le (not_lt.1 h) (h1.trans h2), span_of_le (not_lt.1 h) h2]
    rfl

theorem set_firstEnd_other {p q s r t : ℝ} (h1 : s ≤ r) (h2 : r ≤ t) :
    (span p q s t).set (firstEnd p q).other (linear p q r) = span p q s r := by
  unfold firstEnd
  split
  · rename_i h
    rw [span_of_ge h.le (h1.trans h2), span_of_ge h.le h1]
    rfl
  · rename_i h
    rw [span_of_le (not_lt.1 h) (h1.trans h2), span_of_le (not_lt.1 h) h1]
    rfl

/-- Moving an end inwards never meets the other end. -/
theorem shrinkEnd?_eq_set {a : Interval ℝ} {x : ℝ} (h1 : a.lo ≤ x) (h2 : x ≤ a.hi) (e : End) :
    shrinkEnd? a e x = some (a.set e x) := by
  cases e with
  | lo =>
    change (if a.hi < x then none else some (if a.lo < x then a.set .lo x else a)) = _
    rw [if_neg (not_lt.2 h2)]
    split
    · rfl
    · -- An end that is not moved is there already.
      rename_i h
      rw [le_antisymm (not_lt.1 h) h1]
      rfl
  | hi =>
    change (if x < a.lo then none else some (if x < a.hi then a.set .hi x else a)) = _
    rw [if_neg (not_lt.2 h1)]
    split
    · rfl
    · rename_i h
      rw [le_antisymm h2 (not_lt.1 h)]
      rfl

/-! ## 3. Cutting -/

/-- **A condition cut out of the parameters from `s` to `t`**: it holds nowhere there, or exactly
between two of them. -/
inductive Cut (P : ℝ → Prop) (s t : ℝ) : Option (ℝ × ℝ) → Prop where
  | nowhere (h : ∀ x, s ≤ x → x ≤ t → ¬P x) : Cut P s t none
  | between {s' t' : ℝ} (hs : s ≤ s') (hst : s' ≤ t') (ht : t' ≤ t)
      (h : ∀ x, s ≤ x → x ≤ t → (P x ↔ s' ≤ x ∧ x ≤ t')) : Cut P s t (some (s', t'))

namespace Cut

variable {P Q : ℝ → Prop} {s t : ℝ}

theorem all (hst : s ≤ t) (h : ∀ x, s ≤ x → x ≤ t → P x) : Cut P s t (some (s, t)) :=
  between le_rfl hst le_rfl fun x h1 h2 => ⟨fun _ => ⟨h1, h2⟩, fun _ => h x h1 h2⟩

theorem and {s' t' : ℝ} {r : Option (ℝ × ℝ)} (hP : Cut P s t (some (s', t')))
    (hQ : Cut Q s' t' r) : Cut (fun x => P x ∧ Q x) s t r := by
  obtain _ | ⟨hs, hst, ht, h⟩ := hP
  cases hQ with
  | nowhere h' =>
    refine nowhere fun x h1 h2 hx => ?_
    obtain ⟨h3, h4⟩ := (h x h1 h2).1 hx.1
    exact h' x h3 h4 hx.2
  | between hs' hst' ht' h' =>
    refine between (hs.trans hs') hst' (ht'.trans ht) fun x h1 h2 => ?_
    rw [h x h1 h2]
    constructor
    · rintro ⟨⟨h3, h4⟩, hx⟩
      exact (h' x h3 h4).1 hx
    · intro hx
      have h3 := hs'.trans hx.1
      have h4 := hx.2.trans ht'
      exact ⟨⟨h3, h4⟩, (h' x h3 h4).2 hx⟩

theorem and_nowhere (hP : Cut P s t none) : Cut (fun x => P x ∧ Q x) s t none := by
  obtain ⟨h⟩ := hP
  exact nowhere fun x h1 h2 hx => h x h1 h2 hx.1

theorem congr {r : Option (ℝ × ℝ)} (h : Cut P s t r) (hPQ : ∀ x, P x ↔ Q x) : Cut Q s t r := by
  rwa [show Q = P from funext fun x => propext (hPQ x).symm]

end Cut

/-- The side of a value that an end of an interval keeps. -/
def Keeps (e : End) (a : Interval ℝ) (x : ℝ) : Prop :=
  match e with
  | .lo => a.lo ≤ x
  | .hi => x ≤ a.hi

section clip
variable {p q p' q' s t : ℝ}

/-- The end across that moves along with end `e`. -/
noncomputable def pairedEnd (p q p' q' : ℝ) (e : End) : End :=
  if e = firstEnd p q then firstEnd p' q' else (firstEnd p' q').other

theorem clipEnd?_of_keeps {crossing : ℝ → ℝ} {e e' : End} {clip bound other : Interval ℝ}
    (h : Keeps e clip (bound.get e)) :
    clipEnd? crossing e e' clip bound other = some (bound, other) := by
  cases e with
  | lo => exact if_neg (not_lt.2 h)
  | hi => exact if_neg (not_lt.2 h)

theorem clipEnd?_of_not_keeps {crossing : ℝ → ℝ} {e e' : End} {clip bound other : Interval ℝ}
    (h : ¬Keeps e clip (bound.get e)) (h' : ¬Keeps e clip (bound.get e.other)) :
    clipEnd? crossing e e' clip bound other = none := by
  cases e with
  | lo => exact (if_pos (not_le.1 h)).trans (if_pos (not_le.1 h'))
  | hi => exact (if_pos (not_le.1 h)).trans (if_pos (not_le.1 h'))

theorem clipEnd?_of_crosses {crossing : ℝ → ℝ} {e e' : End} {clip bound other : Interval ℝ}
    (h : ¬Keeps e clip (bound.get e)) (h' : Keeps e clip (bound.get e.other)) :
    clipEnd? crossing e e' clip bound other =
      (shrinkEnd? other e' (crossing (clip.get e))).map fun o => (bound.set e (clip.get e), o) := by
  cases e with
  | lo => exact (if_pos (not_le.1 h)).trans (if_neg (not_lt.2 h'))
  | hi => exact (if_pos (not_le.1 h)).trans (if_neg (not_lt.2 h'))

theorem keeps_of_keeps_get {e : End} {clip : Interval ℝ} {x : ℝ} (h1 : s ≤ x) (h2 : x ≤ t)
    (h : Keeps e clip ((span p q s t).get e)) : Keeps e clip (linear p q x) := by
  obtain ⟨hlo, hhi⟩ := span_contains (p := p) (q := q) h1 h2
  cases e with
  | lo => exact le_trans h hlo
  | hi => exact le_trans hhi h

theorem keeps_get_other_of_keeps {e : End} {clip : Interval ℝ} {x : ℝ} (h1 : s ≤ x) (h2 : x ≤ t)
    (h : Keeps e clip (linear p q x)) : Keeps e clip ((span p q s t).get e.other) := by
  obtain ⟨hlo, hhi⟩ := span_contains (p := p) (q := q) h1 h2
  cases e with
  | lo => exact le_trans h hhi
  | hi => exact le_trans hlo h

/-- Where the segment crosses the side that it sticks out of, and which parameters are inside. -/
theorem keeps_iff_crossing {e : End} {clip : Interval ℝ} (hst : s ≤ t)
    (h : ¬Keeps e clip ((span p q s t).get e)) (h' : Keeps e clip ((span p q s t).get e.other)) :
    p ≠ q ∧ s ≤ crossing p q (clip.get e) ∧ crossing p q (clip.get e) ≤ t ∧
      ∀ x, Keeps e clip (linear p q x) ↔
        if e = firstEnd p q then crossing p q (clip.get e) ≤ x else x ≤ crossing p q (clip.get e) := by
  -- The ends of the values are those of the parameters, in this order or the other.
  rcases lt_trichotomy p q with hpq | rfl | hpq
  · rw [span_of_le hpq.le hst] at h h'
    rw [firstEnd, if_neg hpq.not_gt, le_crossing_iff hpq, crossing_le_iff hpq]
    cases e with
    | lo => exact ⟨hpq.ne, (not_le.1 h).le, h', fun x => by
        rw [if_pos rfl, crossing_le_iff hpq]
        rfl⟩
    | hi => exact ⟨hpq.ne, h', (not_le.1 h).le, fun x => by
        rw [if_neg (by decide), le_crossing_iff hpq]
        rfl⟩
  · -- A constant function does not stick out at one end only.
    rw [span_of_le le_rfl hst] at h h'
    refine absurd ?_ h
    unfold linear at h' ⊢
    cases e with
    | lo => simpa [Keeps, Interval.get, End.other] using h'
    | hi => simpa [Keeps, Interval.get, End.other] using h'
  · rw [span_of_ge hpq.le hst] at h h'
    rw [firstEnd, if_pos hpq, le_crossing_iff_of_lt hpq, crossing_le_iff_of_lt hpq]
    cases e with
    | lo => exact ⟨hpq.ne', h', (not_le.1 h).le, fun x => by
        rw [if_neg (by decide), le_crossing_iff_of_lt hpq]
        rfl⟩
    | hi => exact ⟨hpq.ne', (not_le.1 h).le, h', fun x => by
        rw [if_pos rfl, crossing_le_iff_of_lt hpq]
        rfl⟩

/-- **One side of the clip cuts off the parameters beyond that side.** -/
theorem clipEnd?_cut (p q p' q' : ℝ) (e : End) (hst : s ≤ t) (clip : Interval ℝ) :
    ∃ r, Cut (fun x => Keeps e clip (linear p q x)) s t r ∧
      clipEnd? (fun x => interpolate x p q p' q') e (pairedEnd p q p' q' e) clip
        (span p q s t) (span p' q' s t) =
        r.map fun (s', t') => (span p q s' t', span p' q' s' t') := by
  by_cases h : Keeps e clip ((span p q s t).get e)
  · exact ⟨_, .all hst fun x h1 h2 => keeps_of_keeps_get h1 h2 h, clipEnd?_of_keeps h⟩
  by_cases h' : Keeps e clip ((span p q s t).get e.other)
  · obtain ⟨hne, hs, ht, hiff⟩ := keeps_iff_crossing hst h h'
    have hval := linear_crossing hne (clip.get e)
    have hacross := span_contains (p := p') (q := q') hs ht
    rw [clipEnd?_of_crosses h h', interpolate_eq hne, shrinkEnd?_eq_set hacross.1 hacross.2]
    generalize crossing p q (clip.get e) = r at *
    rw [← hval]
    -- The crossing becomes the first or the last parameter, and the same holds across.
    unfold pairedEnd
    by_cases he : e = firstEnd p q
    · refine ⟨_, .between hs ht le_rfl fun x h1 h2 => ?_, ?_⟩
      · rw [hiff, if_pos he]
        exact ⟨fun hx => ⟨hx, h2⟩, fun hx => hx.1⟩
      · rw [if_pos he, he, set_firstEnd hs ht, set_firstEnd hs ht]
        rfl
    · refine ⟨_, .between le_rfl hs ht fun x h1 h2 => ?_, ?_⟩
      · rw [hiff, if_neg he]
        exact ⟨fun hx => ⟨h1, hx⟩, fun hx => hx.2⟩
      · have hother : e = (firstEnd p q).other := by
          revert he
          cases e <;> cases firstEnd p q <;> decide
        rw [if_neg he, hother, set_firstEnd_other hs ht, set_firstEnd_other hs ht]
        rfl
  · refine ⟨none, .nowhere fun x h1 h2 hx => h' (keeps_get_other_of_keeps h1 h2 hx), ?_⟩
    exact clipEnd?_of_not_keeps h h'

theorem clipAxis?_cut (p q p' q' : ℝ) (hst : s ≤ t) (clip : Interval ℝ) :
    ∃ r, Cut (fun x => clip.Contains (linear p q x)) s t r ∧
      clipAxis? (fun x => interpolate x p q p' q') (pairedEnd p q p' q' .lo) clip
        (span p q s t) (span p' q' s t) =
        r.map fun (s', t') => (span p q s' t', span p' q' s' t') := by
  have hhi : (pairedEnd p q p' q' .lo).other = pairedEnd p q p' q' .hi := by
    unfold pairedEnd
    cases firstEnd p q <;> cases firstEnd p' q' <;> decide
  obtain ⟨r, hr, h⟩ := clipEnd?_cut p q p' q' .lo hst clip
  unfold clipAxis?
  rw [h, hhi]
  cases r with
  | none => exact ⟨none, hr.and_nowhere, rfl⟩
  | some r =>
    obtain ⟨s', t'⟩ := r
    have hst' : s' ≤ t' := by
      obtain _ | ⟨-, hst', -, -⟩ := hr
      exact hst'
    obtain ⟨r', hr', h'⟩ := clipEnd?_cut p q p' q' .hi hst' clip
    exact ⟨r', hr.and hr', h'⟩

end clip

end SphereIndex.Planar
