import SphereIndex.Proofs.Double
import SphereIndex.Proofs.Planar.Bounds

/-!
# Clipping under rounding

A bound is clipped on one side after another: an end that sticks out of the rectangle moves to its
side, and an end along the other axis to where the segment crosses that side.  Wherever this is
computed to be, no end moves outwards, and none moves past the end opposite to it.  The crossing is
looked for only if the side lies strictly inside the bound, and so never on a segment along the
side.
-/

namespace SphereIndex

open Scalar

variable {α : Type} [Scalar α]

/-! ## 1. Ends -/

namespace Interval

/-- Both ends are numbers. -/
def IsNumber (a : Interval α) : Prop := ∀ e, Scalar.IsNumber (a.get e)

/-- Whether a value lies on the inner side of an end. -/
def Admits (a : Interval α) (e : End) (x : α) : Prop :=
  match e with
  | .lo => a.lo ≤ x
  | .hi => x ≤ a.hi

/-- Whether a value lies on the outer side of an end. -/
def Excludes (a : Interval α) (e : End) (x : α) : Prop :=
  match e with
  | .lo => x < a.lo
  | .hi => a.hi < x

instance (a : Interval α) (e : End) (x : α) : Decidable (a.Excludes e x) :=
  match e with
  | .lo => inferInstanceAs (Decidable (x < a.lo))
  | .hi => inferInstanceAs (Decidable (a.hi < x))

variable [Ordered α] {a b c : Interval α} {e : End} {x y z : α}

theorem Narrows.isNumber (h : b.Narrows a) : b.IsNumber := by
  obtain ⟨hlo, hhi⟩ := Ordered.isNumber_of_le h.le
  intro e
  cases e with
  | lo => exact hlo
  | hi => exact hhi

theorem Narrows.contains_lo (h : b.Narrows a) : a.Contains b.lo :=
  ⟨h.lo_le, Ordered.le_trans h.le h.le_hi⟩

theorem Narrows.not_isEmpty_whole (h : b.Narrows a) : ¬a.IsEmpty := by
  intro hlt
  obtain ⟨hlo, hhi⟩ := h.contains_lo
  exact (Ordered.lt_iff.1 hlt).2 (Ordered.le_trans hlo hhi)

/-- A part of two intervals is a place where they meet. -/
theorem Narrows.meets (h : c.Narrows a) (h' : c.Narrows b) : a.Meets b := by
  obtain ⟨hlo, hhi⟩ := h.contains_lo
  obtain ⟨hlo', hhi'⟩ := h'.contains_lo
  unfold Meets
  split
  · exact ⟨Ordered.le_trans hlo' hhi, Ordered.le_trans hlo' hhi'⟩
  · exact ⟨Ordered.le_trans hlo hhi', Ordered.le_trans hlo hhi⟩

theorem Narrows.of_includes (hb : b.IsNumber) (hne : ¬b.IsEmpty) (h : a.Includes b) :
    b.Narrows a := by
  obtain ⟨hlo, hhi⟩ := h.resolve_left hne
  exact ⟨hlo, (Ordered.not_lt (hb .hi) (hb .lo)).1 hne, hhi⟩

theorem admits_of_not_excludes (ha : a.IsNumber) (hx : Scalar.IsNumber x) (h : ¬a.Excludes e x) :
    a.Admits e x := by
  cases e with
  | lo => exact (Ordered.not_lt hx (ha .lo)).1 h
  | hi => exact (Ordered.not_lt (ha .hi) hx).1 h

/-- An end of `a` that lies between the ends of `b`. -/
theorem contains_get (ha : a.IsNumber) (hb : b.IsNumber) (h : a.Excludes e (b.get e))
    (h' : ¬a.Excludes e (b.get e.other)) : b.Contains (a.get e) := by
  have hinner := admits_of_not_excludes ha (hb e.other) h'
  cases e with
  | lo => exact ⟨Ordered.le_of_lt h, hinner⟩
  | hi => exact ⟨hinner, Ordered.le_of_lt h⟩

/-- Values of a pair are different if a value lies strictly below one end of their interval. -/
theorem beq_eq_false_of_le_lt (hlo : (ofPair x y).lo ≤ z) (hhi : z < (ofPair x y).hi) :
    (x == y) = false := by
  rw [← Bool.not_eq_true, Ordered.beq_iff]
  rintro ⟨hxy, hyx⟩
  have hle : (ofPair x y).hi ≤ (ofPair x y).lo := by
    rw [ofPair, if_pos hxy]
    exact hyx
  exact (Ordered.lt_iff.1 hhi).2 (Ordered.le_trans hle hlo)

/-- **A pair is apart** if an end cuts off one end of a part of its interval, but not the other. -/
theorem beq_eq_false_of_excludes (ha : a.IsNumber) (hb : b.Narrows (.ofPair x y))
    (h : a.Excludes e (b.get e)) (h' : ¬a.Excludes e (b.get e.other)) : (x == y) = false := by
  have hinner := admits_of_not_excludes ha (hb.isNumber e.other) h'
  cases e with
  | lo =>
    apply beq_eq_false_of_lt_le
    · exact Ordered.lt_of_le_of_lt hb.lo_le h
    · exact Ordered.le_trans hinner hb.le_hi
  | hi =>
    apply beq_eq_false_of_le_lt
    · exact Ordered.le_trans hb.lo_le hinner
    · exact Ordered.lt_of_lt_of_le h hb.le_hi

end Interval

namespace Rect

/-- All four sides are numbers. -/
def IsNumber (r : Rect α) : Prop := ∀ axis, (r.along axis).IsNumber

variable [Ordered α] {r s t : Rect α}

theorem Narrows.meets (h : t.Narrows r) (h' : t.Narrows s) : r.Meets s :=
  ⟨(h .u).meets (h' .u), (h .v).meets (h' .v)⟩

theorem Narrows.of_includes (hs : s.IsNumber) (hne : ¬s.IsEmpty) (h : r.Includes s) :
    s.Narrows r := by
  intro axis
  cases axis with
  | u => exact .of_includes (hs .u) (fun hx => hne (.inl hx)) h.1
  | v => exact .of_includes (hs .v) (fun hy => hne (.inr hy)) h.2

theorem Narrows.contains_lo (h : s.Narrows r) : r.Contains s.lo :=
  ⟨(h .u).contains_lo, (h .v).contains_lo⟩

/-- Nothing is a part of an empty rectangle. -/
theorem Narrows.not_isEmpty_whole (h : s.Narrows r) : ¬r.IsEmpty := by
  rintro (hx | hy)
  · exact (h .u).not_isEmpty_whole hx
  · exact (h .v).not_isEmpty_whole hy

end Rect

namespace Planar

/-! ## 2. Effects

The same clipping with a rule that may do more than give a value: fail, or note down what it was
asked for. -/

section effects
variable {m : Type → Type} [Monad m]

def clipEndM (crossing : α → m α) (e e' : End) (clip bound other : Interval α) :
    OptionT m (Interval α × Interval α) :=
  match e with
  | .lo =>
    if bound.lo < clip.lo then
      if bound.hi < clip.lo then failure
      else do
        let y ← crossing clip.lo
        OptionT.mk (pure ((shrinkEnd? other e' y).map fun o => (bound.set .lo clip.lo, o)))
    else return (bound, other)
  | .hi =>
    if clip.hi < bound.hi then
      if clip.hi < bound.lo then failure
      else do
        let y ← crossing clip.hi
        OptionT.mk (pure ((shrinkEnd? other e' y).map fun o => (bound.set .hi clip.hi, o)))
    else return (bound, other)

def clipAxisM (crossing : α → m α) (diag : End) (clip bound other : Interval α) :
    OptionT m (Interval α × Interval α) := do
  let (bound, other) ← clipEndM crossing .lo diag clip bound other
  clipEndM crossing .hi diag.other clip bound other

def clipBoundM (rule : α → α → α → α → α → m α) (a b : Vec2 α) (clip bound : Rect α) :
    OptionT m (Rect α) := do
  let diag := diagonal a b
  let (x, y) ← clipAxisM (fun u => rule u a.x b.x a.y b.y) diag clip.x bound.x bound.y
  let (y, x) ← clipAxisM (fun v => rule v a.y b.y a.x b.x) diag clip.y y x
  return ⟨x, y⟩

theorem clipEndM_def (crossing : α → m α) (e e' : End) (clip bound other : Interval α) :
    clipEndM crossing e e' clip bound other =
      if clip.Excludes e (bound.get e) then
        if clip.Excludes e (bound.get e.other) then failure
        else do
          let y ← crossing (clip.get e)
          OptionT.mk (pure ((shrinkEnd? other e' y).map fun o => (bound.set e (clip.get e), o)))
      else return (bound, other) := by
  cases e <;> rfl

end effects

theorem clipEnd?_def (crossing : α → α) (e e' : End) (clip bound other : Interval α) :
    clipEnd? crossing e e' clip bound other =
      if clip.Excludes e (bound.get e) then
        if clip.Excludes e (bound.get e.other) then none
        else (shrinkEnd? other e' (crossing (clip.get e))).map fun o =>
          (bound.set e (clip.get e), o)
      else some (bound, other) := by
  cases e <;> rfl

variable [Ordered α] {crossing : α → α} {clip bound other r s : Interval α} {e e' diag : End}
  {x : α}

/-! ## 3. One side -/

/-- **No value moves an end outwards or past the other end.** -/
theorem shrinkEnd?_narrows (hb : bound.Narrows bound) (h : shrinkEnd? bound e x = some r) :
    r.Narrows bound := by
  cases e with
  | lo =>
    dsimp only [shrinkEnd?] at h
    split at h
    · cases h
    · rename_i hbeyond
      cases h
      split
      · rename_i hmoved
        have hx := (Ordered.isNumber_of_le (Ordered.le_of_lt hmoved)).2
        apply Interval.Narrows.set .lo
        exact ⟨Ordered.le_of_lt hmoved, (Ordered.not_lt (hb.isNumber .hi) hx).1 hbeyond⟩
      · exact hb
  | hi =>
    dsimp only [shrinkEnd?] at h
    split at h
    · cases h
    · rename_i hbeyond
      cases h
      split
      · rename_i hmoved
        have hx := (Ordered.isNumber_of_le (Ordered.le_of_lt hmoved)).1
        apply Interval.Narrows.set .hi
        exact ⟨(Ordered.not_lt hx (hb.isNumber .lo)).1 hbeyond, Ordered.le_of_lt hmoved⟩
      · exact hb

/-- **One side of the clip keeps both bounds in order.** -/
theorem clipEnd?_narrows (hclip : clip.IsNumber) (hb : bound.Narrows bound)
    (ho : other.Narrows other) (h : clipEnd? crossing e e' clip bound other = some (r, s)) :
    r.Narrows bound ∧ s.Narrows other ∧ clip.Admits e (r.get e) := by
  rw [clipEnd?_def] at h
  by_cases hout : clip.Excludes e (bound.get e)
  · rw [if_pos hout] at h
    by_cases hall : clip.Excludes e (bound.get e.other)
    · rw [if_pos hall] at h
      cases h
    · rw [if_neg hall] at h
      obtain ⟨o, hshrink, heq⟩ := Option.map_eq_some_iff.1 h
      cases heq
      refine ⟨.set e (Interval.contains_get hclip hb.isNumber hout hall),
        shrinkEnd?_narrows ho hshrink, ?_⟩
      rw [Interval.get_set_self]
      cases e with
      | lo => exact hclip .lo
      | hi => exact hclip .hi
  · rw [if_neg hout] at h
    cases h
    exact ⟨hb, ho, Interval.admits_of_not_excludes hclip (hb.isNumber e) hout⟩

theorem clipAxis?_narrows (hclip : clip.IsNumber) (hb : bound.Narrows bound)
    (ho : other.Narrows other) (h : clipAxis? crossing diag clip bound other = some (r, s)) :
    r.Narrows bound ∧ s.Narrows other ∧ r.Narrows clip := by
  obtain ⟨⟨bound', other'⟩, hfirst, hsecond⟩ := Option.bind_eq_some_iff.1 h
  obtain ⟨hb', ho', hlo⟩ := clipEnd?_narrows hclip hb ho hfirst
  obtain ⟨hr, hs, hhi⟩ := clipEnd?_narrows hclip hb'.self ho'.self hsecond
  -- The first side stays admitted, because the second one only narrows the bound.
  refine ⟨hr.trans hb', hs.trans ho', ?_, hr.le, hhi⟩
  exact Ordered.le_trans hlo hr.lo_le

/-- **Both axes.** -/
theorem clipBoundBy?_narrows {rule : Interpolation α} {a b : Vec2 α} {clip bound r : Rect α}
    (hclip : clip.IsNumber) (hb : bound.Narrows bound)
    (h : clipBoundBy? rule a b clip bound = some r) : r.Narrows bound ∧ r.Narrows clip := by
  obtain ⟨⟨x, y⟩, hfirst, h⟩ := Option.bind_eq_some_iff.1 h
  obtain ⟨⟨y', x'⟩, hsecond, h⟩ := Option.bind_eq_some_iff.1 h
  cases h
  obtain ⟨hx, hy, hclipx⟩ := clipAxis?_narrows (hclip .u) (hb .u) (hb .v) hfirst
  obtain ⟨hy', hx', hclipy⟩ := clipAxis?_narrows (hclip .v) hy.self hx.self hsecond
  constructor
  · intro axis
    cases axis with
    | u => exact hx'.trans hx
    | v => exact hy'.trans hy
  · intro axis
    cases axis with
    | u => exact hx'.trans hclipx
    | v => exact hclipy

/-! ## 4. Calls -/

section calls
variable {m : Type → Type} [Monad m] [LawfulMonad m] {crossingM : α → m α} {p q : α}

/-- **Where a crossing is looked for, the ends of the segment are apart.** -/
theorem clipEndM_eq (hclip : clip.IsNumber) (hb : bound.Narrows (.ofPair p q))
    (hcrossing : (p == q) = false → ∀ x, crossingM x = pure (crossing x)) :
    clipEndM crossingM e e' clip bound other =
      OptionT.mk (pure (clipEnd? crossing e e' clip bound other)) := by
  rw [clipEndM_def, clipEnd?_def]
  by_cases hout : clip.Excludes e (bound.get e)
  · rw [if_pos hout, if_pos hout]
    by_cases hall : clip.Excludes e (bound.get e.other)
    · rw [if_pos hall, if_pos hall]
      rfl
    · have hpq := Interval.beq_eq_false_of_excludes hclip hb hout hall
      rw [if_neg hall, if_neg hall, hcrossing hpq, liftM_pure, pure_bind]
  · rw [if_neg hout, if_neg hout]
    rfl

theorem clipAxisM_eq (hclip : clip.IsNumber) (hb : bound.Narrows (.ofPair p q))
    (ho : other.Narrows other)
    (hcrossing : (p == q) = false → ∀ x, crossingM x = pure (crossing x)) :
    clipAxisM crossingM diag clip bound other =
      OptionT.mk (pure (clipAxis? crossing diag clip bound other)) := by
  unfold clipAxisM clipAxis?
  rw [clipEndM_eq hclip hb hcrossing]
  cases hfirst : clipEnd? crossing .lo diag clip bound other with
  | none => exact pure_bind _ _
  | some p =>
    have hb' := (clipEnd?_narrows hclip hb.self ho hfirst).1
    refine (pure_bind (m := OptionT m) _ _).trans ?_
    exact clipEndM_eq hclip (hb'.trans hb) hcrossing

/-- **The clip asks its rule for nothing but crossings between ends that are apart.** -/
theorem clipBoundM_eq {rule : Interpolation α} {ruleM : α → α → α → α → α → m α} {a b : Vec2 α}
    {clip bound : Rect α} (hclip : clip.IsNumber) (hb : bound.Narrows (.ofPair a b))
    (hrule : ∀ x p q p' q', (p == q) = false → ruleM x p q p' q' = pure (rule x p q p' q')) :
    clipBoundM ruleM a b clip bound = OptionT.mk (pure (clipBoundBy? rule a b clip bound)) := by
  have hx : bound.x.Narrows (.ofPair a.x b.x) := hb .u
  have hy : bound.y.Narrows (.ofPair a.y b.y) := hb .v
  have hfirst : clipAxisM (fun u => ruleM u a.x b.x a.y b.y) (diagonal a b) clip.x bound.x bound.y =
      OptionT.mk (pure (clipAxis? (fun u => rule u a.x b.x a.y b.y) (diagonal a b) clip.x bound.x
        bound.y)) :=
    clipAxisM_eq (hclip .u) hx hy.self fun hpq u => hrule u _ _ _ _ hpq
  unfold clipBoundM clipBoundBy?
  dsimp only
  rw [hfirst]
  cases hcut : clipAxis? (fun u => rule u a.x b.x a.y b.y) (diagonal a b) clip.x bound.x
    bound.y with
  | none => exact pure_bind _ _
  | some p =>
    obtain ⟨x, y⟩ := p
    obtain ⟨hx', hy', -⟩ := clipAxis?_narrows (hclip .u) hx.self hy.self hcut
    have hsecond : clipAxisM (fun v => ruleM v a.y b.y a.x b.x) (diagonal a b) clip.y y x =
        OptionT.mk (pure (clipAxis? (fun v => rule v a.y b.y a.x b.x) (diagonal a b) clip.y y x)) :=
      clipAxisM_eq (hclip .v) (hy'.trans hy) hx'.self fun hpq v => hrule v _ _ _ _ hpq
    refine (pure_bind (m := OptionT m) _ _).trans ?_
    dsimp only [Option.bind_eq_bind, Option.bind_some]
    rw [hsecond]
    cases clipAxis? (fun v => rule v a.y b.y a.x b.x) (diagonal a b) clip.y y x with
    | none => exact pure_bind _ _
    | some p => exact pure_bind _ _

end calls

/-! ## 5. One clip after another -/

/-- The bound that is left of a part of AB by clips of which each starts from the bound that the one
before it left. -/
def clipAllBy? {α : Type} [Scalar α] (rule : Interpolation α) (a b : Vec2 α) (clips : List (Rect α))
    (bound : Rect α) : Option (Rect α) :=
  clips.foldlM (fun bound clip => clipBoundBy? rule a b clip bound) bound

theorem clipAllBy?_narrows {rule : Interpolation α} {a b : Vec2 α} {clips : List (Rect α)}
    {bound r : Rect α} (hclips : ∀ clip ∈ clips, clip.IsNumber) (hb : bound.Narrows bound)
    (h : clipAllBy? rule a b clips bound = some r) :
    r.Narrows bound ∧ ∀ clip ∈ clips, r.Narrows clip := by
  induction clips generalizing bound with
  | nil =>
    cases h
    exact ⟨hb, List.forall_mem_nil _⟩
  | cons clip clips ih =>
    obtain ⟨hclip, hclips⟩ := List.forall_mem_cons.1 hclips
    obtain ⟨bound', hfirst, hrest⟩ := Option.bind_eq_some_iff.1 h
    obtain ⟨hb', hclip'⟩ := clipBoundBy?_narrows hclip hb hfirst
    obtain ⟨hr, hall⟩ := ih hclips hb'.self hrest
    exact ⟨hr.trans hb', List.forall_mem_cons.2 ⟨hr.trans hclip', hall⟩⟩

/-- **Clipping is safe under rounding.**  Let the numbers be ordered, but rounded in any way, and
let the rule for crossings give any values.  A non-empty bound of a part of AB that is clipped stays
non-empty, a part of the bound before and of the rectangle; nothing is left of it if the rectangle
is empty or apart from it; and the rule is only asked about ends that are apart, since whatever else
it does for equal ends, in any monad, never shows. -/
theorem clip_safe_under_rounding (rule : Interpolation α) (a b : Vec2 α) {clip bound : Rect α}
    (hclip : clip.IsNumber) (hbound : bound.IsNumber) (hne : ¬bound.IsEmpty)
    (hpart : (Rect.ofPair a b).Includes bound) :
    (∀ r, clipBoundBy? rule a b clip bound = some r →
      ¬r.IsEmpty ∧ r.Narrows bound ∧ r.Narrows clip) ∧
    (clip.IsEmpty ∨ ¬clip.Meets bound ∨ (∀ p, clip.Contains p → ¬bound.Contains p) →
      clipBoundBy? rule a b clip bound = none) ∧
    ∀ (m : Type → Type) [Monad m] [LawfulMonad m] (ruleM : α → α → α → α → α → m α),
      (∀ x p q p' q', (p == q) = false → ruleM x p q p' q' = pure (rule x p q p' q')) →
      clipBoundM ruleM a b clip bound = OptionT.mk (pure (clipBoundBy? rule a b clip bound)) := by
  have hb : bound.Narrows (.ofPair a b) := .of_includes hbound hne hpart
  refine ⟨?_, ?_, ?_⟩
  · intro r h
    obtain ⟨hr, hr'⟩ := clipBoundBy?_narrows hclip hb.self h
    exact ⟨hr.not_isEmpty, hr, hr'⟩
  · intro hout
    -- What is left would be a part of both.
    by_contra hsome
    obtain ⟨r, h⟩ := Option.ne_none_iff_exists'.1 hsome
    obtain ⟨hr, hr'⟩ := clipBoundBy?_narrows hclip hb.self h
    rcases hout with hempty | hapart | hapart
    · exact hr'.not_isEmpty_whole hempty
    · exact hapart (hr'.meets hr)
    · exact hapart r.lo hr'.contains_lo hr.contains_lo
  · intro m _ _ ruleM hrule
    exact clipBoundM_eq hclip hb hrule

/-- The upper quarter of a diagonal in double precision, with a rule that never gives a number. -/
theorem clip_safe_without_numbers :
    ∃ r, clipBoundBy? (fun _ _ _ _ _ => 0 / 0) (⟨-0.5, -0.5⟩ : Vec2 Float) ⟨0.5, 0.5⟩
        ⟨⟨0, 1⟩, ⟨0, 1⟩⟩ (.ofPair ⟨-0.5, -0.5⟩ ⟨0.5, 0.5⟩) = some r ∧
      ¬r.IsEmpty ∧ r.Narrows (.ofPair ⟨-0.5, -0.5⟩ ⟨0.5, 0.5⟩) ∧ r.Narrows ⟨⟨0, 1⟩, ⟨0, 1⟩⟩ := by
  have hclip : Rect.IsNumber (⟨⟨0, 1⟩, ⟨0, 1⟩⟩ : Rect Float) := by
    intro axis e
    cases axis <;> cases e <;> decide +kernel
  have hbound : Rect.IsNumber (.ofPair ⟨-0.5, -0.5⟩ ⟨0.5, 0.5⟩ : Rect Float) := by
    intro axis e
    cases axis <;> cases e <;> decide +kernel
  have hsafe := clip_safe_under_rounding (fun _ _ _ _ _ => 0 / 0) ⟨-0.5, -0.5⟩ ⟨0.5, 0.5⟩ hclip
    hbound (by decide +kernel) (by decide +kernel)
  have hsome : (clipBoundBy? (fun _ _ _ _ _ => 0 / 0) (⟨-0.5, -0.5⟩ : Vec2 Float) ⟨0.5, 0.5⟩
      ⟨⟨0, 1⟩, ⟨0, 1⟩⟩ (.ofPair ⟨-0.5, -0.5⟩ ⟨0.5, 0.5⟩)).isSome := by
    decide +kernel
  obtain ⟨r, hr⟩ := Option.isSome_iff_exists.1 hsome
  exact ⟨r, hr, hsafe.1 r hr⟩

end Planar

end SphereIndex
