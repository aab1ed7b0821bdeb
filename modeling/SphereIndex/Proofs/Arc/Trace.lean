import SphereIndex.Proofs.Arc.Chord
import SphereIndex.Proofs.Face.Neighbour

/-!
# Traces of a chord

A segment runs along the chord of an arc if its ends are the projections of two points of the chord.
In a trace each segment begins where the one before ends, and every face is the last one or one
towards which the chord runs more.  All that is said of the pieces of an arc is read off a trace.
-/

namespace SphereIndex

open Planar

namespace FaceSegment

variable {s : FaceSegment ℝ} {a b x : Vec3 ℝ} {t t' k : ℝ}

/-! ## 1. One segment -/

/-- The point of the cube where the segment begins. -/
noncomputable def entry (s : FaceSegment ℝ) : Vec3 ℝ := s.face.lift s.a

/-- The point of the cube where the segment ends. -/
noncomputable def exit (s : FaceSegment ℝ) : Vec3 ℝ := s.face.lift s.b

/-- The direction meets the segment. -/
def Through (s : FaceSegment ℝ) (x : Vec3 ℝ) : Prop :=
  s.face.Cone x ∧ OnSegment s.a s.b (s.face.project x)

theorem Through.scale (h : s.Through x) (hk : 0 < k) : s.Through (x.scale k) := by
  unfold Through
  rw [Face.project_scale _ _ hk]
  exact ⟨h.1.scale hk, h.2⟩

/-- **The segment runs along the chord** from the point at `t` to the point at `t'`. -/
structure Runs (s : FaceSegment ℝ) (a b : Vec3 ℝ) (t t' : ℝ) : Prop where
  le : t ≤ t'
  coneEntry : s.face.Cone (Arc.chord a b t)
  coneExit : s.face.Cone (Arc.chord a b t')
  a_eq : s.a = s.face.project (Arc.chord a b t)
  b_eq : s.b = s.face.project (Arc.chord a b t')

namespace Runs

theorem through {u : ℝ} (h : s.Runs a b t t') (htu : t ≤ u) (hut : u ≤ t') :
    s.Through (Arc.chord a b u) := by
  have hbetween := h.coneEntry.between h.coneExit (Arc.between_chord htu hut)
  rwa [← h.a_eq, ← h.b_eq] at hbetween

theorem entry_eq (h : s.Runs a b t t') :
    s.entry = (Arc.chord a b t).scale (s.face.height (Arc.chord a b t))⁻¹ := by
  rw [entry, h.a_eq, Face.lift_project h.coneEntry.pos]

theorem exit_eq (h : s.Runs a b t t') :
    s.exit = (Arc.chord a b t').scale (s.face.height (Arc.chord a b t'))⁻¹ := by
  rw [exit, h.b_eq, Face.lift_project h.coneExit.pos]

theorem abs_le_one (h : s.Runs a b t t') (axis : Axis) :
    |s.a.along axis| ≤ 1 ∧ |s.b.along axis| ≤ 1 := by
  rw [h.a_eq, h.b_eq]
  exact ⟨h.coneEntry.project_le axis, h.coneExit.project_le axis⟩

end Runs

end FaceSegment

namespace Arc

variable {a b : Vec3 ℝ} {f g last : Face} {t : ℝ} {segments : List (FaceSegment ℝ)}

/-! ## 2. All segments -/

/-- How far the chord runs towards a face. -/
noncomputable def slope (a b : Vec3 ℝ) (f : Face) : ℝ := f.height (b - a)

/-- **The segments run along the rest of the chord**, from the point at `t` on face `f` to the end
on face `last`. -/
inductive Trace (a b : Vec3 ℝ) (last : Face) : Face → ℝ → List (FaceSegment ℝ) → Prop where
  | arrive {s : FaceSegment ℝ} {t : ℝ} (hface : s.face = last) (hs : s.Runs a b t 1) :
    Trace a b last last t [s]
  | step {s : FaceSegment ℝ} {rest : List (FaceSegment ℝ)} {f g : Face} {t t' : ℝ}
    (hface : s.face = f) (hs : s.Runs a b t t') (hne : f ≠ last)
    (hg : g = last ∨ slope a b f < slope a b g) (hrest : Trace a b last g t' rest) :
    Trace a b last f t (s :: rest)

namespace Trace

theorem le_one (h : Trace a b last f t segments) : t ≤ 1 := by
  induction h with
  | arrive _ hs => exact hs.le
  | step _ hs _ _ _ ih => exact hs.le.trans ih

theorem exists_runs (h : Trace a b last f t segments) {s : FaceSegment ℝ} (hs : s ∈ segments) :
    ∃ u v, t ≤ u ∧ v ≤ 1 ∧ s.Runs a b u v := by
  induction h with
  | arrive _ hruns =>
    rw [List.mem_singleton.1 hs]
    exact ⟨_, _, le_rfl, le_rfl, hruns⟩
  | step _ hruns _ _ hrest ih =>
    rcases List.mem_cons.1 hs with rfl | hs
    · exact ⟨_, _, le_rfl, hrest.le_one, hruns⟩
    · obtain ⟨u, v, hu, hv, hsruns⟩ := ih hs
      exact ⟨u, v, hruns.le.trans hu, hv, hsruns⟩

/-- Every point of the rest of the chord is met. -/
theorem exists_through (h : Trace a b last f t segments) {x : ℝ} (htx : t ≤ x) (hx1 : x ≤ 1) :
    ∃ s ∈ segments, s.Through (chord a b x) := by
  induction h with
  | arrive _ hs => exact ⟨_, List.mem_singleton_self _, hs.through htx hx1⟩
  | @step s rest _ _ _ t' _ hs _ _ _ ih =>
    rcases le_total x t' with hle | hge
    · exact ⟨s, List.mem_cons_self, hs.through htx hle⟩
    · obtain ⟨s, hmem, hthrough⟩ := ih hge
      exact ⟨s, List.mem_cons_of_mem _ hmem, hthrough⟩

theorem head (h : Trace a b last f t segments) :
    ∃ s v, segments.head? = some s ∧ s.face = f ∧ s.Runs a b t v := by
  cases h with
  | arrive hface hs => exact ⟨_, _, List.head?_cons, hface, hs⟩
  | step hface hs => exact ⟨_, _, List.head?_cons, hface, hs⟩

theorem getLast (h : Trace a b last f t segments) :
    ∃ s u, segments.getLast? = some s ∧ s.face = last ∧ s.Runs a b u 1 := by
  induction h with
  | arrive hface hs => exact ⟨_, _, List.getLast?_singleton, hface, hs⟩
  | step _ _ _ _ _ ih =>
    obtain ⟨s, u, hlast, hs⟩ := ih
    exact ⟨s, u, by rw [List.getLast?_cons, hlast, Option.getD_some], hs⟩

/-- A trace on the last face is one segment. -/
theorem face_eq_last (h : Trace a b last last t segments) {s : FaceSegment ℝ}
    (hs : s ∈ segments) : s.face = last := by
  cases h with
  | arrive hface =>
    rw [List.mem_singleton.1 hs]
    exact hface
  | step _ _ hne => exact absurd rfl hne

/-- The chord runs no less towards a face further on, unless it is the last one. -/
theorem slope_le (h : Trace a b last f t segments) {s : FaceSegment ℝ} (hs : s ∈ segments) :
    s.face = last ∨ slope a b f ≤ slope a b s.face := by
  induction h with
  | arrive hface =>
    rw [List.mem_singleton.1 hs]
    exact .inl hface
  | step hface _ _ hg hrest ih =>
    rcases List.mem_cons.1 hs with rfl | hs
    · exact .inr (hface ▸ le_rfl)
    · rcases hg with rfl | hlt
      · exact .inl (hrest.face_eq_last hs)
      · exact (ih hs).imp_right hlt.le.trans

/-- **No face is entered twice.** -/
theorem nodup (h : Trace a b last f t segments) : (segments.map (·.face)).Nodup := by
  induction h with
  | arrive => exact List.nodup_singleton _
  | @step s rest f g _ _ hface _ hne hg hrest ih =>
    refine List.nodup_cons.2 ⟨fun hmem => ?_, ih⟩
    obtain ⟨r, hr, hsame⟩ := List.mem_map.1 hmem
    have hsame : r.face = f := hsame.trans hface
    -- The face would be the last one, or the chord would run more towards it than it does.
    rcases hg with rfl | hlt
    · exact hne (hsame.symm.trans (hrest.face_eq_last hr))
    · rcases hrest.slope_le hr with heq | hle
      · exact hne (hsame.symm.trans heq)
      · rw [hsame] at hle
        exact absurd hlt (not_lt.2 hle)

/-- **The segments join**: each begins at the point of the cube where the one before ends. -/
theorem isChain (h : Trace a b last f t segments) :
    segments.IsChain fun s r => s.exit = r.entry := by
  induction h with
  | arrive => exact List.isChain_singleton _
  | step _ hs _ _ hrest ih =>
    obtain ⟨r, v, hhead, -, hr⟩ := hrest.head
    refine List.isChain_cons.2 ⟨fun r' hr' => ?_, ih⟩
    obtain rfl : r = r' := Option.some.inj (hhead.symm.trans hr')
    -- Over the side between two faces both are reached equally far.
    rw [hs.exit_eq, hr.entry_eq, hs.coneExit.height_eq_height hr.coneEntry]

end Trace

/-! ## 3. The order of the ends -/

/-- The points of the cube where segments begin and end, one segment after the other. -/
noncomputable def ends (segments : List (FaceSegment ℝ)) : List (Vec3 ℝ) :=
  segments.flatMap fun s => [s.entry, s.exit]

/-- The direction of the point of the chord at `t`, at any length. -/
def Above (a b : Vec3 ℝ) (t : ℝ) (p : Vec3 ℝ) : Prop := ∃ k, 0 < k ∧ p = (chord a b t).scale k

theorem Above.between {u : ℝ} {p q : Vec3 ℝ} (hp : Above a b t p) (hq : Above a b u q)
    (htu : t ≤ u) (hu1 : u ≤ 1) : Vec3.Between p b q := by
  obtain ⟨k, hk, rfl⟩ := hp
  obtain ⟨l, hl, rfl⟩ := hq
  have hbetween := between_chord (a := a) (b := b) htu hu1
  rw [chord_one] at hbetween
  exact (hbetween.scale_left hk).scale hl

theorem above_entry {s : FaceSegment ℝ} {t' : ℝ} (h : s.Runs a b t t') : Above a b t s.entry :=
  ⟨_, inv_pos.2 h.coneEntry.pos, h.entry_eq⟩

theorem above_exit {s : FaceSegment ℝ} {t' : ℝ} (h : s.Runs a b t t') : Above a b t' s.exit :=
  ⟨_, inv_pos.2 h.coneExit.pos, h.exit_eq⟩

theorem ends_cons (s : FaceSegment ℝ) (rest : List (FaceSegment ℝ)) :
    ends (s :: rest) = s.entry :: s.exit :: ends rest := rfl

namespace Trace

theorem exists_above (h : Trace a b last f t segments) {p : Vec3 ℝ} (hp : p ∈ ends segments) :
    ∃ u, t ≤ u ∧ u ≤ 1 ∧ Above a b u p := by
  obtain ⟨s, hs, hp⟩ := List.mem_flatMap.1 hp
  obtain ⟨u, v, hu, hv, hruns⟩ := h.exists_runs hs
  rcases List.mem_cons.1 hp with rfl | hp
  · exact ⟨u, hu, hruns.le.trans hv, above_entry hruns⟩
  · rw [List.mem_singleton.1 hp]
    exact ⟨v, hu.trans hruns.le, hv, above_exit hruns⟩

/-- **The ends come in the order of the arc.** -/
theorem pairwise_ends (h : Trace a b last f t segments) :
    (ends segments).Pairwise fun p q => Vec3.Between p b q := by
  induction h with
  | arrive _ hs =>
    have hexit := (above_entry hs).between (above_exit hs) hs.le le_rfl
    exact List.pairwise_pair.2 hexit
  | @step s rest _ _ _ t' _ hs _ _ hrest ih =>
    rw [ends_cons]
    refine List.pairwise_cons.2 ⟨fun q hq => ?_, List.pairwise_cons.2 ⟨fun q hq => ?_, ih⟩⟩
    · rcases List.mem_cons.1 hq with rfl | hq
      · exact (above_entry hs).between (above_exit hs) hs.le hrest.le_one
      · obtain ⟨u, hu, hu1, habove⟩ := hrest.exists_above hq
        exact (above_entry hs).between habove (hs.le.trans hu) hu1
    · obtain ⟨u, hu, hu1, habove⟩ := hrest.exists_above hq
      exact (above_exit hs).between habove hu hu1

end Trace

end Arc

end SphereIndex
