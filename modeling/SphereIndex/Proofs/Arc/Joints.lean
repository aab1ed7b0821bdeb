import SphereIndex.Proofs.Arc.Rounds
import SphereIndex.Proofs.Arc.Step
import SphereIndex.Proofs.DoubleSign

/-!
# Where pieces join

A line leaves a face at a coordinate that is 1 or -1 by construction, and only the other coordinate is
computed.  Whatever comes out of that quotient is carried over to the next face with its sign turned at
most.  So consecutive pieces join at the same point of the cube to the last bit, in any arithmetic with
exact signs.
-/

namespace SphereIndex

open Scalar (ExactSigns)

variable {α : Type} [Scalar α]

/-- **The segment `t` goes on where `s` ends.** -/
structure FaceSegment.Joins (s t : FaceSegment α) : Prop where
  same_point : s.face.lift s.b = t.face.lift t.a
  /-- The end is on the side to the next face. -/
  leaves : ∃ axis, Face.IsSide (s.b.along axis) ∧ s.face.across axis (s.b.along axis) = t.face
  enters : ∃ axis, Face.IsSide (t.a.along axis) ∧ t.face.across axis (t.a.along axis) = s.face
  face_ne : t.face ≠ s.face
  face_ne_opposite : t.face ≠ s.face.opposite

namespace Arc

variable {f g last : Face} {n : Vec3 α} {p q : Vec2 α} {axis : Axis} {s t : FaceSegment α}

/-! ## 1. One step -/

section signs
variable [ExactSigns α]

theorem joins_of_across (hside : Face.IsSide (s.b.along axis))
    (hface : t.face = s.face.across axis (s.b.along axis))
    (hentry : t.a = t.face.place (s.face.lift s.b)) : s.Joins t := by
  have hne := s.face.across_ne axis (s.b.along axis)
  have hheight := s.face.height_across hside
  rw [← hface] at hne hheight
  refine ⟨?_, ⟨axis, hside, hface.symm⟩, ?_, hne.1, hne.2⟩
  · rw [hentry, Face.lift_place hheight]
  · rw [hentry]
    exact Face.exists_side_back (s.face.height_lift_eq_one s.b) hne

/-- **What a step emits is joined by what begins where the step leads.** -/
theorem joins_of_step (h : step n last f p = (s, g, q)) (hface : t.face = g) (hentry : t.a = q) :
    s.Joins t := by
  obtain ⟨rfl, rfl, rfl⟩ : _ ∧ _ ∧ _ := by simpa only [step, Prod.mk.injEq] using h
  obtain ⟨side, hside, hnext, -⟩ := exists_nextFace
    (isSide_exitPoint (f.toFrame n) (Line.exitAxis (f.toFrame n))) f last (f.toFrame n)
  refine joins_of_across hside (hface.trans hnext) (hentry.trans ?_)
  rw [hface]
  rfl

/-! ## 2. The walk -/

/-- **All that a walk emits joins**, one after the other. -/
theorem isChain_emitted (n : Vec3 α) (last : Face) (q : Vec2 α) (rounds : Nat) (f : Face)
    (p : Vec2 α) : (emitted n last q rounds f p).IsChain FaceSegment.Joins := by
  induction rounds generalizing f p with
  | zero => exact List.isChain_nil
  | succ rounds ih =>
    by_cases hlast : f = last
    · rw [hlast, emitted_arrived]
      exact List.isChain_singleton _
    · rw [emitted_succ hlast]
      -- What comes next begins with the entry that the step hands on, whether it is the last or not.
      refine List.isChain_cons.2 ⟨fun t ht => ?_, ih _ _⟩
      obtain ⟨hface, hentry⟩ := head?_emitted ht
      exact joins_of_step rfl hface hentry

theorem isChain_emittedSegments (rounds : Nat) (a b : Vec3 α) :
    (emittedSegments rounds a b).IsChain FaceSegment.Joins := by
  unfold emittedSegments
  dsimp only
  split
  · exact List.isChain_singleton _
  · exact isChain_emitted _ _ _ _ _ _

/-- **The pieces of an edge join exactly.**  Whatever values sums, products, quotients and roots are
rounded to, each piece begins at the very point of the cube where the one before ends, on the side that
the two faces share.  This is so as long as the walk goes on, also if it never arrives. -/
theorem segments_join_exactly (a b : Vec3 α) :
    (∀ segments, faceSegments? a b = some segments → segments.IsChain FaceSegment.Joins) ∧
      ∀ rounds, (emittedSegments rounds a b).IsChain FaceSegment.Joins := by
  refine ⟨fun segments h => ?_, fun rounds => isChain_emittedSegments rounds a b⟩
  have hemitted := emittedSegments_of_faceSegments? h (Nat.lt_succ_self 5)
  exact hemitted ▸ isChain_emittedSegments 6 a b

end signs

/-- An edge over three faces, in doubles: its pieces end at rounded points. -/
theorem segments_join_over_three_faces :
    ∃ s t r : FaceSegment Float, faceSegments? ⟨1, 0.3, 0.2⟩ ⟨-1, 0.1, 0.3⟩ = some [s, t, r] ∧
      s.face = .xPos ∧ t.face = .zPos ∧ r.face = .xNeg ∧ s.Joins t ∧ t.Joins r := by
  have hfaces : (faceSegments? (⟨1, 0.3, 0.2⟩ : Vec3 Float) ⟨-1, 0.1, 0.3⟩).map (·.map (·.face)) =
      some [.xPos, .zPos, .xNeg] := by decide +kernel
  obtain ⟨segments, hsegments, hfaces⟩ := Option.map_eq_some_iff.1 hfaces
  obtain ⟨s, rest, rfl, hs, hrest⟩ := List.map_eq_cons_iff.1 hfaces
  obtain ⟨t, rest, rfl, ht, hrest⟩ := List.map_eq_cons_iff.1 hrest
  obtain ⟨r, rest, rfl, hr, hrest⟩ := List.map_eq_cons_iff.1 hrest
  obtain rfl := List.map_eq_nil_iff.1 hrest
  have hchain := (segments_join_exactly _ _).1 _ hsegments
  obtain ⟨hst, hchain⟩ := List.isChain_cons_cons.1 hchain
  exact ⟨s, t, r, hsegments, hs, ht, hr, hst, (List.isChain_cons_cons.1 hchain).1⟩

end Arc

end SphereIndex
