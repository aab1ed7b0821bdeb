import SphereIndex.Arc.FaceSegments
import SphereIndex.Proofs.Face.Frame

/-!
# Walks that go on for ever

The face that follows depends only on the face that is left, so that a walk which comes to a face again
goes round from then on.  There are six faces: a walk that has not arrived after five steps never does.
To tell what it emits on the way, it is cut off after any number of rounds.
-/

namespace SphereIndex.Arc

variable {α : Type} [Scalar α] {f last : Face} {a b : Vec3 α} {n : Vec3 α} {p q : Vec2 α}
  {t : FaceSegment α} {segments : List (FaceSegment α)} {fuel rounds : Nat}

/-! ## 1. Rounds -/

/-- **The segments that the first rounds of a walk emit**, whether or not it has arrived by then. -/
def emitted (n : Vec3 α) (last : Face) (q : Vec2 α) : Nat → Face → Vec2 α → List (FaceSegment α)
  | 0, _, _ => []
  | rounds + 1, f, p =>
    if f = last then [⟨f, p, q⟩]
    else
      let (segment, g, p) := step n last f p
      segment :: emitted n last q rounds g p

/-- The segments of the edge AB that are emitted in the first rounds. -/
def emittedSegments (rounds : Nat) (a b : Vec3 α) : List (FaceSegment α) :=
  let f := Face.ofPoint a
  let g := Face.ofPoint b
  let p := f.project a
  let q := g.project b
  if f = g then [⟨f, p, q⟩]
  else
    let n := a.lineNormal b
    let (f, p) := startFace f a n p
    let (g, q) := startFace g b (-n) q
    emitted n g q rounds f p

/-! A walk on its last face takes no step, and on any other face it takes one if it may. -/

theorem follow?_arrived (n : Vec3 α) (last : Face) (q : Vec2 α) (fuel : Nat) (p : Vec2 α) :
    follow? n last q fuel last p = some [⟨last, p, q⟩] := by
  unfold follow?
  exact if_pos rfl

theorem follow?_zero (h : f ≠ last) : follow? n last q 0 f p = none := by
  unfold follow?
  exact if_neg h

theorem follow?_succ (h : f ≠ last) : follow? n last q (fuel + 1) f p =
    (follow? n last q fuel (step n last f p).2.1 (step n last f p).2.2).map
      ((step n last f p).1 :: ·) := by
  rw [follow?, if_neg h]

theorem emitted_arrived (n : Vec3 α) (last : Face) (q : Vec2 α) (rounds : Nat) (p : Vec2 α) :
    emitted n last q (rounds + 1) last p = [⟨last, p, q⟩] := by
  rw [emitted, if_pos rfl]

theorem emitted_succ (h : f ≠ last) : emitted n last q (rounds + 1) f p =
    (step n last f p).1 ::
      emitted n last q rounds (step n last f p).2.1 (step n last f p).2.2 := by
  rw [emitted, if_neg h]

/-- **Once a walk has arrived** further rounds add nothing. -/
theorem emitted_of_follow? (h : follow? n last q fuel f p = some segments) (hr : fuel < rounds) :
    emitted n last q rounds f p = segments := by
  induction rounds generalizing fuel f p segments with
  | zero => exact absurd hr (Nat.not_lt_zero fuel)
  | succ rounds ih =>
    by_cases hlast : f = last
    · subst hlast
      rw [follow?_arrived] at h
      rw [emitted_arrived]
      exact Option.some.inj h
    · cases fuel with
      | zero =>
        rw [follow?_zero hlast] at h
        cases h
      | succ fuel =>
        rw [follow?_succ hlast] at h
        obtain ⟨rest, hrest, rfl⟩ := Option.map_eq_some_iff.1 h
        rw [emitted_succ hlast, ih hrest (Nat.lt_of_succ_lt_succ hr)]

theorem head?_emitted (h : t ∈ (emitted n last q rounds f p).head?) : t.face = f ∧ t.a = p := by
  cases rounds with
  | zero => cases h
  | succ rounds =>
    by_cases hlast : f = last
    · subst hlast
      rw [emitted_arrived] at h
      obtain rfl := Option.some.inj h
      exact ⟨rfl, rfl⟩
    · rw [emitted_succ hlast] at h
      obtain rfl := Option.some.inj h
      exact ⟨rfl, rfl⟩

theorem emittedSegments_of_faceSegments? (h : faceSegments? a b = some segments) (hr : 5 < rounds) :
    emittedSegments rounds a b = segments := by
  unfold faceSegments? at h
  unfold emittedSegments
  dsimp only at h ⊢
  split at h
  · rename_i hsame
    rw [if_pos hsame]
    exact Option.some.inj h
  · rename_i hne
    rw [if_neg hne]
    exact emitted_of_follow? h hr

/-! ## 2. Going round -/

/-- **The face after a face** on a walk, wherever the walk has entered it. -/
def faceAfter (n : Vec3 α) (last f : Face) : Face :=
  let m := f.toFrame n
  let axis := Line.exitAxis m
  nextFace f (Line.exitPoint m axis) axis m last

theorem follow?_eq_none_iff : follow? n last q fuel f p = none ↔
    ∀ k < fuel + 1, (faceAfter n last)^[k] f ≠ last := by
  induction fuel generalizing f p with
  | zero =>
    rw [Nat.forall_lt_succ_left]
    by_cases hlast : f = last
    · subst hlast
      rw [follow?_arrived]
      exact ⟨fun h => absurd h (Option.some_ne_none _), fun h => absurd rfl h.1⟩
    · rw [follow?_zero hlast]
      exact ⟨fun _ => ⟨hlast, fun k hk => absurd hk (Nat.not_lt_zero k)⟩, fun _ => rfl⟩
  | succ fuel ih =>
    rw [Nat.forall_lt_succ_left]
    by_cases hlast : f = last
    · subst hlast
      rw [follow?_arrived]
      exact ⟨fun h => absurd h (Option.some_ne_none _), fun h => absurd rfl h.1⟩
    · rw [follow?_succ hlast, Option.map_eq_none_iff, ih]
      exact ⟨fun h => ⟨hlast, h⟩, fun h => h.2⟩

theorem length_emitted_iff : (emitted n last q (rounds + 1) f p).length = rounds + 1 ↔
    ∀ k < rounds, (faceAfter n last)^[k] f ≠ last := by
  induction rounds generalizing f p with
  | zero =>
    refine ⟨fun _ k hk => absurd hk (Nat.not_lt_zero k), fun _ => ?_⟩
    by_cases hlast : f = last
    · subst hlast
      rw [emitted_arrived]
      rfl
    · rw [emitted_succ hlast]
      rfl
  | succ rounds ih =>
    rw [Nat.forall_lt_succ_left]
    by_cases hlast : f = last
    · subst hlast
      rw [emitted_arrived, List.length_singleton]
      exact ⟨fun h => absurd h (by omega), fun h => absurd rfl h.1⟩
    · rw [emitted_succ hlast, List.length_cons, Nat.add_right_cancel_iff, ih]
      exact ⟨fun h => ⟨hlast, h⟩, fun h => h.2⟩

/-- **What is reached at all is reached in five steps**: on the way no face occurs twice. -/
theorem exists_iterate_le_five {g : Face → Face} {f f' : Face} (h : ∃ k, g^[k] f = f') :
    ∃ k ≤ 5, g^[k] f = f' := by
  let k := Nat.find h
  have hk : g^[k] f = f' := Nat.find_spec h
  refine ⟨k, ?_, hk⟩
  -- A face that occurs twice could be reached with fewer steps in between.
  have hapart {i j : Nat} (hij : i < j) (hj : j ≤ k) : g^[i] f ≠ g^[j] f := by
    intro heq
    have hshort : g^[k - j + i] f = f' := by
      rw [Function.iterate_add_apply, heq, ← Function.iterate_add_apply, Nat.sub_add_cancel hj, hk]
    exact Nat.find_min h (show k - j + i < k by omega) hshort
  have hnodup : ((List.range (k + 1)).map fun i => g^[i] f).Nodup := by
    refine List.nodup_range.map_on fun i hi j hj heq => ?_
    rw [List.mem_range, Nat.lt_succ_iff] at hi hj
    rcases Nat.lt_trichotomy i j with hij | rfl | hji
    · exact absurd heq (hapart hij hj)
    · rfl
    · exact absurd heq.symm (hapart hji hi)
  have hlength := (hnodup.subperm fun f _ => Face.mem_all f).length_le
  rw [List.length_map, List.length_range] at hlength
  exact Nat.le_of_succ_le_succ hlength

/-- **The walk along the edge AB never arrives**: every round emits one more segment. -/
def Endless (a b : Vec3 α) : Prop := ∀ rounds, (emittedSegments rounds a b).length = rounds

/-- **There are no segments if and only if the walk goes on for ever.** -/
theorem faceSegments?_eq_none_iff (a b : Vec3 α) : faceSegments? a b = none ↔ Endless a b := by
  unfold faceSegments? Endless emittedSegments
  dsimp only
  split
  · exact ⟨fun h => absurd h (Option.some_ne_none _), fun h => absurd (h 0) (Nat.succ_ne_zero 0)⟩
  · rw [follow?_eq_none_iff]
    constructor
    · intro hnever rounds
      cases rounds with
      | zero => rfl
      | succ rounds =>
        refine length_emitted_iff.2 fun k _ heq => ?_
        obtain ⟨k, hk, heq⟩ := exists_iterate_le_five ⟨k, heq⟩
        exact hnever k (Nat.lt_succ_of_le hk) heq
    · intro hall k _
      exact length_emitted_iff.1 (hall (k + 2)) k (Nat.lt_succ_self k)

/-- In doubles there are such walks, here between points that are almost opposite: a coordinate of the
far end is lost in the products, and the line goes round over four faces past the last one. -/
theorem endless_of_lost_coordinate :
    Endless (⟨0, 0.7071067811865476, 0.7071067811865475⟩ : Vec3 Float)
      ⟨1e-250, -0.7071067811865476, -0.7071067811865475⟩ := by
  have h : (faceSegments? (⟨0, 0.7071067811865476, 0.7071067811865475⟩ : Vec3 Float)
      ⟨1e-250, -0.7071067811865476, -0.7071067811865475⟩).isNone = true := by decide +kernel
  exact (faceSegments?_eq_none_iff _ _).1 (Option.isNone_iff_eq_none.1 h)

end SphereIndex.Arc
