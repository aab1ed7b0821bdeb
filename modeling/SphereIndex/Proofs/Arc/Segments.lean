import SphereIndex.Proofs.Arc.Rounds
import SphereIndex.Proofs.Arc.Step
import SphereIndex.Proofs.Arc.Trace
import SphereIndex.Proofs.Planar.Bounds

/-!
# The pieces of an edge

The face entered next is steeper: the chord runs more towards it than towards the face that is left.
With six faces the walk therefore arrives within five steps.  The pieces it makes are a trace of the
whole chord: they join, they follow the arc in order, and every point of the arc lies on one of them.
-/

namespace SphereIndex

namespace Arc

variable {a b n p : Vec3 ℝ} {f g last : Face}

/-! ## 1. The next face -/

section next
variable {m : Vec3 ℝ} {e : Vec2 ℝ} {axis : Axis}

theorem nextFace_def (f : Face) (e : Vec2 ℝ) (axis : Axis) (m : Vec3 ℝ) (last : Face) :
    nextFace f e axis m last =
      if |e.along axis.other| = 1 ∧ f.neighbour axis.other (decide (0 < e.along axis.other)) = last ∧
        Line.SumEquals (e.x * m.x) (e.y * m.y) (-m.z) then last
      else f.neighbour axis (decide (0 < e.along axis)) := by
  rw [← if_congr (and_congr_left' (Scalar.eq_real _ _)) rfl rfl]
  rfl

variable (h : Line.IsExit m axis e)
include h

/-- **A walk does not pass the last face.**  In exact arithmetic the test for a corner finds every
corner. -/
theorem nextFace_eq_last (hne : last ≠ f) (hf : f.Cone (f.lift e)) (hlast : last.Cone (f.lift e)) :
    nextFace f e axis m last = last := by
  have hheight : last.height (f.lift e) = 1 := by
    rw [← hf.height_eq_height hlast, Face.height_lift]
  obtain ⟨side, hone, hside⟩ := Face.exists_side hheight hne
  rw [nextFace_def]
  split
  · rfl
  · rename_i hcorner
    rcases side.eq_or_eq_other axis with rfl | rfl
    · exact hside.symm
    · -- The exit is a corner, and the three equations of the test are that of the line.
      have hline := h.onLine
      refine absurd ⟨hone, hside.symm, ?_, ?_, ?_⟩ hcorner
      · refine (Scalar.eq_real _ _).2 ?_
        change e.x * m.x + e.y * m.y = -m.z
        linarith
      · refine (Scalar.eq_real _ _).2 ?_
        change e.x * m.x = -m.z - e.y * m.y
        linarith
      · refine (Scalar.eq_real _ _).2 ?_
        change e.y * m.y = -m.z - e.x * m.x
        linarith

end next

theorem cone_of_height_eq_one {e : Vec2 ℝ} (hf : f.Cone (f.lift e)) (hg : g.height (f.lift e) = 1) :
    g.Cone (f.lift e) := by
  rw [Face.cone_iff, hg, ← f.height_lift e]
  exact Face.cone_iff.1 hf

theorem cross_chord (a b : Vec3 ℝ) (t : ℝ) : (chord a b t).cross (b - a) = a.cross b := by
  ext <;> simp only [chord, Vec3.cross_x, Vec3.cross_y, Vec3.cross_z, Vec3.add_x, Vec3.add_y,
    Vec3.add_z, Vec3.sub_x, Vec3.sub_y, Vec3.sub_z, Vec3.scale_x, Vec3.scale_y, Vec3.scale_z] <;> ring

/-- **The chord runs more towards the next face** than towards the one it leaves. -/
theorem slope_lt {e : Vec2 ℝ} {axis : Axis} {t k : ℝ} (hn : Vec3.IsNormal n a b)
    (hpos : 0 < Vec3.turn n a b) (h : Line.IsExit (f.toFrame n) axis e) (hk : 0 < k)
    (he : f.lift e = (chord a b t).scale k) :
    slope a b f < slope a b (f.neighbour axis (decide (0 < e.along axis))) := by
  have hlen := Vec3.lengthSquared_pos (f.toFrame_ne_zero hn.ne_zero)
  have hdotE : (f.toFrame n).dot (f.toFrame (f.lift e)) = 0 := by
    rw [f.dot_toFrame, he, Vec3.dot_scale_right, dot_chord hn, zero_mul]
  have hdotD : (f.toFrame n).dot (f.toFrame (b - a)) = 0 := by
    have hl := hn.left
    have hr := hn.right
    rw [Vec3.dot_eq] at hl hr
    rw [f.dot_toFrame, Vec3.dot_eq, Vec3.sub_x, Vec3.sub_y, Vec3.sub_z]
    linear_combination hr - hl
  have hcross := Vec3.cross_scale hdotE hdotD
  -- At the exit the chord still turns forward.
  have hturn : 0 < Vec3.turn (f.toFrame n) (f.toFrame (f.lift e)) (f.toFrame (b - a)) := by
    have heq : Vec3.turn n ((chord a b t).scale k) (b - a) = Vec3.turn n a b * k := by
      rw [Vec3.turn, Vec3.turn, ← cross_chord a b t, Vec3.dot_eq, Vec3.dot_eq]
      simp only [Vec3.cross_x, Vec3.cross_y, Vec3.cross_z, Vec3.scale_x, Vec3.scale_y, Vec3.scale_z]
      ring
    rw [f.turn_toFrame, he, heq]
    exact mul_pos hpos hk
  have hforward := mul_pos h.forward hturn
  have hone := h.along_mul_self
  rw [slope, slope, Face.height_neighbour f _ h.abs_along]
  rw [Face.toFrame_lift] at hcross hforward
  generalize Vec3.turn (f.toFrame n) ⟨e.x, e.y, 1⟩ (f.toFrame (b - a)) = l at hcross hforward
  -- One component of the cross product says how much more the chord runs across the side.
  refine sub_pos.1 ((mul_pos_iff_of_pos_right hlen).1 ?_)
  cases axis with
  | u =>
    have hcomp : (1 * (f.toward .u).height (b - a) - f.height (b - a) * e.x) *
      (f.toFrame n).lengthSquared = (f.toFrame n).y * l := congrArg Vec3.y hcross
    have hone : e.x * e.x = 1 := hone
    have hforward : 0 < e.x * (f.toFrame n).y * l := hforward
    change 0 < (e.x * (f.toward .u).height (b - a) - f.height (b - a)) * _
    linear_combination hforward - e.x * hcomp -
      f.height (b - a) * (f.toFrame n).lengthSquared * hone
  | v =>
    have hcomp : (e.y * f.height (b - a) - (f.toward .v).height (b - a) * 1) *
      (f.toFrame n).lengthSquared = (f.toFrame n).x * l := congrArg Vec3.x hcross
    have hone : e.y * e.y = 1 := hone
    have hforward : 0 < e.y * -(f.toFrame n).x * l := hforward
    change 0 < (e.y * (f.toward .v).height (b - a) - f.height (b - a)) * _
    linear_combination hforward + e.y * hcomp -
      f.height (b - a) * (f.toFrame n).lengthSquared * hone

/-! ## 2. The walk -/

/-- The faces towards which the chord runs more than towards `f`. -/
noncomputable def steeper (a b : Vec3 ℝ) (f : Face) : List Face :=
  Face.all.filter fun g => slope a b f < slope a b g

theorem length_steeper_lt (h : slope a b f < slope a b g) :
    (steeper a b g).length < (steeper a b f).length := by
  have hsub : steeper a b g = (steeper a b f).filter fun r => slope a b g < slope a b r := by
    unfold steeper
    rw [List.filter_filter]
    refine List.filter_congr fun r _ => ?_
    rw [eq_comm, Bool.and_eq_left_iff_imp, decide_eq_true_iff, decide_eq_true_iff]
    exact h.trans
  rw [hsub, List.length_filter_lt_length_iff_exists]
  refine ⟨g, List.mem_filter.2 ⟨Face.mem_all g, decide_eq_true h⟩, ?_⟩
  rw [decide_eq_true_iff]
  exact lt_irrefl _

theorem length_steeper_le (a b : Vec3 ℝ) (f : Face) : (steeper a b f).length ≤ 5 := by
  refine Nat.le_of_lt_succ (List.length_filter_lt_length_iff_exists.2 ⟨f, Face.mem_all f, ?_⟩)
  rw [decide_eq_true_iff]
  exact lt_irrefl _

/-- **The walk has come to a point of the chord**, on a face over which the point lies.  Unless that
is the last face, it is not the one that leads through the last face to the end. -/
structure Reached (a b : Vec3 ℝ) (last f : Face) (p : Vec2 ℝ) (t : ℝ) : Prop where
  le_one : t ≤ 1
  cone : f.Cone (chord a b t)
  entry : p = f.project (chord a b t)
  before : f ≠ last → last.Cone (chord a b t) → ¬f.Cone b

variable {q : Vec2 ℝ} {t : ℝ}

/-- **One step**: the segment runs along the chord up to the exit, and the next face is the last or a
steeper one. -/
theorem Reached.step (h : Reached a b last f q t) (hn : Vec3.IsNormal n a b)
    (hpos : 0 < Vec3.turn n a b) (hb : last.Cone b) (hne : f ≠ last) :
    ∃ segment g r t', step n last f q = (segment, g, r) ∧ Reached a b last g r t' ∧
      (segment.face = f ∧ segment.Runs a b t t') ∧ 1 ≤ (steeper a b f).length ∧
      (g = last ∨ slope a b f < slope a b g) := by
  obtain ⟨t', k, htt', ht', hk, he⟩ := exists_chord_exitOf hn hpos hb h.le_one h.cone (h.before hne)
  have hdot := dot_chord hn t
  have hexit := isExit_of_cone hn.ne_zero hdot h.cone
  have hcone := cone_exitOf hn.ne_zero hdot h.cone
  have hslope := slope_lt hn hpos hexit hk he
  unfold exitOf at he hcone
  generalize hdef : Line.exit (f.toFrame n) = e at hexit he hcone hslope
  obtain ⟨side, hone, hside, hlast⟩ :=
    exists_nextFace (Face.isSide_real.2 hexit.abs_along) f last (f.toFrame n)
  generalize hg : nextFace f e (Line.exitAxis (f.toFrame n)) (f.toFrame n) last = g at hside hlast
  have hheight : g.height (f.lift e) = 1 := by
    rw [hside]
    exact f.height_across hone
  have hgcone := cone_of_height_eq_one hcone hheight
  -- The exit and the point of the chord are the same direction.
  have hchord (r : Face) (hr : r.Cone (f.lift e)) : r.Cone (chord a b t') := by
    have hcone := hr.scale (inv_pos.2 hk)
    rwa [he, Vec3.scale_inv hk.ne'] at hcone
  have hproject (r : Face) : r.project (f.lift e) = r.project (chord a b t') := by
    rw [he, r.project_scale _ hk]
  refine ⟨⟨f, q, e⟩, g, ⟨(g.toFrame (f.lift e)).x, (g.toFrame (f.lift e)).y⟩, t', ?_, ?_,
    ⟨rfl, ?_⟩, ?_, ?_⟩
  · rw [← hg, ← hdef]
    rfl
  · refine ⟨ht', hchord g hgcone, ?_, fun hgl hl => ?_⟩
    · rw [← hproject, Face.project_eq, Vec3.shadow, show (g.toFrame (f.lift e)).z = 1 from hheight,
        div_one, div_one]
    · -- If the point lay over the last face, the walk would have turned there.
      refine absurd ?_ hgl
      have hlcone : last.Cone (f.lift e) := by
        rw [he]
        exact hl.scale hk
      rw [← hg]
      exact nextFace_eq_last hexit hne.symm hcone hlcone
  · refine ⟨htt', h.cone, hchord f hcone, h.entry, ?_⟩
    rw [← hproject, Face.project_lift]
  · have hlt := length_steeper_lt hslope
    omega
  · rcases hlast with rfl | hlast
    · rw [hside]
      exact .inr hslope
    · exact .inl hlast

/-- **The whole walk** arrives, and its segments run along the rest of the chord. -/
theorem Reached.follow (hn : Vec3.IsNormal n a b) (hpos : 0 < Vec3.turn n a b) (hb : last.Cone b)
    {fuel : ℕ} (h : Reached a b last f q t) (hfuel : f = last ∨ (steeper a b f).length ≤ fuel) :
    ∃ segments, follow? n last (last.project b) fuel f q = some segments ∧
      Trace a b last f t segments := by
  -- On the last face one more segment runs to the end, whatever the fuel.
  have hlast {fuel : ℕ} {q : Vec2 ℝ} {t : ℝ} (h : Reached a b last last q t) :
      ∃ segments, follow? n last (last.project b) fuel last q = some segments ∧
        Trace a b last last t segments := by
    refine ⟨[⟨last, q, last.project b⟩], follow?_arrived .., .arrive rfl
      ⟨h.le_one, h.cone, ?_, h.entry, ?_⟩⟩
    · rw [chord_one]
      exact hb
    · rw [chord_one]
  -- The fuel is at least the number of steeper faces, which each step lowers.
  induction fuel generalizing f q t with
  | zero =>
    by_cases hne : f = last
    · rw [hne] at h ⊢
      exact hlast h
    · obtain ⟨_, _, _, _, -, -, -, hsteep, -⟩ := h.step hn hpos hb hne
      have := hfuel.resolve_left hne
      omega
  | succ fuel ih =>
    by_cases hne : f = last
    · rw [hne] at h ⊢
      exact hlast h
    · obtain ⟨segment, g, r, t', hstep, hreached, ⟨hface, hruns⟩, -, hnext⟩ := h.step hn hpos hb hne
      have hfuel := hfuel.resolve_left hne
      have hless : g = last ∨ (steeper a b g).length ≤ fuel :=
        hnext.imp_right fun hslope => by
          have := length_steeper_lt hslope
          omega
      obtain ⟨segments, hfollow, htrace⟩ := ih hreached hless
      refine ⟨segment :: segments, ?_, .step hface hruns hne hnext htrace⟩
      rw [follow?_succ hne, hstep, hfollow]
      rfl

/-! ## 3. The pieces of an arc -/

/-- **The pieces of an arc are a trace of its chord.** -/
theorem exists_trace (h : Vec3.IsArc a b) : ∃ segments, faceSegments? a b = some segments ∧
    Trace a b (Face.ofPoint b) (Face.ofPoint a) 0 segments := by
  have ha := Face.cone_ofPoint h.left
  have hb := Face.cone_ofPoint h.right
  unfold faceSegments?
  by_cases hsame : Face.ofPoint a = Face.ofPoint b
  · refine ⟨_, if_pos hsame, ?_⟩
    rw [← hsame] at hb ⊢
    refine .arrive rfl ⟨zero_le_one, ?_, ?_, ?_, ?_⟩
    · rwa [chord_zero]
    · rwa [chord_one]
    · rw [chord_zero]
    · rw [chord_one]
  · have hn := h.isNormal
    -- Ends in the same direction would lie on the same face.
    have hpos : 0 < Vec3.turn (a.lineNormal b) a b := by
      refine lt_of_le_of_ne hn.turn_nonneg fun hzero => hsame ?_
      obtain ⟨k, hk, rfl⟩ := hn.parallel hzero.symm
      refine Face.ofPoint_eq_ofPoint ?_ (ha.scale hk)
      have hcone := hb.scale (inv_pos.2 hk)
      rwa [Vec3.scale_inv hk.ne'] at hcone
    have hreached :
        Reached a b (Face.ofPoint b) (Face.ofPoint a) ((Face.ofPoint a).project a) 0 := by
      refine ⟨zero_le_one, ?_, ?_, ?_⟩
      · rwa [chord_zero]
      · rw [chord_zero]
      · rw [chord_zero]
        exact fun hne hlast hfirst => hne (Face.ofPoint_eq_ofPoint hlast hfirst)
    obtain ⟨segments, hfollow, htrace⟩ :=
      hreached.follow hn hpos hb (.inr (length_steeper_le _ _ _))
    refine ⟨segments, ?_, htrace⟩
    rw [if_neg hsame]
    dsimp only
    rw [startFace_eq hn.ne_zero hn.left ha, startFace_eq hn.reverse.ne_zero hn.reverse.left hb]
    exact hfollow

/-- **The pieces of an arc cover it.** -/
theorem Trace.covers {segments : List (FaceSegment ℝ)} {x : Vec3 ℝ}
    (h : Trace a b last f 0 segments) (hx : Vec3.Between a b x) : ∃ s ∈ segments, s.Through x := by
  obtain ⟨t, k, h0, h1, hk, rfl⟩ := exists_chord_of_between hx
  obtain ⟨s, hs, hthrough⟩ := h.exists_through h0 h1
  exact ⟨s, hs, hthrough.scale hk⟩

/-- **What it means that segments follow the arc from `a` to `b`.** -/
structure FollowArc (a b : Vec3 ℝ) (segments : List (FaceSegment ℝ)) : Prop where
  length_le : segments.length ≤ 6
  /-- No face is entered twice. -/
  nodup : (segments.map (·.face)).Nodup
  inSquare : ∀ s ∈ segments, ∀ axis, |s.a.along axis| ≤ 1 ∧ |s.b.along axis| ≤ 1
  /-- Every plane of the two ends is a plane of all ends of segments. -/
  onPlane : ∀ n : Vec3 ℝ, n.dot a = 0 → n.dot b = 0 → ∀ p ∈ ends segments, n.dot p = 0
  first : ∃ s, segments.head? = some s ∧ s.face = Face.ofPoint a ∧ s.a = s.face.project a
  last : ∃ s, segments.getLast? = some s ∧ s.face = Face.ofPoint b ∧ s.b = s.face.project b
  onArc : ∀ p ∈ ends segments, Vec3.Between a b p
  /-- Each end of a segment lies between any earlier one and the end of the arc. -/
  inOrder : (ends segments).Pairwise fun p q => Vec3.Between p b q
  joined : segments.IsChain fun s r => s.exit = r.entry
  covers : ∀ x, Vec3.Between a b x → ∃ s ∈ segments, s.Through x

theorem Trace.followArc {segments : List (FaceSegment ℝ)}
    (h : Trace a b (Face.ofPoint b) (Face.ofPoint a) 0 segments) : FollowArc a b segments := by
  have honArc (p : Vec3 ℝ) (hp : p ∈ ends segments) : Vec3.Between a b p := by
    obtain ⟨u, h0, h1, hu⟩ := h.exists_above hp
    have ha : Above a b 0 a := ⟨1, one_pos, by rw [chord_zero]; ext <;> simp⟩
    exact ha.between hu h0 h1
  refine ⟨?_, h.nodup, ?_, ?_, ?_, ?_, honArc, h.pairwise_ends, h.isChain, fun x => h.covers⟩
  · -- There are no more than six faces.
    have hsub := h.nodup.subperm fun f _ => Face.mem_all f
    exact (List.length_map (·.face)).symm.trans_le hsub.length_le
  · intro s hs axis
    obtain ⟨u, v, -, -, hruns⟩ := h.exists_runs hs
    exact hruns.abs_le_one axis
  · intro n ha hb p hp
    obtain ⟨s, t, -, -, -, rfl⟩ := honArc p hp
    rw [Vec3.dot_combine, ha, hb, zero_mul, zero_mul, add_zero]
  · obtain ⟨s, v, hs, hface, hruns⟩ := h.head
    have hentry := hruns.a_eq
    rw [chord_zero] at hentry
    exact ⟨s, hs, hface, hentry⟩
  · obtain ⟨s, u, hs, hface, hruns⟩ := h.getLast
    have hexit := hruns.b_eq
    rw [chord_one] at hexit
    exact ⟨s, hs, hface, hexit⟩

/-- **Following an edge from face to face arrives**, and its pieces follow the arc. -/
theorem faceSegments_follow_arc (h : Vec3.IsArc a b) :
    ∃ segments, faceSegments? a b = some segments ∧ FollowArc a b segments := by
  obtain ⟨segments, hsegments, htrace⟩ := exists_trace h
  exact ⟨segments, hsegments, htrace.followArc⟩

/-- An arc that leaves the first face through a corner of the cube. -/
theorem faceSegments_follow_arc_through_corner :
    Vec3.IsArc ⟨1, 0, 0⟩ ⟨0, 1, 1⟩ ∧ Vec3.Between ⟨1, 0, 0⟩ ⟨0, 1, 1⟩ (⟨1, 1, 1⟩ : Vec3 ℝ) ∧
      ∃ segments, faceSegments? (⟨1, 0, 0⟩ : Vec3 ℝ) ⟨0, 1, 1⟩ = some segments ∧
        ∃ s ∈ segments, s.Through ⟨1, 1, 1⟩ := by
  have harc : Vec3.IsArc ⟨1, 0, 0⟩ ⟨0, 1, 1⟩ := by
    refine ⟨fun h => ?_, fun h => ?_, fun k _ h => ?_⟩
    · exact one_ne_zero (congrArg Vec3.x h)
    · exact one_ne_zero (congrArg Vec3.y h)
    · exact one_ne_zero ((congrArg Vec3.y h).trans (zero_mul (-k)))
  have hcorner : Vec3.Between ⟨1, 0, 0⟩ ⟨0, 1, 1⟩ (⟨1, 1, 1⟩ : Vec3 ℝ) :=
    ⟨1, 1, zero_le_one, zero_le_one, by norm_num, by ext <;> simp⟩
  obtain ⟨segments, hsegments, hfollow⟩ := faceSegments_follow_arc harc
  exact ⟨harc, hcorner, segments, hsegments, hfollow.covers _ hcorner⟩

end Arc

end SphereIndex
