import SphereIndex.Arc.FaceSegments
import SphereIndex.Proofs.Arc.Line
import SphereIndex.Proofs.Arc.Normal

/-!
# The chord of an arc

The points of an arc are followed along its chord.  On each face the exit of the line is a point of
the arc, not behind the entry and not beyond the end.
-/

namespace SphereIndex

namespace Arc

variable {a b n p : Vec3 ℝ} {f g last : Face}

/-! ## 1. The exit from a face -/

theorem scaledNormal_one (n : Vec3 ℝ) : scaledNormal n 1 = n := by
  ext
  · exact one_mul _
  · exact one_mul _
  · rfl

/-- The point of the cube where a line leaves a face. -/
noncomputable def exitOf (f : Face) (n : Vec3 ℝ) : Vec3 ℝ := f.lift (Line.exit (f.toFrame n))

theorem toFrame_exitOf (f : Face) (n : Vec3 ℝ) :
    f.toFrame (exitOf f n) = Line.farEnd (f.toFrame n) 1 := by
  rw [exitOf, Face.toFrame_lift, Line.farEnd, scaledNormal_one]
  ext
  · exact (one_mul _).symm
  · exact (one_mul _).symm
  · rfl

section exit
variable (hn : n ≠ .zero) (hp : n.dot p = 0) (hcone : f.Cone p)
include hn hp hcone

theorem meets_of_cone : Line.MeetsSquare (scaledNormal (f.toFrame n) 1) ∧
    ((f.toFrame n).x ≠ 0 ∨ (f.toFrame n).y ≠ 0) :=
  Line.meetsSquare_of_over (f.toFrame_ne_zero hn) ((f.dot_toFrame n p).trans hp) hcone one_pos

theorem isExit_of_cone : Line.IsExit (f.toFrame n) (Line.exitAxis (f.toFrame n))
    (Line.exit (f.toFrame n)) := by
  obtain ⟨hmeets, hne⟩ := meets_of_cone hn hp hcone
  rw [scaledNormal_one] at hmeets
  exact Line.isExit hmeets hne

theorem dot_exitOf : n.dot (exitOf f n) = 0 := by
  obtain ⟨hmeets, hne⟩ := meets_of_cone hn hp hcone
  rw [← f.dot_toFrame, toFrame_exitOf]
  exact Line.dot_farEnd hmeets hne one_pos

theorem cone_exitOf : f.Cone (exitOf f n) := by
  obtain ⟨hx, hy⟩ := (isExit_of_cone hn hp hcone).abs_le
  exact f.cone_lift hx hy

/-- No direction over the face lies ahead of the exit. -/
theorem turn_exitOf_nonneg : 0 ≤ Vec3.turn n p (exitOf f n) := by
  obtain ⟨hmeets, hne⟩ := meets_of_cone hn hp hcone
  rw [← f.turn_toFrame, toFrame_exitOf]
  exact Line.turn_farEnd_nonneg hmeets hne one_pos ((f.dot_toFrame n p).trans hp) hcone

/-- **The walk starts on the face of its point.**  In exact arithmetic its line meets that face and
does not leave it before the point. -/
theorem startFace_eq (q : Vec2 ℝ) : startFace f p n q = (f, q) := by
  obtain ⟨hmeets, -⟩ := meets_of_cone hn hp hcone
  rw [scaledNormal_one] at hmeets
  obtain ⟨k, hk, hunit⟩ := Vec3.normalize_eq hn
  have hturn : (f.lift (Line.exit (f.toFrame n)) - p).dot (n.normalize.cross p) =
      Vec3.turn n p (exitOf f n) * k := by
    rw [hunit, exitOf, Vec3.dot_eq, Vec3.turn_eq]
    simp only [Vec3.cross_x, Vec3.cross_y, Vec3.cross_z, Vec3.sub_x, Vec3.sub_y, Vec3.sub_z,
      Vec3.scale_x, Vec3.scale_y, Vec3.scale_z]
    ring
  -- The tolerance allows the exit to lie a little before the point; here it does not.
  have hmargin : -(3 * Scalar.epsilon : ℝ) ≤ 0 :=
    neg_nonpos.2 (mul_nonneg zero_le_three Scalar.epsilon_nonneg)
  have hahead : -(3 * Scalar.epsilon : ℝ) ≤
      (f.lift (Line.exit (f.toFrame n)) - p).dot (n.normalize.cross p) := by
    rw [hturn]
    exact hmargin.trans (mul_nonneg (turn_exitOf_nonneg hn hp hcone) hk.le)
  unfold startFace
  split
  · rfl
  · exact if_pos ⟨hmeets, hahead⟩

end exit

/-! ## 2. The chord -/

/-- The point of the chord from `a` to `b` at parameter `t`. -/
noncomputable def chord (a b : Vec3 ℝ) (t : ℝ) : Vec3 ℝ := a.scale (1 - t) + b.scale t

theorem between_chord {s t x : ℝ} (h1 : s ≤ x) (h2 : x ≤ t) :
    Vec3.Between (chord a b s) (chord a b t) (chord a b x) := by
  rcases (h1.trans h2).eq_or_lt with rfl | hst
  · obtain rfl := le_antisymm h1 h2
    exact Vec3.between_left _ _
  · have hpos := sub_pos.2 hst
    refine ⟨(t - x) / (t - s), (x - s) / (t - s), div_nonneg (sub_nonneg.2 h2) hpos.le,
      div_nonneg (sub_nonneg.2 h1) hpos.le, ?_, ?_⟩
    · rw [← add_div, show t - x + (x - s) = t - s by ring, div_self hpos.ne']
      exact one_pos
    · ext <;> simp only [chord, Vec3.add_x, Vec3.add_y, Vec3.add_z, Vec3.scale_x, Vec3.scale_y,
        Vec3.scale_z] <;> field_simp <;> ring

theorem chord_one (a b : Vec3 ℝ) : chord a b 1 = b := by
  ext <;> simp [chord]

theorem chord_zero (a b : Vec3 ℝ) : chord a b 0 = a := by
  ext <;> simp [chord]

theorem turn_chord_right (n a b : Vec3 ℝ) (t : ℝ) :
    Vec3.turn n (chord a b t) b = (1 - t) * Vec3.turn n a b := by
  rw [chord, Vec3.turn_combine_left, Vec3.turn_self]
  ring

theorem dot_chord (h : Vec3.IsNormal n a b) (t : ℝ) : n.dot (chord a b t) = 0 := by
  rw [chord, Vec3.dot_combine, h.left, h.right, zero_mul, zero_mul, add_zero]

/-- Every direction of the arc is that of a point of the chord. -/
theorem exists_chord_of_between {x : Vec3 ℝ} (hx : Vec3.Between a b x) :
    ∃ t k, 0 ≤ t ∧ t ≤ 1 ∧ 0 < k ∧ x = (chord a b t).scale k := by
  obtain ⟨s, t, hs, ht, hst, rfl⟩ := hx
  refine ⟨t / (s + t), s + t, div_nonneg ht hst.le, ?_, hst, ?_⟩
  · rw [div_le_one hst]
    linarith
  · ext <;> simp only [chord, Vec3.add_x, Vec3.add_y, Vec3.add_z, Vec3.scale_x, Vec3.scale_y,
      Vec3.scale_z] <;> field_simp <;> ring

theorem chord_chord (a b : Vec3 ℝ) (t u : ℝ) :
    chord (chord a b t) b u = chord a b (t + (1 - t) * u) := by
  ext <;> simp only [chord, Vec3.add_x, Vec3.add_y, Vec3.add_z, Vec3.scale_x, Vec3.scale_y,
    Vec3.scale_z] <;> ring

theorem exists_chord {e : Vec3 ℝ} {t : ℝ} (hn : Vec3.IsNormal n a b) (he : n.dot e = 0)
    (hpos : 0 < Vec3.turn n a b) (h1 : t < 1) (hne : e ≠ .zero)
    (hahead : 0 ≤ Vec3.turn n (chord a b t) e) (hbehind : 0 ≤ Vec3.turn n e b) :
    ∃ t' k, t ≤ t' ∧ t' ≤ 1 ∧ 0 < k ∧ e = (chord a b t').scale k := by
  have hlen : 0 < Vec3.turn n (chord a b t) b := by
    rw [turn_chord_right]
    exact mul_pos (sub_pos.2 h1) hpos
  have hbetween := Vec3.between_of_turn (dot_chord hn t) hn.right he hlen hahead hbehind hne
  -- The rest of the chord is a chord itself.
  obtain ⟨u, k, h0, hu1, hk, heq⟩ := exists_chord_of_between hbetween
  rw [chord_chord] at heq
  refine ⟨t + (1 - t) * u, k, ?_, ?_, hk, heq⟩
  · have := mul_nonneg (sub_nonneg.2 h1.le) h0
    linarith
  · have := mul_le_of_le_one_right (sub_nonneg.2 h1.le) hu1
    linarith

/-! ## 3. One face further -/

/-- If a direction between `p` and `q` is as high over another face, so is `p`. -/
theorem cone_of_height_eq {q x : Vec3 ℝ} {s t : ℝ} (hp : f.Cone p) (hq : f.Cone q) (hs : 0 < s)
    (ht : 0 ≤ t) (hx : x = p.scale s + q.scale t) (hfx : f.Cone x) (hgx : g.Cone x) :
    g.Cone p := by
  have hsame := hfx.height_eq_height hgx
  rw [hx, Face.height_combine, Face.height_combine] at hsame
  have hle := (Face.cone_iff.1 hp).2 g
  have hle' := mul_nonneg (sub_nonneg.2 ((Face.cone_iff.1 hq).2 g)) ht
  -- The height of `x` is a sum with positive weight on `p`, so a strict inequality would remain.
  have heq : g.height p = f.height p := by
    refine le_antisymm hle ?_
    by_contra hlt
    have := mul_pos (sub_pos.2 (not_le.1 hlt)) hs
    linarith
  rw [Face.cone_iff, heq]
  exact Face.cone_iff.1 hp

/-- **The exit from a face before the last is a point of the chord**, not behind the entry.  The end
of the arc may lie over the face as well, but then the entry does not lie over the last face. -/
theorem exists_chord_exitOf {t : ℝ} (hn : Vec3.IsNormal n a b) (hpos : 0 < Vec3.turn n a b)
    (hb : last.Cone b) (h1 : t ≤ 1) (hcone : f.Cone (chord a b t))
    (hlast : last.Cone (chord a b t) → ¬f.Cone b) :
    ∃ t' k, t ≤ t' ∧ t' ≤ 1 ∧ 0 < k ∧ exitOf f n = (chord a b t').scale k := by
  have hdot := dot_chord hn t
  have he := dot_exitOf hn.ne_zero hdot hcone
  have hecone := cone_exitOf hn.ne_zero hdot hcone
  have hahead := turn_exitOf_nonneg hn.ne_zero hdot hcone
  -- At the end itself the face would be the last one.
  have hlt : t < 1 := by
    rcases h1.lt_or_eq with hlt | rfl
    · exact hlt
    · rw [chord_one] at hcone hlast
      exact absurd hcone (hlast hb)
  have hhe := (Face.cone_iff.1 hecone).1
  have hbehind : 0 ≤ Vec3.turn n (exitOf f n) b := by
    by_contra hneg
    -- Otherwise the end lies between the entry and the exit, and so over the face.
    have hxq : 0 < Vec3.turn n b (exitOf f n) := by
      rw [Vec3.turn_swap]
      linarith
    have hpx : 0 ≤ Vec3.turn n (chord a b t) b := by
      rw [turn_chord_right]
      exact mul_nonneg (sub_nonneg.2 h1) hpos.le
    obtain ⟨x, y, hx, hy, heq⟩ := Face.exists_between (Face.cone_iff.1 hcone).1 hhe hdot he hn.right
      hahead hpx hxq
    have hfb : f.Cone b :=
      (hcone.between hecone ⟨x, y, hx.le, hy, add_pos_of_pos_of_nonneg hx hy, heq⟩).1
    exact hlast (cone_of_height_eq hcone hecone hx hy heq hfb hb) hfb
  have hne : exitOf f n ≠ .zero := by
    intro hzero
    rw [hzero, Face.height_eq] at hhe
    cases f <;> simp at hhe
  exact exists_chord hn he hpos hlt hne hahead hbehind

end Arc

end SphereIndex
