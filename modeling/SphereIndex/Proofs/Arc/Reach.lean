import SphereIndex.Proofs.Arc.Clip

/-!
# Which edges reach a face

A clipped edge runs from the first to the last direction of the arc over the padded square.  If no
direction of the arc lies over it, the scores of the two ends add up to 3 and there is no result.
The one exception is an edge between two directions that are the same: its line is chosen
arbitrarily, and it may touch the square in the opposite direction only.
-/

namespace SphereIndex

namespace Vec3

/-- **The first direction of an arc with a property**: all others lie between it and the end. -/
structure IsFirst (a b : Vec3 ℝ) (P : Vec3 ℝ → Prop) (x : Vec3 ℝ) : Prop where
  between : Between a b x
  holds : P x
  first : ∀ y, Between a b y → P y → Between x b y

end Vec3

namespace Arc

/-- **The direction projects into the square** of the face grown by `padding`, from the side of the
face. -/
def Reaches (f : Face) (padding : ℝ) (x : Vec3 ℝ) : Prop :=
  ∃ p, f.project? x = some p ∧ |p.x| ≤ 1 + padding ∧ |p.y| ≤ 1 + padding

/-- Of the directions on a line only the one opposite to `a` has the property. -/
structure OnlyOpposite (n a : Vec3 ℝ) (P : Vec3 ℝ → Prop) : Prop where
  holds : P (a.scale (-1))
  only : ∀ x, n.dot x = 0 → P x → ∃ k, 0 < k ∧ x = a.scale (-k)

/-- **The ends have the same direction, and the line chosen through them touches the padded square**
in the opposite direction and nowhere else. -/
structure Grazes (f : Face) (padding : ℝ) (a b : Vec3 ℝ) : Prop where
  same : a.cross b = .zero
  touches : OnlyOpposite (a.lineNormal b) a (Reaches f padding)

variable {a b n x q e e' : Vec3 ℝ} {s k padding : ℝ} {f : Face}

/-! ## 1. Directions over a face -/

theorem reaches_iff : Reaches f padding x ↔ (f.toFrame x).Over (1 + padding) := by
  have hproject : f.project? x = if 0 < (f.toFrame x).z then some (f.toFrame x).shadow else none :=
    rfl
  constructor
  · rintro ⟨p, hp, hx, hy⟩
    rw [hproject] at hp
    split_ifs at hp with hz
    obtain rfl := Option.some.inj hp
    exact Vec3.over_of_shadow hz hx hy
  · intro hover
    exact ⟨_, hproject.trans (if_pos hover.pos), hover.shadow_le⟩

theorem onlyOpposite_toFrame_iff :
    OnlyOpposite (f.toFrame n) (f.toFrame a) (Vec3.Over (1 + padding)) ↔
      OnlyOpposite n a (Reaches f padding) := by
  have hscale (k : ℝ) (x : Vec3 ℝ) : f.toFrame x = (f.toFrame a).scale (-k) ↔ x = a.scale (-k) := by
    rw [← f.toFrame_scale]
    exact ⟨fun h => f.toFrame_injective h, congrArg f.toFrame⟩
  constructor
  · intro h
    refine ⟨reaches_iff.2 ?_, fun x hx hreach => ?_⟩
    · rw [f.toFrame_scale]
      exact h.holds
    · obtain ⟨k, hk, heq⟩ := h.only _ ((f.dot_toFrame n x).trans hx) (reaches_iff.1 hreach)
      exact ⟨k, hk, (hscale k x).1 heq⟩
  · intro h
    refine ⟨?_, fun y hy hover => ?_⟩
    · rw [← f.toFrame_scale]
      exact reaches_iff.1 h.holds
    · obtain ⟨x, rfl⟩ := f.exists_toFrame_eq hover.pos
      obtain ⟨k, hk, heq⟩ := h.only x ((f.dot_toFrame n x).symm.trans hy) (reaches_iff.2 hover)
      exact ⟨k, hk, (hscale k x).2 heq⟩

/-! ## 2. Edges that reach the face -/

/-- If the arc reaches the square at all, its last direction there lies on it. -/
theorem IsLast.between (h : IsLast n a b s q) (hn : Vec3.IsNormal n a b)
    (hx : Vec3.Between a b x) (hover : x.Over s) : Vec3.Between a b q := by
  refine hn.between h.onPlane h.ahead h.behind h.isOver.pos fun hzero => ?_
  -- Of two ends with the same direction, both lie over the square.
  obtain ⟨k, hk, rfl⟩ := hn.parallel hzero
  obtain ⟨α, β, hα, hβ, hpos, rfl⟩ := hx
  have hz : 0 < a.z * α + a.z * k * β := hover.pos
  have hsum := Vec3.combine_pos one_pos hk hα hβ hpos
  rw [one_mul] at hsum
  refine pos_of_mul_pos_left ?_ hsum.le
  linarith

/-- **The last direction over the square** is the first one met from the other end. -/
theorem IsLast.isFirst (h : IsLast n a b s q) (hn : Vec3.IsNormal n a b)
    (hx : Vec3.Between a b x) (hover : x.Over s) : Vec3.IsFirst b a (Vec3.Over s) q := by
  have hbetween := h.between hn hx hover
  have hpart := hn.start hbetween
  refine ⟨hbetween.symm, h.isOver, fun y hy hyover => ?_⟩
  have hy := hy.symm
  refine (hpart.between (hn.dot_between hy) (hn.turn_between hy).1 (h.last y hy hyover)
    hyover.pos fun hzero => ?_).symm
  obtain ⟨k, hk, rfl⟩ := hpart.parallel hzero
  exact pos_of_mul_pos_left h.isOver.pos hk.le

theorem isFirst_of_toFrame
    (h : Vec3.IsFirst (f.toFrame a) (f.toFrame b) (Vec3.Over (1 + padding)) (f.toFrame x)) :
    Vec3.IsFirst a b (Reaches f padding) x := by
  refine ⟨between_of_toFrame h.between, reaches_iff.2 h.holds, fun y hy hreach => ?_⟩
  exact between_of_toFrame (h.first _ (between_toFrame hy f) (reaches_iff.1 hreach))

/-- **An edge that reaches the face** is clipped to the part from its first to its last direction
there. -/
theorem clipToFace?_of_reaches (h : Vec3.IsArc a b) (hpad : 0 ≤ padding) (hx : Vec3.Between a b x)
    (hreach : Reaches f padding x) :
    ∃ p q, clipToFace? f padding a b = some (f.project p, f.project q) ∧
      Vec3.IsFirst a b (Reaches f padding) p ∧ Vec3.IsFirst b a (Reaches f padding) q := by
  have hover := reaches_iff.1 hreach
  have hn := isNormal_toFrame h.isNormal f
  have hbetween := between_toFrame hx f
  obtain ⟨p, q, hclip, hp, hq⟩ := clipToFace?_eq h hpad hx hover
  have hfirst := hp.isFirst hn.reverse hbetween.symm hover
  have hlast := hq.isFirst hn hbetween hover
  obtain ⟨p, rfl⟩ := f.exists_toFrame_eq hp.isOver.pos
  obtain ⟨q, rfl⟩ := f.exists_toFrame_eq hq.isOver.pos
  exact ⟨p, q, hclip, isFirst_of_toFrame hfirst, isFirst_of_toFrame hlast⟩

/-! ## 3. The score of an end -/

/-- The last direction over the square of the line with normal `n`, at height 1. -/
structure IsFarEnd (n : Vec3 ℝ) (s : ℝ) (e : Vec3 ℝ) : Prop where
  onPlane : n.dot e = 0
  isOver : e.Over s
  height : e.z = 1
  last : ∀ x, n.dot x = 0 → x.Over s → 0 ≤ Vec3.turn n x e

theorem isFarEnd (hmeets : Line.MeetsSquare (scaledNormal n s)) (hn : n ≠ .zero) (hs : 0 < s) :
    IsFarEnd n s (Line.farEnd n s) := by
  have hne := Line.ne_zero_of_meets hmeets hn
  exact ⟨Line.dot_farEnd hmeets hne hs, Line.over_farEnd hmeets hne hs, rfl,
    fun x hx hover => Line.turn_farEnd_nonneg hmeets hne hs hx hover⟩

theorem isFarEnd_neg (hmeets : Line.MeetsSquare (scaledNormal n s)) (hn : n ≠ .zero) (hs : 0 < s) :
    IsFarEnd (-n) s (Line.farEnd (-n) s) := by
  refine isFarEnd ?_ (Vec3.neg_ne_zero hn) hs
  rw [← scaledNormal_neg]
  exact Line.meetsSquare_neg hmeets

theorem IsFarEnd.eq_scale (h : IsFarEnd n s e) (hn : n ≠ .zero) (hx : n.dot x = 0)
    (hzero : Vec3.turn n x e = 0) : x = e.scale x.z := by
  have hturn : Vec3.turn n e x = 0 := by rw [Vec3.turn_swap, hzero, neg_zero]
  have hz : e.z ≠ 0 := h.isOver.pos.ne'
  have heq := Vec3.eq_scale_of_turn hn h.onPlane hx hturn hz
  rwa [h.height, div_one] at heq

/-- **What becomes of the end `b` of an arc**, if `b` does not lie over the square, by where the
line leaves the square: a point of the face and a score. -/
inductive Clipped (n a b e : Vec3 ℝ) : Vec2 ℝ → ℕ → Prop
  | within : 0 ≤ Vec3.turn n a e → 0 ≤ Vec3.turn n e b → Clipped n a b e e.shadow 0
  | beyond : 0 ≤ Vec3.turn n a e → Vec3.turn n e b < 0 → 0 < b.z → Clipped n a b e b.shadow 1
  | before : Vec3.turn n a e < 0 → 0 < b.z → Clipped n a b e b.shadow 2
  | away : Vec3.turn n a e < 0 ∨ Vec3.turn n e b < 0 → b.z ≤ 0 → Clipped n a b e e.shadow 3

theorem Clipped.of_turn {p : Vec2 ℝ} {t : ℕ} (h : Clipped n a b e p t)
    (hae : Vec3.turn n a e = 0) (heb : Vec3.turn n e b = 0) : t = 0 ∧ p = e.shadow := by
  cases h with
  | within => exact ⟨rfl, rfl⟩
  | beyond _ hbeyond => exact absurd heb hbeyond.ne
  | before hbefore => exact absurd hae hbefore.ne
  | away haway => exact haway.elim (absurd hae ·.ne) (absurd heb ·.ne)

theorem clipEnd_clipped (hb : ¬b.Over s) (hs1 : 1 ≤ s) (hk : 0 < k) {aTangent bTangent : Vec3 ℝ}
    (ha : ∀ e, (e - a).dot aTangent = Vec3.turn n a e * k)
    (htangent : ∀ e, (e - b).dot bTangent = Vec3.turn n e b * k) :
    ∃ q score, clipEnd a b (scaledNormal n s) aTangent bTangent s = (q, score) ∧
      Clipped n a b (Line.farEnd n s) q score := by
  have houtside := outside_eq hk (ha (Line.farEnd n s)) (htangent (Line.farEnd n s))
  rw [clipEnd_def, if_neg fun hsafe => hb (over_of_safe hsafe.1 hsafe.2 hs1), houtside]
  rcases lt_or_ge (Vec3.turn n a (Line.farEnd n s)) 0 with hbefore | hae
  · rw [if_pos hbefore, if_neg two_ne_zero]
    by_cases hz : b.z ≤ 0
    · exact ⟨_, _, if_pos hz, .away (.inl hbefore) hz⟩
    · exact ⟨_, _, if_neg hz, .before hbefore (not_le.1 hz)⟩
  · rw [if_neg (not_lt.2 hae)]
    rcases lt_or_ge (Vec3.turn n (Line.farEnd n s) b) 0 with hbeyond | heb
    · rw [if_pos hbeyond, if_neg one_ne_zero]
      by_cases hz : b.z ≤ 0
      · exact ⟨_, _, if_pos hz, .away (.inr hbeyond) hz⟩
      · exact ⟨_, _, if_neg hz, .beyond hae hbeyond (not_le.1 hz)⟩
    · rw [if_neg (not_lt.2 heb)]
      exact ⟨_, _, if_pos rfl, .within hae heb⟩

/-! ## 4. Edges that do not reach the face -/

/-- If the line enters the square where it leaves it, opposite to `a`, it only touches it. -/
theorem onlyOpposite_of_exit (hn : n ≠ .zero) (he : IsFarEnd n s e) (he' : IsFarEnd (-n) s e)
    (hz : a.z < 0) (ha : a = e.scale a.z) : OnlyOpposite n a (Vec3.Over s) := by
  refine ⟨?_, fun x hx hover => ?_⟩
  · rw [ha, Vec3.scale_scale]
    exact he.isOver.scale (mul_pos_of_neg_of_neg hz (neg_lt_zero.2 one_pos))
  · have hahead := he.last x hx hover
    have hbehind := he'.last x (by rw [Vec3.dot_neg_left, hx, neg_zero]) hover
    rw [Vec3.turn_neg, Vec3.turn_swap] at hbehind
    have heq := he.eq_scale hn hx (le_antisymm (neg_nonneg.1 hbehind) hahead)
    refine ⟨-(x.z / a.z), neg_pos.2 (div_neg_of_pos_of_neg hover.pos hz), ?_⟩
    rw [ha, neg_neg, Vec3.scale_scale, Vec3.scale_z, he.height, one_mul, mul_div_cancel₀ _ hz.ne]
    exact heq

section misses
variable (hn : Vec3.IsNormal n a b) (he : IsFarEnd n s e)
  (hmiss : ∀ x, Vec3.Between a b x → ¬x.Over s)
include hn he hmiss

/-- If the exit of the line is taken for a point of the arc, then the ends have the same direction,
and the exit is opposite to it. -/
theorem opposite_of_within (ha : a ≠ .zero) (hae : 0 ≤ Vec3.turn n a e)
    (heb : 0 ≤ Vec3.turn n e b) : Vec3.turn n a b = 0 ∧ a.z < 0 ∧ a = e.scale a.z := by
  have hpar : Vec3.turn n a b = 0 := by
    by_contra hne
    have hbetween := hn.between he.onPlane hae heb he.isOver.pos fun hzero => absurd hzero hne
    exact hmiss e hbetween he.isOver
  obtain ⟨k, hk, rfl⟩ := hn.parallel hpar
  rw [Vec3.turn_scale_right, Vec3.turn_swap] at heb
  have hzero := le_antisymm (neg_nonneg.1 (nonneg_of_mul_nonneg_left heb hk)) hae
  have heq := he.eq_scale hn.ne_zero hn.left hzero
  refine ⟨hpar, ?_, heq⟩
  rcases lt_trichotomy a.z 0 with hneg | h0 | hpos
  · exact hneg
  · rw [h0] at heq
    exact absurd (heq.trans (by ext <;> exact mul_zero _)) ha
  · -- The start would lie over the square, like the exit.
    refine absurd ?_ (hmiss a (Vec3.between_left a _))
    rw [heq]
    exact he.isOver.scale hpos

/-- The line does not leave the square beyond both ends. -/
theorem not_beyond_both (he' : IsFarEnd (-n) s e') (hae : 0 ≤ Vec3.turn n a e)
    (hea : Vec3.turn (-n) e' a < 0) : False := by
  have hdot (x : Vec3 ℝ) (hx : n.dot x = 0) : (-n).dot x = 0 := by
    rw [Vec3.dot_neg_left, hx, neg_zero]
  -- The start lies between the two exits.
  obtain ⟨α, β, hα, hβ, heq⟩ := Face.exists_between (f := .zPos) he.isOver.pos he'.isOver.pos
    (hdot e he.onPlane) he'.onPlane (hdot a hn.left) (he'.last e (hdot e he.onPlane) he.isOver)
    (by rwa [Vec3.turn_neg]) (by rw [Vec3.turn_swap]; exact neg_pos.2 hea)
  refine hmiss a (Vec3.between_left a b) ?_
  rw [heq]
  exact he.isOver.combine he'.isOver hα.le hβ (add_pos_of_pos_of_nonneg hα hβ)

/-- **The scores of both ends add up to 3**, unless the line touches the square opposite to both. -/
theorem three_le_scores (ha : a ≠ .zero) (hb : b ≠ .zero) (he' : IsFarEnd (-n) s e')
    {p q : Vec2 ℝ} {t u : ℕ} (ht : Clipped n a b e q t) (hu : Clipped (-n) b a e' p u) :
    3 ≤ u + t ∨ Vec3.turn n a b = 0 ∧ OnlyOpposite n a (Vec3.Over s) := by
  have hmiss' (x : Vec3 ℝ) (hx : Vec3.Between b a x) := hmiss x hx.symm
  -- An end with a score of 0 is behind the face, and so is the other.
  have hwithin (hae : 0 ≤ Vec3.turn n a e) (heb : 0 ≤ Vec3.turn n e b) : a.z < 0 := by
    exact (opposite_of_within hn he hmiss ha hae heb).2.1
  have hwithin' (hbe : 0 ≤ Vec3.turn (-n) b e') (hea : 0 ≤ Vec3.turn (-n) e' a) : b.z < 0 := by
    exact (opposite_of_within hn.reverse he' hmiss' hb hbe hea).2.1
  cases ht with
  | within hae heb =>
    cases hu with
    | within hbe hea =>
      obtain ⟨hpar, hz, ha⟩ := opposite_of_within hn he hmiss ha hae heb
      obtain ⟨-, hz', hb⟩ := opposite_of_within hn.reverse he' hmiss' hb hbe hea
      obtain ⟨k, hk, rfl⟩ := hn.parallel hpar
      have heq : e' = e := by
        apply Vec3.scale_cancel hz'.ne
        rw [← hb, Vec3.scale_z, ← Vec3.scale_scale, ← ha]
      rw [heq] at he'
      exact .inr ⟨hpar, onlyOpposite_of_exit hn.ne_zero he he' hz ha⟩
    | beyond _ _ hz => exact absurd hz (hwithin hae heb).not_gt
    | before _ hz => exact absurd hz (hwithin hae heb).not_gt
    | away => exact .inl le_rfl
  | beyond hae _ hz =>
    cases hu with
    | within hbe hea => exact absurd hz (hwithin' hbe hea).not_gt
    | beyond _ hea _ => exact (not_beyond_both hn he hmiss he' hae hea).elim
    | before => exact .inl le_rfl
    | away => exact .inl (by decide)
  | before _ hz =>
    cases hu with
    | within hbe hea => exact absurd hz (hwithin' hbe hea).not_gt
    | beyond => exact .inl le_rfl
    | before => exact .inl (by decide)
    | away => exact .inl (by decide)
  | away => exact .inl (Nat.le_add_left 3 u)

end misses

/-! ## 5. Clipping is exact -/

theorem Grazes.misses (hgraze : Grazes f padding a b) (h : Vec3.IsArc a b)
    (hx : Vec3.Between a b x) : ¬Reaches f padding x := by
  obtain ⟨k, hk, rfl⟩ := h.eq_scale hgraze.same
  obtain ⟨α, β, hα, hβ, hpos, rfl⟩ := hx
  intro hreach
  have hz : 0 < f.height (a.scale α + (a.scale k).scale β) := (reaches_iff.1 hreach).pos
  have hopposite : 0 < f.height (a.scale (-1)) := (reaches_iff.1 hgraze.touches.holds).pos
  rw [f.height_combine, f.height_scale] at hz
  rw [f.height_scale] at hopposite
  have hsum := Vec3.combine_pos one_pos hk hα hβ hpos
  have hneg := mul_neg_of_neg_of_pos (show f.height a < 0 by linarith) hsum
  linarith

section clipToFace
variable (h : Vec3.IsArc a b) (hpad : 0 ≤ padding)
include h hpad

section misses
variable (hmiss : ∀ x, Vec3.Between a b x → ¬Reaches f padding x)
include hmiss

theorem ofPoint_ne_of_misses : ¬(Face.ofPoint a = f ∧ Face.ofPoint b = f) := by
  rintro ⟨rfl, -⟩
  apply hmiss a (Vec3.between_left a b)
  exact reaches_iff.2 (Vec3.Over.mono (Face.cone_ofPoint h.left) (le_add_of_nonneg_right hpad))

/-- The clipped ends of an edge that does not reach the face, if its line does. -/
theorem clipToFace?_clipped (hn : n = f.toFrame (a.lineNormal b))
    (hmeets : Line.MeetsSquare (scaledNormal n (1 + padding))) :
    ∃ p q u t, clipToFace? f padding a b = (if u + t < 3 then some (p, q) else none) ∧
      Clipped n (f.toFrame a) (f.toFrame b) (Line.farEnd n (1 + padding)) q t ∧
      Clipped (-n) (f.toFrame b) (f.toFrame a) (Line.farEnd (-n) (1 + padding)) p u := by
  have hs : 1 ≤ 1 + padding := le_add_of_nonneg_right hpad
  have ha := fun hover => hmiss a (Vec3.between_left a b) (reaches_iff.2 hover)
  have hb := fun hover => hmiss b (Vec3.between_left b a).symm (reaches_iff.2 hover)
  obtain ⟨k, hk, hunit⟩ := unitNormal_eq (isNormal_toFrame h.isNormal f).ne_zero
  unfold clipToFace?
  rw [if_neg (ofPoint_ne_of_misses h hpad hmiss)]
  dsimp only
  rw [hunit, scaledNormal_neg, ← hn, if_pos hmeets]
  have hfirst := dot_tangent n (f.toFrame a) k
  have hlast := dot_tangent_last n (f.toFrame b) k
  obtain ⟨q, t, hqt, ht⟩ := clipEnd_clipped hb hs hk hfirst hlast
  simp only [← Vec3.turn_neg n] at hfirst hlast
  obtain ⟨p, u, hpu, hu⟩ := clipEnd_clipped ha hs hk hlast hfirst
  refine ⟨p, q, u, t, ?_, ht, hu⟩
  rw [hqt, hpu]

/-- **An edge that does not reach the face** gives nothing, unless its line grazes the square. -/
theorem clipToFace?_of_misses (hgraze : ¬Grazes f padding a b) :
    clipToFace? f padding a b = none := by
  have hs : 0 < 1 + padding := add_pos_of_pos_of_nonneg one_pos hpad
  have hn := isNormal_toFrame h.isNormal f
  by_cases hmeets : Line.MeetsSquare (scaledNormal (f.toFrame (a.lineNormal b)) (1 + padding))
  · obtain ⟨p, q, u, t, hclip, ht, hu⟩ := clipToFace?_clipped h hpad hmiss rfl hmeets
    have hmiss' (x : Vec3 ℝ) (hx : Vec3.Between (f.toFrame a) (f.toFrame b) x) :
        ¬x.Over (1 + padding) := by
      intro hover
      obtain ⟨x, rfl⟩ := f.exists_toFrame_eq hover.pos
      exact hmiss x (between_of_toFrame hx) (reaches_iff.2 hover)
    obtain hsum | ⟨hpar, htouch⟩ := three_le_scores hn (isFarEnd hmeets hn.ne_zero hs) hmiss'
      (f.toFrame_ne_zero h.left) (f.toFrame_ne_zero h.right)
      (isFarEnd_neg hmeets hn.ne_zero hs) ht hu
    · rw [hclip, if_neg (not_lt.2 hsum)]
    · rw [f.turn_toFrame] at hpar
      have hcross := Vec3.cross_eq_zero h.isNormal.ne_zero h.isNormal.left h.isNormal.right hpar
      exact absurd ⟨hcross, onlyOpposite_toFrame_iff.1 htouch⟩ hgraze
  · unfold clipToFace?
    rw [if_neg (ofPoint_ne_of_misses h hpad hmiss)]
    exact if_neg hmeets

end misses

/-- **An edge whose line grazes the square** is clipped to the point opposite to it. -/
theorem clipToFace?_of_grazes (hgraze : Grazes f padding a b) :
    clipToFace? f padding a b = some (f.project (a.scale (-1)), f.project (a.scale (-1))) := by
  have hs : 0 < 1 + padding := add_pos_of_pos_of_nonneg one_pos hpad
  have hn := isNormal_toFrame h.isNormal f
  have htouch := onlyOpposite_toFrame_iff.2 hgraze.touches
  have hmiss := fun x => hgraze.misses h (x := x)
  have hdot : (f.toFrame (a.lineNormal b)).dot (f.toFrame (a.scale (-1))) = 0 := by
    rw [f.dot_toFrame, Vec3.dot_scale_right, h.isNormal.left, zero_mul]
  have hmeets := (Line.meetsSquare_of_over hn.ne_zero hdot
    (reaches_iff.1 hgraze.touches.holds) hs).1
  obtain ⟨p, q, u, t, hclip, ht, hu⟩ := clipToFace?_clipped h hpad hmiss rfl hmeets
  have hexit := isFarEnd hmeets hn.ne_zero hs
  have hentry := isFarEnd_neg hmeets hn.ne_zero hs
  have hentry_dot := hentry.onPlane
  rw [Vec3.dot_neg_left, neg_eq_zero] at hentry_dot
  -- Both exits are opposite to the ends, so both scores are 0.
  obtain ⟨k, hk, heq⟩ := htouch.only _ hexit.onPlane hexit.isOver
  obtain ⟨k', hk', heq'⟩ := htouch.only _ hentry_dot hentry.isOver
  obtain ⟨l, hl, rfl⟩ := h.eq_scale hgraze.same
  rw [heq, f.toFrame_scale] at ht
  rw [heq', f.toFrame_scale] at hu
  obtain ⟨rfl, rfl⟩ := ht.of_turn (by rw [Vec3.turn_scale_right, Vec3.turn_self, zero_mul])
    (Vec3.turn_scale_scale ..)
  obtain ⟨rfl, rfl⟩ := hu.of_turn (Vec3.turn_scale_scale ..)
    (by rw [Vec3.turn_swap, Vec3.turn_scale_right, Vec3.turn_self, zero_mul, neg_zero])
  rw [hclip, if_pos (by decide), Face.project_eq, f.toFrame_scale,
    Vec3.shadow_scale (neg_neg_of_pos hk).ne, Vec3.shadow_scale (neg_neg_of_pos hk').ne,
    Vec3.shadow_scale (neg_ne_zero.2 one_ne_zero)]

/-- **Clipping an edge to a face is exact**, for every edge whose line does not graze the square:
there is nothing if no direction of the arc reaches the face, and otherwise the first and the last
that do.  If the line grazes the square, the result is the point opposite to the ends. -/
theorem clip_exact_unless_grazing :
    (clipToFace? f padding a b = none ↔
      (∀ x, Vec3.Between a b x → ¬Reaches f padding x) ∧ ¬Grazes f padding a b) ∧
    (∀ p q, clipToFace? f padding a b = some (p, q) → ¬Grazes f padding a b →
      ∃ x y, Vec3.IsFirst a b (Reaches f padding) x ∧ Vec3.IsFirst b a (Reaches f padding) y ∧
        p = f.project x ∧ q = f.project y) ∧
    (Grazes f padding a b →
      clipToFace? f padding a b = some (f.project (a.scale (-1)), f.project (a.scale (-1))) ∧
        ∀ x, Vec3.Between a b x → ¬Reaches f padding x) := by
  refine ⟨⟨fun hnone => ⟨fun x hx hreach => ?_, fun hgraze => ?_⟩, fun hmiss => ?_⟩,
    fun p q hclip hgraze => ?_, fun hgraze => ⟨?_, fun x => hgraze.misses h⟩⟩
  · obtain ⟨p, q, hclip, -⟩ := clipToFace?_of_reaches h hpad hx hreach
    exact Option.some_ne_none _ (hclip.symm.trans hnone)
  · exact Option.some_ne_none _ ((clipToFace?_of_grazes h hpad hgraze).symm.trans hnone)
  · exact clipToFace?_of_misses h hpad hmiss.1 hmiss.2
  · by_cases hreach : ∃ x, Vec3.Between a b x ∧ Reaches f padding x
    · obtain ⟨x, hx, hreach⟩ := hreach
      obtain ⟨x, y, hxy, hfirst, hlast⟩ := clipToFace?_of_reaches h hpad hx hreach
      obtain ⟨rfl, rfl⟩ := Prod.mk.inj (Option.some.inj (hclip.symm.trans hxy))
      exact ⟨x, y, hfirst, hlast, rfl, rfl⟩
    · have hmiss (x : Vec3 ℝ) (hx : Vec3.Between a b x) : ¬Reaches f padding x := by
        exact fun hx' => hreach ⟨x, hx, hx'⟩
      have hnone := clipToFace?_of_misses h hpad hmiss hgraze
      exact absurd (hclip.symm.trans hnone) (Option.some_ne_none _)
  · exact clipToFace?_of_grazes h hpad hgraze

end clipToFace

theorem reaches_xPos (hx : 0 < x.x) (hy : |x.y| ≤ (1 + padding) * x.x)
    (hz : |x.z| ≤ (1 + padding) * x.x) : Reaches .xPos padding x :=
  reaches_iff.2 ⟨hx, hy, hz⟩

/-- An edge that ends on the other side of the face. -/
theorem clip_some_of_end_behind :
    Vec3.IsArc (⟨1, 0, 0⟩ : Vec3 ℝ) ⟨-1, 2, 0⟩ ∧ (0 : ℝ) ≤ 1 / 8 ∧
      ∃ x y, Vec3.IsFirst ⟨1, 0, 0⟩ ⟨-1, 2, 0⟩ (Reaches .xPos (1 / 8)) x ∧
        Vec3.IsFirst ⟨-1, 2, 0⟩ ⟨1, 0, 0⟩ (Reaches .xPos (1 / 8)) y ∧
        clipToFace? .xPos (1 / 8) (⟨1, 0, 0⟩ : Vec3 ℝ) ⟨-1, 2, 0⟩ =
          some (Face.xPos.project x, Face.xPos.project y) := by
  have harc : Vec3.IsArc (⟨1, 0, 0⟩ : Vec3 ℝ) ⟨-1, 2, 0⟩ := by
    refine ⟨fun h => ?_, fun h => ?_, fun k _ h => ?_⟩
    · exact one_ne_zero (congrArg Vec3.x h)
    · exact two_ne_zero (congrArg Vec3.y h)
    · exact two_ne_zero ((congrArg Vec3.y h).trans (zero_mul (-k)))
  have hpad : (0 : ℝ) ≤ 1 / 8 := by norm_num
  have hreach : Reaches .xPos (1 / 8) ⟨1, 0, 0⟩ := by
    apply reaches_xPos <;> norm_num
  have hgraze : ¬Grazes .xPos (1 / 8) ⟨1, 0, 0⟩ ⟨-1, 2, 0⟩ := by
    intro h
    have hz := congrArg Vec3.z h.same
    norm_num at hz
  obtain ⟨hnone, hsome, -⟩ := clip_exact_unless_grazing (f := .xPos) harc hpad
  have hne := fun h => (hnone.1 h).1 _ (Vec3.between_left _ _) hreach
  obtain ⟨⟨p, q⟩, hclip⟩ := Option.ne_none_iff_exists'.1 hne
  obtain ⟨x, y, hx, hy, rfl, rfl⟩ := hsome p q hclip hgraze
  exact ⟨harc, hpad, x, y, hx, hy, hclip⟩

/-- The direction opposite to a corner of the first face grown by 1/8. -/
noncomputable def behindCorner : Vec3 ℝ := ⟨-3, -27 / 8, -27 / 8⟩

theorem behindCorner_isArc : Vec3.IsArc behindCorner behindCorner := by
  have hne : behindCorner ≠ .zero := by
    intro h
    have hx : (-3 : ℝ) = 0 := congrArg Vec3.x h
    norm_num at hx
  refine ⟨hne, hne, fun k hk h => ?_⟩
  have hx : (-3 : ℝ) = -3 * -k := congrArg Vec3.x h
  linarith

/-- The line chosen through the direction. -/
theorem behindCorner_line (h : (behindCorner.lineNormal behindCorner).dot x = 0) :
    335957625 * x.x = 2679000 * x.y + 295950000 * x.z := by
  have hlargest : behindCorner.largestCoordinate = .z := by
    rw [Vec3.largestCoordinate_eq, if_neg, if_neg] <;> norm_num [behindCorner]
  obtain ⟨k, hk, hunit⟩ :=
    Vec3.normalize_eq (Vec3.cross_sideways_ne_zero behindCorner_isArc.left)
  rw [Vec3.lineNormal_of_cross_eq_zero (Vec3.cross_self _), Vec3.orthogonal_eq, hunit,
    Vec3.dot_scale_left] at h
  have hdot := (mul_eq_zero.1 h).resolve_right hk.ne'
  rw [Vec3.sideways, hlargest] at hdot
  norm_num [behindCorner, Vec3.dot_eq] at hdot
  linarith

theorem behindCorner_grazes : Grazes .xPos (1 / 8) behindCorner behindCorner := by
  refine ⟨Vec3.cross_self _, ?_, fun x hx hreach => ?_⟩
  · apply reaches_xPos <;> norm_num [behindCorner]
  · obtain ⟨hpos, hy, hz⟩ := reaches_iff.1 hreach
    change 0 < x.x at hpos
    change |x.y| ≤ (1 + 1 / 8) * x.x at hy
    change |x.z| ≤ (1 + 1 / 8) * x.x at hz
    -- The line reaches no further than the two bounds allow, and only where both are attained.
    have hline := behindCorner_line hx
    rw [abs_le] at hy hz
    refine ⟨x.x / 3, div_pos hpos three_pos, ?_⟩
    ext <;> simp only [behindCorner, Vec3.scale_x, Vec3.scale_y, Vec3.scale_z] <;> linarith

/-- **An edge of one point that does not reach the face**, but is clipped to a corner. -/
theorem clip_some_of_point_behind_corner :
    Vec3.IsArc behindCorner behindCorner ∧
      clipToFace? .xPos (1 / 8) behindCorner behindCorner = some (⟨9 / 8, 9 / 8⟩, ⟨9 / 8, 9 / 8⟩) ∧
      ∀ x, Vec3.Between behindCorner behindCorner x → ¬Reaches .xPos (1 / 8) x := by
  have hproject : Face.xPos.project (behindCorner.scale (-1)) = ⟨9 / 8, 9 / 8⟩ := by
    have hcoord : (-27 / 8 * -1 : ℝ) / (-3 * -1) = 9 / 8 := by norm_num
    exact (Vec2.mk.injEq ..).mpr ⟨hcoord, hcoord⟩
  have hclip := clipToFace?_of_grazes behindCorner_isArc (by norm_num) behindCorner_grazes
  rw [hproject] at hclip
  exact ⟨behindCorner_isArc, hclip, fun x => behindCorner_grazes.misses behindCorner_isArc⟩

end Arc

end SphereIndex
