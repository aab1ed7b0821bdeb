import SphereIndex.Vector
import SphereIndex.Planar.Interval

/-!
# Rectangles

Axis-parallel rectangles of the plane, one interval per axis.  A rectangle is empty as soon as one
of its intervals is.
-/

namespace SphereIndex

def Axis.pick : Nat → Except PartError Axis
  | 0 => .ok .u
  | 1 => .ok .v
  | n => .error (.rectAxis n)

structure Rect (α : Type) where
  x : Interval α
  y : Interval α
  deriving BEq, DecidableEq, Repr

namespace Rect

/-! ## 1. The two intervals -/

section axes
variable {α : Type}

def along (r : Rect α) : Axis → Interval α
  | .u => r.x
  | .v => r.y

def set (r : Rect α) (axis : Axis) (e : End) (x : α) : Rect α :=
  match axis with
  | .u => ⟨r.x.set e x, r.y⟩
  | .v => ⟨r.x, r.y.set e x⟩

def lo (r : Rect α) : Vec2 α := ⟨r.x.lo, r.y.lo⟩
def hi (r : Rect α) : Vec2 α := ⟨r.x.hi, r.y.hi⟩

@[simp] theorem along_set_self (r : Rect α) (axis : Axis) (e : End) (x : α) :
    (r.set axis e x).along axis = (r.along axis).set e x := by cases axis <;> rfl

@[simp] theorem along_set_other (r : Rect α) (axis : Axis) (e : End) (x : α) :
    (r.set axis e x).along axis.other = r.along axis.other := by cases axis <;> rfl

end axes

variable {α : Type} [Scalar α]

/-! ## 2. The points of a rectangle -/

def empty : Rect α := ⟨.empty, .empty⟩

instance : Inhabited (Rect α) := ⟨empty⟩

def ofPair (p q : Vec2 α) : Rect α := ⟨.ofPair p.x q.x, .ofPair p.y q.y⟩

def IsEmpty (r : Rect α) : Prop := r.x.IsEmpty ∨ r.y.IsEmpty

instance (r : Rect α) : Decidable r.IsEmpty := inferInstanceAs (Decidable (_ ∨ _))

def Contains (r : Rect α) (p : Vec2 α) : Prop := r.x.Contains p.x ∧ r.y.Contains p.y

instance (r : Rect α) (p : Vec2 α) : Decidable (r.Contains p) :=
  inferInstanceAs (Decidable (_ ∧ _))

def center (r : Rect α) : Vec2 α := ⟨r.x.center, r.y.center⟩

/-! ## 3. Two rectangles -/

/-- Whether each interval of `s` lies in that of `r`. -/
def Includes (r s : Rect α) : Prop := r.x.Includes s.x ∧ r.y.Includes s.y

instance (r s : Rect α) : Decidable (r.Includes s) := inferInstanceAs (Decidable (_ ∧ _))

def Meets (r s : Rect α) : Prop := r.x.Meets s.x ∧ r.y.Meets s.y

instance (r s : Rect α) : Decidable (r.Meets s) := inferInstanceAs (Decidable (_ ∧ _))

/-- The rectangle itself, or `Rect.empty` if one of its intervals is empty. -/
def orEmpty (r : Rect α) : Rect α := if r.IsEmpty then empty else r

def union (r s : Rect α) : Rect α := ⟨r.x.union s.x, r.y.union s.y⟩

def inter (r s : Rect α) : Rect α := orEmpty ⟨r.x.inter s.x, r.y.inter s.y⟩

/-! ## 4. Moving the sides -/

/-- The point of a non-empty rectangle that is closest to `p`. -/
def clamp (r : Rect α) (p : Vec2 α) : Vec2 α := ⟨r.x.clamp p.x, r.y.clamp p.y⟩

/-- The rectangle grown by a margin on all four sides; an empty one stays empty. -/
def expanded (r : Rect α) (margin : α) : Rect α :=
  orEmpty ⟨r.x.expanded margin, r.y.expanded margin⟩

end Rect

end SphereIndex
