/-!
# Powers of two
-/

namespace SphereIndex

def twoPow (n : Nat) : Nat := Nat.pow 2 n

@[simp] theorem twoPow_zero : twoPow 0 = 1 := rfl

theorem twoPow_pos (n : Nat) : 0 < twoPow n := Nat.two_pow_pos n

end SphereIndex
