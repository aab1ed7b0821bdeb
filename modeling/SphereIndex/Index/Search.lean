/-!
# Binary search

Lists that are kept in order are searched by halving.
-/

namespace SphereIndex

variable {β : Type}

/-- Binary search between two positions for the first member that is not `below`. -/
def searchBetween (xs : Array β) (below : β → Bool) (lo hi : Nat) : Nat :=
  if lo < hi then
    let mid := lo + (hi - lo) / 2
    match xs[mid]? with
    | some x => if below x then searchBetween xs below (mid + 1) hi else searchBetween xs below lo mid
    | none => searchBetween xs below lo mid
  else lo
termination_by hi - lo

/-- **The position of the first member that is not `below`**, where those that are stand in front
of those that are not. -/
def partitionPoint (xs : Array β) (below : β → Bool) : Nat := searchBetween xs below 0 xs.size

/-- The members that are `below` stand in front of those that are not. -/
def Parted (xs : Array β) (below : β → Bool) : Prop :=
  xs.toList.Pairwise fun a b => below b = true → below a = true

theorem Parted.below_of_lt {xs : Array β} {below : β → Bool} (h : Parted xs below) {m n : Nat}
    {a b : β} (hm : xs[m]? = some a) (hn : xs[n]? = some b) (hmn : m < n) (hb : below b = true) :
    below a = true := by
  obtain ⟨hm', ha⟩ := Array.getElem?_eq_some_iff.1 hm
  obtain ⟨hn', hb'⟩ := Array.getElem?_eq_some_iff.1 hn
  have hlt := List.pairwise_iff_getElem.1 h m n hm' hn' hmn
  rw [Array.getElem_toList, Array.getElem_toList, ha, hb'] at hlt
  exact hlt hb

/-- What lies left of the result of the search is below, and what lies right of it is not, if that
holds outside the two positions between which it searches. -/
theorem searchBetween_splits {xs : Array β} {below : β → Bool} (h : Parted xs below) {lo hi : Nat}
    (hle : lo ≤ hi) (hhi : hi ≤ xs.size)
    (left : ∀ n x, n < lo → xs[n]? = some x → below x = true)
    (right : ∀ n x, hi ≤ n → xs[n]? = some x → below x = false) (n : Nat) (x : β)
    (hx : xs[n]? = some x) : n < searchBetween xs below lo hi ↔ below x = true := by
  fun_induction searchBetween xs below lo hi with
  | case1 lo hi hlt mid m hm hbelow ih =>
    -- What stands left of a member that is below is below too.
    refine ih (by omega) hhi (fun k y hk hy => ?_) right
    by_cases hkm : k = mid
    · subst hkm
      rw [hm] at hy
      exact Option.some.inj hy ▸ hbelow
    · exact h.below_of_lt hy hm (by omega) hbelow
  | case2 lo hi hlt mid m hm hbelow ih =>
    refine ih (by omega) (by omega) left fun k y hk hy => ?_
    by_cases hkm : k = mid
    · subst hkm
      rw [hm] at hy
      exact Option.some.inj hy ▸ Bool.eq_false_iff.2 hbelow
    · exact Bool.eq_false_iff.2 fun hb => hbelow (h.below_of_lt hm hy (by omega) hb)
  | case3 lo hi hlt mid hm =>
    -- The middle lies inside the array.
    have := Array.getElem?_eq_none_iff.1 hm
    omega
  | case4 lo hi hlt =>
    refine ⟨fun hn => left n x hn hx, fun hb => ?_⟩
    by_cases hn : n < lo
    · exact hn
    · exact absurd hb (Bool.eq_false_iff.1 (right n x (by omega) hx))

theorem searchBetween_le (xs : Array β) (below : β → Bool) {lo hi : Nat} (hle : lo ≤ hi) :
    searchBetween xs below lo hi ≤ hi := by
  fun_induction searchBetween xs below lo hi with
  | case1 lo hi hlt mid m hm hbelow ih => exact ih (by omega)
  | case2 lo hi hlt mid m hm hbelow ih => exact Nat.le_trans (ih (by omega)) (by omega)
  | case3 lo hi hlt mid hm ih => exact Nat.le_trans (ih (by omega)) (by omega)
  | case4 lo hi hlt => exact hle

theorem partitionPoint_le (xs : Array β) (below : β → Bool) : partitionPoint xs below ≤ xs.size :=
  searchBetween_le xs below (Nat.zero_le _)

theorem lt_partitionPoint_iff {xs : Array β} {below : β → Bool} (h : Parted xs below) {n : Nat}
    {x : β} (hx : xs[n]? = some x) : n < partitionPoint xs below ↔ below x = true := by
  refine searchBetween_splits h (Nat.zero_le _) (Nat.le_refl _) (fun k _ hk => by omega)
    (fun k y hk hy => ?_) n x hx
  rw [Array.getElem?_eq_none hk] at hy
  cases hy

end SphereIndex
