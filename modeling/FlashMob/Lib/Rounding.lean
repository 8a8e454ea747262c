import Mathlib.Algebra.Order.Floor.Div
import Mathlib.Tactic.Common

namespace FlashMob.Lib.Rounding

variable {n d d' : Nat}

theorem ceilDiv_le_iff (hd : 0 < d) {q : Nat} : n ⌈/⌉ d ≤ q ↔ n ≤ d * q := by
  rw [ceilDiv_le_iff_le_smul hd,smul_eq_mul]

theorem ceilDiv_pos (hd : 0 < d) (hn : 0 < n) : 0 < n ⌈/⌉ d := by
  rw [Nat.pos_iff_ne_zero]
  intro h
  have := (ceilDiv_le_iff hd).mp (Nat.le_of_eq h)
  omega

theorem ceilDiv_le_self (hd : 0 < d) : n ⌈/⌉ d ≤ n := by
  rw [ceilDiv_le_iff hd]
  exact Nat.le_mul_of_pos_left n hd

theorem ceilDiv_antitone (hd : 0 < d) (hle : d ≤ d') : n ⌈/⌉ d' ≤ n ⌈/⌉ d := by
  rw [ceilDiv_le_iff (Nat.lt_of_lt_of_le hd hle)]
  exact Nat.le_trans ((ceilDiv_le_iff hd).mp (Nat.le_refl _)) (Nat.mul_le_mul_right _ hle)

/-- Rounding up is symmetric: `q` parts of size `d` suffice when `d` parts of size `q` do. -/
theorem ceilDiv_le_comm (hd : 0 < d) {q : Nat} (hq : 0 < q) : n ⌈/⌉ d ≤ q ↔ n ⌈/⌉ q ≤ d := by
  rw [ceilDiv_le_iff hd,ceilDiv_le_iff hq,Nat.mul_comm]

/-- `n` things packed into boxes of `d` and then spread evenly over these boxes: no box gets
more than `d`, -/
theorem ceilDiv_ceilDiv_le (hd : 0 < d) (hn : 0 < n) : n ⌈/⌉ (n ⌈/⌉ d) ≤ d :=
  (ceilDiv_le_comm hd (ceilDiv_pos hd hn)).mp (Nat.le_refl _)

/-- and no further box is needed. -/
theorem ceilDiv_balanced (hd : 0 < d) (hn : 0 < n) : n ⌈/⌉ (n ⌈/⌉ (n ⌈/⌉ d)) = n ⌈/⌉ d := by
  have hboxes := ceilDiv_pos hd hn
  have hsize := ceilDiv_pos hboxes hn
  apply Nat.le_antisymm
  · exact (ceilDiv_le_comm hboxes hsize).mp (Nat.le_refl _)
  · exact ceilDiv_antitone hsize (ceilDiv_ceilDiv_le hd hn)

/-- The next multiple of `d`. -/
def roundUp (d n : Nat) : Nat := n ⌈/⌉ d * d

theorem roundUp_mono (hd : 0 < d) {m : Nat} (h : m ≤ n) : roundUp d m ≤ roundUp d n :=
  Nat.mul_le_mul_right d ((ceilDiv_le_iff hd).mpr
    (Nat.le_trans h ((ceilDiv_le_iff hd).mp (Nat.le_refl _))))

theorem le_roundUp (hd : 0 < d) (n : Nat) : n ≤ roundUp d n := by
  rw [roundUp,Nat.mul_comm]
  exact (ceilDiv_le_iff hd).mp (Nat.le_refl _)

theorem roundUp_lt (hd : 0 < d) (n : Nat) : roundUp d n < n + d := by
  rw [roundUp,Nat.ceilDiv_eq_add_pred_div]
  have := Nat.div_mul_le_self (n + d - 1) d
  omega

/-- No multiple lies between a number and what it is rounded up to. -/
theorem roundUp_le (hd : 0 < d) {m : Nat} (hm : d ∣ m) (h : n ≤ m) : roundUp d n ≤ m := by
  obtain ⟨q,rfl⟩ := hm
  rw [roundUp,Nat.mul_comm]
  exact Nat.mul_le_mul_left d ((ceilDiv_le_iff hd).mpr h)

/-- Multiples are not rounded. -/
theorem roundUp_add (hd : 0 < d) (k n : Nat) : roundUp d (k * d + n) = k * d + roundUp d n := by
  rw [roundUp,roundUp,← Nat.add_mul]
  congr 1
  refine eq_of_forall_ge_iff (fun q => ?_)
  rw [ceilDiv_le_iff hd,Nat.mul_comm d q]
  rcases Nat.lt_or_ge q k with h | h
  · have := Nat.mul_lt_mul_of_pos_right h hd
    omega
  · obtain ⟨r,rfl⟩ := Nat.exists_eq_add_of_le h
    rw [Nat.add_le_add_iff_left,ceilDiv_le_iff hd,Nat.mul_comm d r,Nat.add_mul]
    omega

end FlashMob.Lib.Rounding
