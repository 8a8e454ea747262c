import Mathlib.Data.BitVec

namespace FlashMob.Lib.Xorshift

variable {w k : Nat}

/-- A map of words that is linear over the bits. -/
def XorLinear (f : BitVec w → BitVec w) : Prop := ∀ x y, f (x ^^^ y) = f x ^^^ f y

namespace XorLinear
variable {f g : BitVec w → BitVec w}

/-- Two words with one image differ by a word that is sent to zero. -/
theorem injective (hf : XorLinear f) (hker : ∀ x, f x = 0 → x = 0) : Function.Injective f := by
  intro x y h
  have hdiff : f (x ^^^ y) = 0 := (hf x y).trans (by rw [h]; exact BitVec.xor_self)
  exact BitVec.xor_eq_zero_iff.mp (hker _ hdiff)

end XorLinear

/-- The steps `x ^= x >> k` and `x ^= x << k`. -/
def xorRight (k : Nat) (x : BitVec w) : BitVec w := x ^^^ (x >>> k)
def xorLeft (k : Nat) (x : BitVec w) : BitVec w := x ^^^ (x <<< k)

theorem xorRight_linear (k : Nat) : XorLinear (xorRight (w := w) k) := by
  intro x y
  rw [xorRight,BitVec.ushiftRight_xor_distrib]
  simp only [xorRight]
  ac_rfl

theorem xorLeft_linear (k : Nat) : XorLinear (xorLeft (w := w) k) := by
  intro x y
  rw [xorLeft,BitVec.shiftLeft_xor_distrib]
  simp only [xorLeft]
  ac_rfl

/-- Only zero is its own half. -/
theorem eq_zero_of_ushiftRight (hk : 0 < k) {x : BitVec w} (h : x = x >>> k) : x = 0 := by
  have hnat := congrArg BitVec.toNat h
  rw [BitVec.toNat_ushiftRight,Nat.shiftRight_eq_div_pow] at hnat
  apply BitVec.eq_of_toNat_eq
  rcases Nat.eq_zero_or_pos x.toNat with h0 | hpos
  · simpa using h0
  · have := Nat.div_lt_self hpos (Nat.one_lt_two_pow (Nat.ne_of_gt hk))
    omega

/-- A word that a shift leaves alone is left alone by shifts of any multiple, and so empty. -/
theorem eq_zero_of_shiftLeft (hk : 0 < k) {x : BitVec w} (h : x = x <<< k) : x = 0 := by
  have hmul : ∀ n, x = x <<< (n * k) := by
    intro n
    induction n with
    | zero => simp
    | succ n ih => rw [Nat.add_mul,Nat.one_mul,BitVec.shiftLeft_add,← ih]; exact h
  rw [hmul w]
  exact BitVec.shiftLeft_eq_zero (Nat.le_mul_of_pos_right w hk)

theorem xorRight_injective (hk : 0 < k) : Function.Injective (xorRight (w := w) k) :=
  (xorRight_linear k).injective (fun _ h => eq_zero_of_ushiftRight hk (BitVec.xor_eq_zero_iff.mp h))

theorem xorLeft_injective (hk : 0 < k) : Function.Injective (xorLeft (w := w) k) :=
  (xorLeft_linear k).injective (fun _ h => eq_zero_of_shiftLeft hk (BitVec.xor_eq_zero_iff.mp h))

end FlashMob.Lib.Xorshift
