import Mathlib

namespace FlashMob.Lib.Search

variable {α : Type*} [LinearOrder α]

/-- The first position of `[first, first + len)` whose value is not below `x`. -/
def lowerBound (f : Nat → α) (x : α) : Nat → Nat → Nat → Nat
  | 0, first, _ => first
  | fuel+1, first, len =>
    if len = 0 then first
    else
      let half := len / 2
      if f (first + half) < x then lowerBound f x fuel (first + half + 1) (len - half - 1)
      else lowerBound f x fuel first half

def binarySearch (f : Nat → α) (n : Nat) (x : α) : Bool :=
  let i := lowerBound f x n 0 n
  decide (i < n) && !decide (x < f i)

variable {f : Nat → α} {x : α}

/-- The search ends between the values below `x` and the others. -/
theorem lowerBound_spec {n : Nat} (hf : ∀ i j, i ≤ j → j < n → f i ≤ f j) (fuel first len : Nat)
    (hfuel : len ≤ fuel) (hin : first + len ≤ n) (hlow : ∀ i < first, f i < x)
    (hhigh : ∀ i < n, first + len ≤ i → x ≤ f i) :
    lowerBound f x fuel first len ≤ n ∧ (∀ i < lowerBound f x fuel first len, f i < x) ∧
      ∀ i < n, lowerBound f x fuel first len ≤ i → x ≤ f i := by
  induction fuel generalizing first len with
  | zero =>
    rw [Nat.le_zero.mp hfuel,Nat.add_zero] at hin hhigh
    exact ⟨hin,hlow,hhigh⟩
  | succ fuel ih =>
    rw [lowerBound]
    by_cases hz : len = 0
    · rw [hz,Nat.add_zero] at hin hhigh
      rw [if_pos hz]
      exact ⟨hin,hlow,hhigh⟩
    · rw [if_neg hz]
      simp only
      by_cases hx : f (first + len / 2) < x
      · rw [if_pos hx]
        refine ih _ _ (by omega) (by omega) ?_ ?_
        · intro i hi
          exact lt_of_le_of_lt (hf i _ (by omega) (by omega)) hx
        · intro i hi hle
          exact hhigh i hi (by omega)
      · rw [if_neg hx]
        refine ih _ _ (by omega) (by omega) hlow ?_
        intro i hi hle
        exact le_trans (not_lt.mp hx) (hf _ i hle hi)

theorem binarySearch_iff {n : Nat} (hf : ∀ i j, i ≤ j → j < n → f i ≤ f j) :
    binarySearch f n x = true ↔ ∃ i < n, f i = x := by
  obtain ⟨_,hlow,hhigh⟩ := lowerBound_spec (x := x) hf n 0 n (Nat.le_refl n) (by omega)
    (fun i hi => absurd hi (Nat.not_lt_zero i)) (fun i hi hle => by omega)
  rw [binarySearch]
  simp only [Bool.and_eq_true,decide_eq_true_eq,Bool.not_eq_true',decide_eq_false_iff_not,not_lt]
  constructor
  · rintro ⟨hi,hle⟩
    exact ⟨_,hi,le_antisymm hle (hhigh _ hi (Nat.le_refl _))⟩
  · rintro ⟨i,hi,rfl⟩
    have hge : lowerBound f (f i) n 0 n ≤ i := by
      apply Nat.le_of_not_lt
      intro hlt
      exact lt_irrefl _ (hlow i hlt)
    exact ⟨Nat.lt_of_le_of_lt hge hi,hf _ i hge hi⟩

end FlashMob.Lib.Search
