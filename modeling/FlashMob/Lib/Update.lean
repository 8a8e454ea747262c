import Mathlib

namespace FlashMob.Lib.Update

variable {ι α : Type*} [DecidableEq ι]

/-- Replacing one entry changes a sum over the entries by the difference of its terms. -/
theorem sum_update (f : ι → α → Nat) (g : ι → α) (x : α) {s : Finset ι} {i : ι} (hi : i ∈ s) :
    ∑ j ∈ s, f j (Function.update g i x j) + f i (g i) = ∑ j ∈ s, f j (g j) + f i x := by
  have hrest : ∑ j ∈ s.erase i, f j (Function.update g i x j) = ∑ j ∈ s.erase i, f j (g j) :=
    Finset.sum_congr rfl (fun j hj => by rw [Function.update_of_ne (Finset.ne_of_mem_erase hj)])
  rw [← Finset.add_sum_erase s _ hi,← Finset.add_sum_erase s (fun j => f j (g j)) hi,hrest,
    Function.update_self]
  omega

theorem sum_range_getD (l : List α) (d : α) (f : α → Nat) :
    ∑ i ∈ Finset.range l.length, f (l.getD i d) = (l.map f).sum := by
  induction l with
  | nil => simp
  | cons x l ih =>
    rw [List.length_cons,Finset.sum_range_succ',List.map_cons,List.sum_cons]
    simp only [List.getD_cons_succ,List.getD_cons_zero,ih]
    omega

end FlashMob.Lib.Update
