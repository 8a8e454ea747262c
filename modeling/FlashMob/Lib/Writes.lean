import Mathlib

namespace FlashMob.Lib.Writes

variable {κ α ξ : Type*} [DecidableEq κ]

/-- Stores to an array, one after the other. -/
def writes (f : κ → α) (ops : List (κ × α)) : κ → α :=
  ops.foldl (fun f op => Function.update f op.1 op.2) f

@[simp] theorem writes_nil (f : κ → α) : writes f [] = f := rfl

@[simp] theorem writes_cons (f : κ → α) (op : κ × α) (ops : List (κ × α)) :
    writes f (op :: ops) = writes (Function.update f op.1 op.2) ops := rfl

theorem writes_append (f : κ → α) (ops ops' : List (κ × α)) :
    writes f (ops ++ ops') = writes (writes f ops) ops' := List.foldl_append

theorem writes_of_notMem (f : κ → α) {ops : List (κ × α)} {k : κ}
    (hk : k ∉ ops.map Prod.fst) : writes f ops k = f k := by
  induction ops generalizing f with
  | nil => rfl
  | cons op ops ih =>
    simp only [List.map_cons,List.mem_cons,not_or] at hk
    rw [writes_cons,ih _ hk.2,Function.update_of_ne hk.1]

/-- Stores to distinct addresses are all found afterwards. -/
theorem writes_of_mem (f : κ → α) {ops : List (κ × α)} (hn : (ops.map Prod.fst).Nodup)
    {k : κ} {x : α} (hk : (k,x) ∈ ops) : writes f ops k = x := by
  induction ops generalizing f with
  | nil => simp at hk
  | cons op ops ih =>
    obtain ⟨hnot,hn⟩ := List.nodup_cons.mp hn
    rcases List.mem_cons.mp hk with rfl | hk
    · rw [writes_cons,writes_of_notMem _ hnot,Function.update_self]
    · exact ih _ hn hk

/-- Stores through a map of addresses that keeps an address apart from the others. -/
theorem writes_map {κ' : Type*} [DecidableEq κ'] (f : κ' → α) (g : κ → κ') {ops : List (κ × α)}
    {k : κ} (hg : ∀ op ∈ ops, g op.1 = g k → op.1 = k) :
    writes f (ops.map (fun op => (g op.1,op.2))) (g k) = writes (f ∘ g) ops k := by
  induction ops using List.reverseRecOn with
  | nil => rfl
  | append_singleton ops op ih =>
    rw [List.map_append,writes_append,writes_append]
    simp only [List.map_cons,List.map_nil,writes_cons,writes_nil]
    by_cases h : op.1 = k
    · subst h
      rw [Function.update_self,Function.update_self]
    · have hne : g k ≠ g op.1 := fun he => h (hg op (by simp) he.symm)
      rw [Function.update_of_ne hne,Function.update_of_ne (Ne.symm h)]
      exact ih (fun op' hop' => hg op' (List.mem_append_left _ hop'))

theorem foldl_update (a : ξ → κ) (v : ξ → α) (xs : List ξ) (f : κ → α) :
    xs.foldl (fun f x => Function.update f (a x) (v x)) f =
      writes f (xs.map (fun x => (a x,v x))) := by
  rw [writes,List.foldl_map]

/-- Two loops over the same items in one. -/
theorem foldl_pair {β γ : Type*} (f : β → ξ → β) (g : γ → ξ → γ) (xs : List ξ) (b : β) (c : γ) :
    xs.foldl (fun (st : β × γ) x => (f st.1 x,g st.2 x)) (b,c) = (xs.foldl f b,xs.foldl g c) := by
  induction xs generalizing b c with
  | nil => rfl
  | cons x xs ih => exact ih _ _

theorem foldl_update_range' (v : Nat → α) (b n : Nat) (f : Nat → α) (i : Nat) :
    (List.range' b n).foldl (fun f i => Function.update f i (v i)) f i =
      if b ≤ i ∧ i < b + n then v i else f i := by
  rw [foldl_update (fun i => i)]
  have hkeys : ((List.range' b n).map (fun i => (i,v i))).map Prod.fst = List.range' b n := by
    simp [Function.comp_def]
  split_ifs with hi
  · refine writes_of_mem f (by rw [hkeys]; exact List.nodup_range') ?_
    exact List.mem_map.mpr ⟨i,List.mem_range'_1.mpr hi,rfl⟩
  · apply writes_of_notMem
    rw [hkeys,List.mem_range'_1]
    exact hi

/-- A loop over indices in which each iteration looks at its own entry only. -/
theorem foldl_modify_range' (h : Nat → α → α) (b n : Nat) (f : Nat → α) (i : Nat) :
    (List.range' b n).foldl (fun f i => Function.update f i (h i (f i))) f i =
      if b ≤ i ∧ i < b + n then h i (f i) else f i := by
  induction n with
  | zero => simp only [List.range'_zero,List.foldl_nil]; rw [if_neg (by omega)]
  | succ n ih =>
    rw [List.range'_1_concat,List.foldl_append]
    simp only [List.foldl_cons,List.foldl_nil]
    by_cases hi : i = b + n
    · subst hi
      rw [Function.update_self,if_pos (by omega)]
      rw [ih,if_neg (by omega)]
    · rw [Function.update_of_ne hi,ih]
      by_cases hin : b ≤ i ∧ i < b + n
      · rw [if_pos hin,if_pos (by omega)]
      · rw [if_neg hin,if_neg (by omega)]

end FlashMob.Lib.Writes
