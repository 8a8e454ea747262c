import FlashMob.Lib.Cursor
import FlashMob.Lib.Writes

namespace FlashMob.Lib.Buckets
open Lib.Cursor Lib.Writes

variable {κ ζ α : Type*} [DecidableEq κ]

/-- Stores through cursors: each operation stores its value where the cursor of its key
stands. A key's bucket lies in a zone and begins at the key's first cursor. -/
def claims (zone : κ → ζ) (c : κ → Nat) (ops : List (κ × α)) : List ((ζ × Nat) × α) :=
  (ops.zip (slots c (ops.map Prod.fst))).map (fun q => ((zone q.1.1,q.2),q.1.2))

variable {zone : κ → ζ} {c : κ → Nat} {ops : List (κ × α)}

theorem claims_cons (op : κ × α) (ops : List (κ × α)) :
    claims zone c (op :: ops) =
      ((zone op.1,c op.1),op.2) :: claims zone (Function.update c op.1 (c op.1 + 1)) ops := rfl

theorem claims_concat (op : κ × α) (ops : List (κ × α)) :
    claims zone c (ops ++ [op]) =
      claims zone c ops ++ [((zone op.1,c op.1 + (ops.map Prod.fst).count op.1),op.2)] := by
  rw [claims,List.map_append,List.map_singleton,slots_concat,List.zip_append (by simp)]
  simp [claims,advance]

theorem separated_left {ks ks' : List κ} (h : Separated zone c (ks ++ ks')) :
    Separated zone c ks := by
  intro k hk k' hk' hne hz
  have := h k (List.mem_append_left _ hk) k' (List.mem_append_left _ hk') hne hz
  simp only [List.count_append] at this
  omega

/-- A position of one bucket is not the next position of another. -/
theorem bucket_ne_next {ks : List κ} {k k' : κ} {i : Nat}
    (h : Separated zone c (ks ++ [k'])) (hne : k ≠ k') (hi : i < ks.count k) :
    (zone k,c k + i) ≠ (zone k',c k' + ks.count k') := by
  intro he
  obtain ⟨hz,hp⟩ := Prod.mk.inj he
  have hk : k ∈ ks := List.count_pos_iff.mp (by omega)
  have := h k (List.mem_append_left _ hk) k' (by simp) hne hz
  rw [List.count_append,List.count_append,List.count_singleton_self,List.count_singleton,
    if_neg (by simpa using Ne.symm hne)] at this
  omega

theorem mem_claims {a : ζ × Nat} :
    a ∈ (claims zone c ops).map Prod.fst ↔
      ∃ k, ∃ i < (ops.map Prod.fst).count k, a = (zone k,c k + i) := by
  induction ops using List.reverseRecOn with
  | nil => simp [claims]
  | append_singleton ops op ih =>
    rw [claims_concat,List.map_append,List.mem_append,ih]
    simp only [List.map_append,List.map_cons,List.map_nil,List.mem_singleton,List.count_append]
    constructor
    · rintro (⟨k,i,hi,rfl⟩ | rfl)
      · exact ⟨k,i,by omega,rfl⟩
      · exact ⟨op.1,_,by rw [List.count_singleton_self]; omega,rfl⟩
    · rintro ⟨k,i,hi,rfl⟩
      by_cases hk : k = op.1
      · subst hk
        rw [List.count_singleton_self] at hi
        rcases Nat.lt_or_eq_of_le (Nat.le_of_lt_succ hi) with h | rfl
        · exact Or.inl ⟨_,i,h,rfl⟩
        · exact Or.inr rfl
      · rw [List.count_singleton,if_neg (by simpa using Ne.symm hk)] at hi
        exact Or.inl ⟨k,i,hi,rfl⟩

/-- Separate buckets are never stored to twice at one position. -/
theorem claims_nodup (h : Separated zone c (ops.map Prod.fst)) :
    ((claims zone c ops).map Prod.fst).Nodup := by
  induction ops using List.reverseRecOn with
  | nil => simp [claims]
  | append_singleton ops op ih =>
    rw [List.map_append,List.map_singleton] at h
    rw [claims_concat,List.map_append,List.nodup_append]
    refine ⟨ih (separated_left h),List.nodup_singleton _,?_⟩
    intro a ha b hb
    rw [List.map_singleton,List.mem_singleton] at hb
    subst hb
    obtain ⟨k,i,hi,rfl⟩ := mem_claims.mp ha
    by_cases hk : k = op.1
    · subst hk
      intro he
      have := (Prod.mk.inj he).2
      omega
    · exact bucket_ne_next h hk hi

/-- In the end a bucket holds the values of its key, in the order of the operations. -/
theorem bucket_eq [DecidableEq ζ] (h : Separated zone c (ops.map Prod.fst)) (f : ζ × Nat → α)
    (k : κ) :
    (List.range ((ops.map Prod.fst).count k)).map
        (fun i => writes f (claims zone c ops) (zone k,c k + i)) =
      (ops.filter (fun op => op.1 = k)).map Prod.snd := by
  induction ops using List.reverseRecOn with
  | nil => rfl
  | append_singleton ops op ih =>
    rw [List.map_append,List.map_singleton] at h
    rw [claims_concat,writes_append,writes_cons,writes_nil,List.map_append,List.map_singleton,
      List.count_append,List.filter_append,List.map_append,← ih (separated_left h)]
    by_cases hk : k = op.1
    · subst hk
      rw [List.count_singleton_self,List.range_succ,List.map_append]
      congr 1
      · apply List.map_congr_left
        intro i hi
        have := List.mem_range.mp hi
        refine Function.update_of_ne (fun he => ?_) _ _
        have := (Prod.mk.inj he).2
        omega
      · simp
    · rw [List.count_singleton,if_neg (by simpa using Ne.symm hk),Nat.add_zero]
      have hlast : ([op].filter (fun op => op.1 = k)).map Prod.snd = [] := by
        simp [Ne.symm hk]
      rw [hlast,List.append_nil]
      apply List.map_congr_left
      intro i hi
      exact Function.update_of_ne (bucket_ne_next h hk (List.mem_range.mp hi)) _ _

/-- In a counting sort the buckets lie one behind the other. -/
theorem range_claims_starts (ops : List (Nat × α)) (f : Unit × Nat → α) (n : Nat) :
    (List.range (starts (ops.map Prod.fst) n)).map
        (fun i => writes f (claims (fun _ => ()) (starts (ops.map Prod.fst)) ops) ((),i)) =
      (List.range n).flatMap (fun k => (ops.filter (fun op => op.1 = k)).map Prod.snd) := by
  induction n with
  | zero => rw [starts_zero]; rfl
  | succ n ih =>
    rw [starts_succ,List.range_add,List.map_append,ih,List.map_map,List.range_succ,
      List.flatMap_append,List.flatMap_singleton,← bucket_eq (separated_starts _) f n]
    rfl

section
variable (key : α → Nat) (l : List α)

theorem filters_perm {n : Nat} (h : ∀ x ∈ l, key x < n) :
    ((List.range n).flatMap (fun k => l.filter (fun x => key x = k))).Perm l := by
  have hbelow : ∀ m, ((List.range m).flatMap (fun k => l.filter (fun x => key x = k))).Perm
      (l.filter (fun x => key x < m)) := by
    intro m
    induction m with
    | zero => simp
    | succ m ih =>
      rw [List.range_succ,List.flatMap_append,List.flatMap_singleton]
      have hsplit := List.filter_append_perm (fun x => decide (key x < m))
        (l.filter (fun x => key x < m + 1))
      rw [List.filter_filter,List.filter_filter] at hsplit
      have hlow : l.filter (fun x => decide (key x < m) && decide (key x < m + 1)) =
          l.filter (fun x => key x < m) := by
        apply List.filter_congr
        intro x _
        rw [Bool.eq_iff_iff]
        simp only [Bool.and_eq_true,decide_eq_true_eq]
        omega
      have hlast : l.filter (fun x => !decide (key x < m) && decide (key x < m + 1)) =
          l.filter (fun x => key x = m) := by
        apply List.filter_congr
        intro x _
        rw [Bool.eq_iff_iff]
        simp only [Bool.and_eq_true,Bool.not_eq_true',decide_eq_false_iff_not,decide_eq_true_eq]
        omega
      rw [hlow,hlast] at hsplit
      exact (ih.append_right _).trans hsplit
  refine (hbelow n).trans (List.Perm.of_eq ?_)
  rw [List.filter_eq_self]
  intro x hx
  simpa using h x hx

/-- One behind the other, the buckets are ordered by their keys. -/
theorem filters_pairwise (n : Nat) :
    ((List.range n).flatMap (fun k => l.filter (fun x => key x = k))).Pairwise
      (fun x y => key x ≤ key y) := by
  refine List.pairwise_flatMap.mpr ⟨fun k _ => ?_,?_⟩
  · refine List.pairwise_of_forall_mem_list (fun x hx y hy => ?_)
    simp only [List.mem_filter,decide_eq_true_eq] at hx hy
    omega
  · refine List.pairwise_lt_range.imp (fun {k k'} hlt x hx y hy => ?_)
    simp only [List.mem_filter,decide_eq_true_eq] at hx hy
    omega

theorem filter_filters (k n : Nat) :
    ((List.range n).flatMap (fun k => l.filter (fun x => key x = k))).filter (fun x => key x = k) =
      if k < n then l.filter (fun x => key x = k) else [] := by
  induction n with
  | zero => rfl
  | succ n ih =>
    rw [List.range_succ,List.flatMap_append,List.flatMap_singleton,List.filter_append,ih,
      List.filter_filter]
    have hnone : k ≠ n → l.filter (fun x => decide (key x = k) && decide (key x = n)) = [] := by
      intro hne
      rw [List.filter_eq_nil_iff]
      intro x _
      simp only [Bool.and_eq_true,decide_eq_true_eq]
      omega
    rcases Nat.lt_trichotomy k n with h | rfl | h
    · rw [if_pos h,if_pos (by omega),hnone (Nat.ne_of_lt h),List.append_nil]
    · rw [if_neg (by omega),if_pos (by omega),List.nil_append]
      simp only [Bool.and_self]
    · rw [if_neg (by omega),if_neg (by omega),List.nil_append,hnone (Nat.ne_of_gt h)]

end

end FlashMob.Lib.Buckets
