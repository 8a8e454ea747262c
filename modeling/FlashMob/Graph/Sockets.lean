import FlashMob.Lib.Update
import FlashMob.Types

namespace FlashMob.Graph

/-- `partition_socket[p_i]`: partitions are dealt to the sockets to and fro. -/
def partitionSocket (socketNum p : Nat) : Nat :=
  if p % (socketNum * 2) < socketNum then p % socketNum
  else socketNum - p % socketNum - 1

/-- The first pass counts the partitions of each socket. -/
def socketPartitionNums (socketNum partitionNum : Nat) : Nat → Nat :=
  (List.range partitionNum).foldl (fun nums p =>
    let s := partitionSocket socketNum p
    Function.update nums s (nums s + 1)) (fun _ => 0)

/-- The second pass stores each partition behind those its socket already has. -/
def socketPartitions (socketNum partitionNum : Nat) : Nat → List Nat :=
  (List.range partitionNum).foldl (fun parts p =>
    let s := partitionSocket socketNum p
    Function.update parts s (parts s ++ [p])) (fun _ => [])

theorem partitionSocket_lt {socketNum : Nat} (h : 0 < socketNum) (p : Nat) :
    partitionSocket socketNum p < socketNum := by
  unfold partitionSocket
  split_ifs with hp
  · exact Nat.mod_lt _ h
  · omega

theorem socketPartitions_eq (socketNum partitionNum s : Nat) :
    socketPartitions socketNum partitionNum s =
      (List.range partitionNum).filter (fun p => partitionSocket socketNum p = s) := by
  unfold socketPartitions
  induction partitionNum with
  | zero => rfl
  | succ n ih =>
    rw [List.range_succ,List.foldl_append,List.filter_append]
    simp only [List.foldl_cons,List.foldl_nil,List.filter_cons,List.filter_nil]
    by_cases he : partitionSocket socketNum n = s
    · subst he; simp [ih]
    · simp [Function.update_of_ne (Ne.symm he),he,ih]

/-- Both passes agree on how many partitions a socket has. -/
theorem socketPartitionNums_eq (socketNum partitionNum s : Nat) :
    socketPartitionNums socketNum partitionNum s =
      (socketPartitions socketNum partitionNum s).length := by
  unfold socketPartitionNums socketPartitions
  induction partitionNum with
  | zero => rfl
  | succ n ih =>
    rw [List.range_succ,List.foldl_append,List.foldl_append]
    simp only [List.foldl_cons,List.foldl_nil]
    by_cases he : s = partitionSocket socketNum n
    · subst he; simp [ih]
    · simp [Function.update_of_ne he,ih]

theorem socketPartitions_nodup (socketNum partitionNum s : Nat) :
    (socketPartitions socketNum partitionNum s).Nodup := by
  rw [socketPartitions_eq]
  exact List.nodup_range.filter _

theorem mem_socketPartitions {socketNum partitionNum s p : Nat} :
    p ∈ socketPartitions socketNum partitionNum s ↔
      p < partitionNum ∧ partitionSocket socketNum p = s := by
  rw [socketPartitions_eq]
  simp

theorem socketPartitions_sorted (socketNum partitionNum s : Nat) :
    (socketPartitions socketNum partitionNum s).Pairwise (· < ·) := by
  rw [socketPartitions_eq]
  exact List.pairwise_lt_range.filter _

theorem socketPartitionNums_succ (socketNum n s : Nat) :
    socketPartitionNums socketNum (n + 1) s =
      socketPartitionNums socketNum n s + if partitionSocket socketNum n = s then 1 else 0 := by
  rw [socketPartitionNums,List.range_succ,List.foldl_append,List.foldl_cons,List.foldl_nil,
    ← socketPartitionNums]
  by_cases he : partitionSocket socketNum n = s
  · subst he
    rw [Function.update_self,if_pos rfl]
  · rw [Function.update_of_ne (Ne.symm he),if_neg he,Nat.add_zero]

/-- The direction changes with every block of `socketNum` partitions. -/
theorem partitionSocket_block {socketNum i : Nat} (hi : i < socketNum) (k : Nat) :
    partitionSocket socketNum (socketNum * k + i) =
      if k % 2 = 0 then i else socketNum - i - 1 := by
  have hmod : (socketNum * k + i) % socketNum = i := by
    rw [Nat.mul_add_mod,Nat.mod_eq_of_lt hi]
  have hdouble : (socketNum * k + i) % (socketNum * 2) = socketNum * (k % 2) + i := by
    rw [Nat.mod_mul,hmod,Nat.mul_add_div (Nat.zero_lt_of_lt hi),Nat.div_eq_of_lt hi,Nat.add_zero,
      Nat.add_comm]
  rw [partitionSocket,hdouble,hmod]
  rcases Nat.mod_two_eq_zero_or_one k with h | h
  · rw [h,Nat.mul_zero,Nat.zero_add,if_pos hi,if_pos rfl]
  · rw [h,Nat.mul_one,if_neg (by omega),if_neg (by decide)]

/-- In a block whose first `i` partitions have been dealt, a socket has one partition of each
block before it and perhaps one of the block. -/
theorem socketPartitionNums_block {socketNum s : Nat} (hs : s < socketNum) {k i : Nat}
    (hi : i ≤ socketNum) : socketPartitionNums socketNum (socketNum * k + i) s =
      k + if (if k % 2 = 0 then s < i else socketNum ≤ s + i) then 1 else 0 := by
  induction k generalizing i with
  | zero =>
    induction i with
    | zero => rfl
    | succ i ih =>
      rw [← Nat.add_assoc,socketPartitionNums_succ,ih (by omega),partitionSocket_block (by omega)]
      split_ifs <;> omega
  | succ k ihk =>
    induction i with
    | zero =>
      -- A block that is full has given one partition to every socket.
      rw [Nat.mul_succ,Nat.add_zero,ihk (Nat.le_refl _)]
      split_ifs <;> omega
    | succ i ih =>
      rw [← Nat.add_assoc,socketPartitionNums_succ,ih (by omega),partitionSocket_block (by omega)]
      split_ifs <;> omega

/-- The number of partitions of a socket, by the blocks that have been dealt. -/
theorem socketPartitionNums_div {socketNum s : Nat} (hs : s < socketNum) (n : Nat) :
    n / socketNum ≤ socketPartitionNums socketNum n s ∧
      socketPartitionNums socketNum n s ≤ n / socketNum + 1 := by
  have hpos := Nat.zero_lt_of_lt hs
  have h := socketPartitionNums_block hs (k := n / socketNum) (Nat.le_of_lt (Nat.mod_lt n hpos))
  rw [Nat.div_add_mod] at h
  rw [h]
  split_ifs <;> omega

theorem sum_socketPartitionNums {socketNum : Nat} (h : 0 < socketNum) (n : Nat) :
    ∑ s ∈ Finset.range socketNum, socketPartitionNums socketNum n s = n := by
  induction n with
  | zero => exact Finset.sum_const_zero
  | succ n ih =>
    have hs := Finset.mem_range.mpr (partitionSocket_lt h n)
    simp only [socketPartitionNums_succ,Finset.sum_add_distrib,ih,Finset.sum_ite_eq,hs,if_true]

/-- The dealing of partitions to sockets. -/
structure DealtEvenly (socketNum partitionNum : Nat) : Prop where
  /-- A partition stands once in the list of its socket and in no other. -/
  once : ∀ p < partitionNum, partitionSocket socketNum p < socketNum ∧ ∀ s < socketNum,
    (socketPartitions socketNum partitionNum s).count p =
      if partitionSocket socketNum p = s then 1 else 0
  only : ∀ s < socketNum, ∀ p ∈ socketPartitions socketNum partitionNum s, p < partitionNum
  increasing : ∀ s < socketNum, (socketPartitions socketNum partitionNum s).Pairwise (· < ·)
  lengths : ∀ s < socketNum, (socketPartitions socketNum partitionNum s).length =
    socketPartitionNums socketNum partitionNum s
  total : ∑ s ∈ Finset.range socketNum, socketPartitionNums socketNum partitionNum s = partitionNum
  balanced : ∀ s < socketNum, ∀ s' < socketNum, socketPartitionNums socketNum partitionNum s ≤
    socketPartitionNums socketNum partitionNum s' + 1
  /-- The first blocks of partitions have given the same number to every socket. -/
  blocks : ∀ k, k * socketNum ≤ partitionNum → ∀ s < socketNum,
    ((socketPartitions socketNum partitionNum s).filter (fun p => p < k * socketNum)).length = k

theorem partitions_dealt_evenly (socketNum partitionNum : Nat) (h : 0 < socketNum) :
    DealtEvenly socketNum partitionNum := by
  refine ⟨?_,?_,?_,?_,sum_socketPartitionNums h partitionNum,?_,?_⟩
  · intro p hp
    refine ⟨partitionSocket_lt h p,fun s _ => ?_⟩
    rw [List.Nodup.count (socketPartitions_nodup _ _ _)]
    simp only [mem_socketPartitions,hp,true_and]
  · exact fun s _ p hp => (mem_socketPartitions.mp hp).1
  · exact fun s _ => socketPartitions_sorted _ _ s
  · exact fun s _ => (socketPartitionNums_eq _ _ s).symm
  · intro s hs s' hs'
    have hmost := (socketPartitionNums_div hs partitionNum).2
    have hleast := (socketPartitionNums_div hs' partitionNum).1
    omega
  · intro k hk s hs
    -- The list holds the partitions that the dealing of the blocks alone gives.
    have hfirst : ((socketPartitions socketNum partitionNum s).filter
        (fun p => p < k * socketNum)).Perm (socketPartitions socketNum (k * socketNum) s) := by
      refine (List.perm_ext_iff_of_nodup ((socketPartitions_nodup _ _ s).filter _)
        (socketPartitions_nodup _ _ s)).mpr (fun p => ?_)
      simp only [List.mem_filter,mem_socketPartitions,decide_eq_true_eq]
      constructor
      · rintro ⟨⟨_,hs⟩,hlt⟩
        exact ⟨hlt,hs⟩
      · rintro ⟨hlt,hs⟩
        exact ⟨⟨Nat.lt_of_lt_of_le hlt hk,hs⟩,hlt⟩
    have hblock := socketPartitionNums_block hs (k := k) (Nat.zero_le socketNum)
    rw [hfirst.length_eq,← socketPartitionNums_eq,Nat.mul_comm,← Nat.add_zero (socketNum * k),
      hblock]
    split_ifs <;> omega

/-- Seven partitions on three sockets. -/
theorem partitions_dealt_evenly_three : DealtEvenly 3 7 :=
  partitions_dealt_evenly 3 7 (by decide)

end FlashMob.Graph
