import FlashMob.Benchmark.Plans
import FlashMob.Solver.Paths

namespace FlashMob.Program
open Floating FlashMob.Benchmark FlashMob.Graph FlashMob.Partition FlashMob.Solver Lib.Rounding

section
variable {cfg : MultiThreadConfig} (hc : cfg.Valid)
include hc

theorem socketNum_le : cfg.socketNum ≤ cfg.threadNum := Nat.le_of_dvd hc.threads hc.divides

/-- The cursors of the walker ranges stay below 2^32 when each thread has room for a chunk of its
own behind the walkers. -/
theorem roomy_of_small {n : Nat}
    (h : n + WalkerManager.chunkSize * (cfg.threadNum + 1) < 2 ^ 32) :
    WalkerManager.Roomy cfg n n := by
  intro r hr
  obtain ⟨hs,hi⟩ := Finset.mem_product.mp hr
  rw [Finset.mem_range] at hs hi
  have hrow : r.1 < (WalkerManager.threadWalkers cfg n).length := by
    rw [WalkerManager.length_threadWalkers]
    exact hs
  have hmem : WalkerManager.threadWalker cfg n r ∈ (WalkerManager.threadWalkers cfg n).flatten := by
    have hlen := WalkerManager.length_threadWalkers_row cfg n _ (List.getElem_mem hrow)
    rw [WalkerManager.threadWalker,List.getD_eq_getElem _ _ hrow,
      List.getD_eq_getElem _ _ (Nat.lt_of_lt_of_eq hi hlen.symm)]
    exact List.mem_flatten_of_mem (List.getElem_mem hrow) (List.getElem_mem _)
  obtain ⟨_,hle,hend⟩ := (WalkerManager.threadWalkers_tiles hc n).mem_bounds hmem
  have hactive : WalkerManager.activeEnd cfg n n r = WalkerManager.threadWalkerEnd cfg n r :=
    Nat.min_eq_left hend
  have hchunks := roundUp_lt (d := WalkerManager.chunkSize) (by decide)
    (WalkerManager.threadWalkerEnd cfg n r - WalkerManager.threadWalkerBegin cfg n r)
  rw [WalkerManager.chunkNum,hactive,Nat.mul_add,
    Nat.mul_comm _ ((WalkerManager.threadWalkerEnd cfg n r -
      WalkerManager.threadWalkerBegin cfg n r) ⌈/⌉ WalkerManager.chunkSize)]
  simp only [roundUp,WalkerManager.threadWalkerBegin,WalkerManager.threadWalkerEnd] at hchunks ⊢
  rw [Nat.mul_add] at h
  omega

end

theorem searchCapacity_le (itemNum fuel capacity : Nat) :
    BloomFilter.searchCapacity itemNum fuel capacity ≤ max capacity itemNum := by
  induction fuel generalizing capacity with
  | zero => exact Nat.le_max_left _ _
  | succ fuel ih =>
    rw [BloomFilter.searchCapacity]
    split_ifs with h
    · have hle := ih (capacity * 2)
      omega
    · exact Nat.le_max_left _ _

theorem calHashTableSize_le (itemNum : Nat) :
    BloomFilter.calHashTableSize itemNum ≤ 8 * max 4 itemNum :=
  Nat.mul_le_mul_left _ (searchCapacity_le itemNum 62 4)

section
variable {a : EstimateArgs}

/-- In a graph of 32-bit size nothing of the estimate wraps. -/
theorem noWrap_of_small (hv : a.vertexNum < 2 ^ 29) (he : a.edgeNum < 2 ^ 32)
    (hb : a.bufferEdgeNum < 2 ^ 32) (hs : a.socketNum < 2 ^ 8) (ho : a.otherSize < 2 ^ 36)
    (hw : a.walkerNum < 2 ^ 63) : a.NoWrap := by
  have htables : a.vertexNum * a.socketNum < 2 ^ 29 * 2 ^ 8 := Nat.mul_lt_mul'' hv hs
  have hlist : sizeofAdjList = 12 := rfl
  have hunit : sizeofAdjUnit = 4 := rfl
  have hid : sizeofVertexId = 4 := rfl
  have hfitting := EstimateArgs.fitting_le (a := a)
  refine ⟨?_,by omega,?_⟩
  · rw [EstimateArgs.memory,hlist,hunit,hid,Nat.mul_assoc]
    omega
  · rcases Nat.eq_zero_or_pos a.fitting with hzero | hpos
    · rw [hzero,Nat.ceilDiv_eq_add_pred_div,Nat.div_zero]
      omega
    · have hceil := ceilDiv_le_self (n := a.walkerNum) hpos
      omega

theorem estimate_le {n : Nat} (ht : a.Typed) (hn : a.estimateEpochWalker = .ok n) :
    n ≤ min a.walkerNum (a.memQuota / a.perWalkerCost) := by
  have hpos := (EstimateArgs.estimate_ok ht hn).2.1
  have hfit : n ≤ a.fitting := by
    rw [EstimateArgs.estimate_le_iff ht hn]
    exact .inr (.inr ((ceilDiv_le_iff hpos).mp (Nat.le_refl _)))
  refine Nat.le_trans hfit ?_
  rw [EstimateArgs.fitting,min_comm]
  exact min_le_min_left _ (Nat.div_le_div_right (Nat.sub_le _ _))

theorem exists_estimate (ht : a.Typed) (hnowrap : a.NoWrap) (hsome : 1 ≤ a.walkerNum)
    (hmemory : a.memory + a.perWalkerCost ≤ a.memQuota) :
    ∃ n, a.estimateEpochWalker = .ok n ∧ 1 ≤ n := by
  have hneeded := hnowrap.memoryNeeded
  have hcost := EstimateArgs.perWalkerCost_pos (a := a)
  have hfits : 0 < a.fitting := by
    rw [EstimateArgs.fitting_pos_iff,EstimateArgs.spare,hneeded]
    omega
  refine ⟨_,(hnowrap.estimateEpochWalker_eq ht (by omega) hfits).2,?_⟩
  have hepochs := ceilDiv_pos hfits hsome
  exact Nat.le_min.mpr ⟨ceilDiv_pos hepochs hsome,by decide⟩

end

section
variable {vNum : Nat} (hv : vNum < 2 ^ 29)
include hv

theorem chooseGroupBits_le_of_small : chooseGroupBits vNum ≤ 22 := by
  by_contra hgt
  have hmany := (chooseGroupBits_spec (Nat.lt_trans hv (by decide))).2 22 (Nat.lt_of_not_le hgt)
  rw [maxGroupNum] at hmany
  omega

theorem indices_of_small : vNum + 2 ^ chooseGroupBits vNum ≤ 2 ^ 32 := by
  have hpow := Nat.pow_le_pow_right (n := 2) (by decide) (chooseGroupBits_le_of_small hv)
  omega

end

section
variable {K : Type} [Field K] [LinearOrder K] [IsStrictOrderedRing K] [FloorSemiring K]
  {maxDegree fuel d e : Nat}

theorem mem_degreesFrom (hd : d ≤ e) (he : e ≤ 20) (hmax : e ≤ maxDegree) (hfuel : e - d < fuel) :
    e ∈ degreesFrom K maxDegree fuel d := by
  induction fuel generalizing d with
  | zero => omega
  | succ fuel ih =>
    rw [degreesFrom,if_pos (by omega),List.mem_cons]
    rcases Nat.lt_or_eq_of_le hd with hlt | rfl
    · have hlo := lt_nextDegree K (d := d) (by omega)
      have hhi := nextDegree_le (K := K) (d := d) (by omega)
      exact .inr (ih (by omega) (by omega))
    · exact .inl rfl

theorem admissible_of_half {args : BmkArgs K} {bits degree : Nat} (hwalkers : 0 ≤ args.walkerPerEdge)
    (hfit : ((threadEdgeNum : Nat) : K) * args.walkerPerEdge < 2 ^ 64)
    (hhalf : 2 * (u32 (2 ^ bits) * degree) ≤ threadEdgeNum)
    (hone : 1 ≤ ((u32 (2 ^ bits) * degree : Nat) : K) * args.walkerPerEdge) :
    args.admissible bits degree = true := by
  generalize hx : u32 (2 ^ bits) * degree = x at hhalf hone
  have hedges : ((2 * x : Nat) : K) * args.walkerPerEdge ≤
      ((threadEdgeNum : Nat) : K) * args.walkerPerEdge :=
    mul_le_mul_of_nonneg_right (by exact_mod_cast hhalf) hwalkers
  have hdouble : ((2 * x : Nat) : K) * args.walkerPerEdge =
      (x : K) * args.walkerPerEdge + (x : K) * args.walkerPerEdge := by
    push_cast
    ring
  have hall : ⌊((threadEdgeNum : Nat) : K) * args.walkerPerEdge⌋₊ < 2 ^ 64 := by
    refine (Nat.floor_lt (mul_nonneg (Nat.cast_nonneg _) hwalkers)).mpr ?_
    exact_mod_cast hfit
  have hpart : ⌊(x : K) * args.walkerPerEdge⌋₊ < 2 ^ 64 :=
    Nat.lt_of_le_of_lt (Nat.floor_le_floor (by linarith)) hall
  have hmax : (x : K) * args.walkerPerEdge ≤ args.maxThreadWalkerNum := by
    -- Rounding down loses less than the other half.
    have hfloor := Nat.lt_floor_add_one (((threadEdgeNum : Nat) : K) * args.walkerPerEdge)
    change _ ≤ ((u64 ⌊((threadEdgeNum : Nat) : K) * args.walkerPerEdge⌋₊ : Nat) : K)
    rw [u64_of_lt hall]
    linarith
  rw [BmkArgs.admissible,Bool.and_eq_true,Bool.not_eq_true',Bool.or_eq_false_iff,hx]
  refine ⟨⟨decide_eq_false (by omega),?_⟩,?_⟩
  · rw [exact_lt,decide_eq_false_iff_not,not_lt]
    exact hmax
  · rw [BmkArgs.partitionWalkerNum,hx,Bool.not_eq_true',decide_eq_false_iff_not,not_lt]
    change 1 ≤ u64 ⌊(x : K) * args.walkerPerEdge⌋₊
    rw [u64_of_lt hpart]
    exact (Nat.one_le_floor_iff _).mpr hone

/-- The partitions of a graph are measured for some degree, unless an edge has hardly any
walkers. -/
theorem exists_measured (K : Type) [Field K] [LinearOrder K] [IsStrictOrderedRing K]
    [FloorSemiring K] {g : Loaded} (cfg : MultiThreadConfig) {epochWalker : Nat}
    (hbits : chooseGroupBits g.vNum ≤ 22) (hwalkers : epochWalker < 2 ^ 32) (hedges : 0 < g.eNum)
    (hdense : g.eNum ≤ 8 * 2 ^ min (chooseGroupBits g.vNum) 20 * epochWalker) :
    8 ∈ (hintArgs ((epochWalker : K) / g.eNum) g cfg).testDegrees ∧
      (hintArgs ((epochWalker : K) / g.eNum) g cfg).admissible
        (hintArgs ((epochWalker : K) / g.eNum) g cfg).internalMaxPtBit 8 = true := by
  have hinternal : (hintArgs ((epochWalker : K) / g.eNum) g cfg).internalMaxPtBit =
      min (chooseGroupBits g.vNum) 20 := by
    simp only [BmkArgs.internalMaxPtBit,hintArgs,minPartitionBits]
    omega
  have hpow : u32 (2 ^ min (chooseGroupBits g.vNum) 20) = 2 ^ min (chooseGroupBits g.vNum) 20 :=
    u32_of_lt (Nat.pow_lt_pow_right (by decide) (by omega))
  have hpos : (0 : K) < g.eNum := by exact_mod_cast hedges
  have hle : (epochWalker : K) / g.eNum ≤ epochWalker :=
    div_le_self (Nat.cast_nonneg _) (by exact_mod_cast hedges)
  refine ⟨mem_degreesFrom (by decide) (by decide) (show 8 ≤ 2048 by decide)
    (show 8 - 1 < 2048 by decide),
    admissible_of_half (div_nonneg (Nat.cast_nonneg _) hpos.le) ?_ ?_ ?_⟩
  · have hcast : (epochWalker : K) < 2 ^ 32 := by exact_mod_cast hwalkers
    have hmul := mul_le_mul_of_nonneg_left hle (show (0 : K) ≤ (threadEdgeNum : Nat) from Nat.cast_nonneg _)
    refine lt_of_le_of_lt hmul ?_
    rw [threadEdgeNum]
    push_cast
    linarith
  · have hsize := Nat.pow_le_pow_right (n := 2) (by decide)
      (Nat.min_le_right (chooseGroupBits g.vNum) 20)
    rw [hinternal,hpow,threadEdgeNum]
    omega
  · rw [hinternal,hpow]
    change 1 ≤ ((2 ^ min (chooseGroupBits g.vNum) 20 * 8 : Nat) : K) * ((epochWalker : K) / g.eNum)
    rw [← mul_div_assoc,one_le_div hpos,Nat.mul_comm]
    exact_mod_cast hdense

/-- With less than 2^8 walkers for an edge, 32 bits count the walkers that a thread fills in. -/
theorem maxThreadWalkerNum_lt (K : Type) [Field K] [LinearOrder K] [IsStrictOrderedRing K]
    [FloorSemiring K] {g : Loaded} (cfg : MultiThreadConfig) {epochWalker : Nat}
    (hedges : 0 < g.eNum) (hfew : epochWalker < 2 ^ 8 * g.eNum) :
    (hintArgs ((epochWalker : K) / g.eNum) g cfg).maxThreadWalkerNum < 2 ^ 32 := by
  have hpos : (0 : K) < g.eNum := by exact_mod_cast hedges
  have hquotient : (epochWalker : K) / g.eNum < 2 ^ 8 := by
    rw [div_lt_iff₀ hpos]
    exact_mod_cast hfew
  have hfill : ⌊((threadEdgeNum : Nat) : K) * ((epochWalker : K) / g.eNum)⌋₊ < 2 ^ 32 := by
    refine (Nat.floor_lt (mul_nonneg (Nat.cast_nonneg _)
      (div_nonneg (Nat.cast_nonneg _) hpos.le))).mpr ?_
    have hlt := mul_lt_mul_of_pos_left hquotient
      (show (0 : K) < (threadEdgeNum : Nat) by rw [threadEdgeNum]; positivity)
    rw [threadEdgeNum] at hlt ⊢
    push_cast at hlt ⊢
    linarith
  exact Nat.lt_of_le_of_lt (Nat.mod_le _ _) hfill

end

end FlashMob.Program
