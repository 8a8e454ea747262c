import FlashMob.Sampler.Samplers
import FlashMob.Solver.Prepare
import FlashMob.Walker.Ranges

namespace FlashMob.Solver
open FlashMob.Graph FlashMob.Sampling FlashMob.WalkerManager Lib.Rounding

/-- `MemoryCounter::get_aligned_size`. -/
def getAlignedSize (size : Nat) : Nat :=
  if size % memoryDataAlignment ≠ 0 then
    u64 (size + (memoryDataAlignment - size % memoryDataAlignment))
  else size

/-- `MemoryCounter::al_alloc` for items of a size. -/
def alAlloc (dataSize size blockLength : Nat) : Nat :=
  getAlignedSize (u64 (dataSize + u64 (size * blockLength)))

/-- The bytes of an array that a pool hands out. -/
def poolBytes (size blockLength : Nat) : Nat := alAlloc 0 size blockLength

def walkerArrayBytes (maxEpochWalkerNum size len : Nat) : Nat :=
  u64 (size * len * maxEpochWalkerNum)

def sizeofEdgeBufferHeader : Nat := 8
def sizeofUint64 : Nat := 8

def graphBytes (g : Made) : Nat :=
  ((List.range g.socketNum).map (fun s => poolBytes sizeofAdjList g.vNum +
    poolBytes sizeofAdjUnit
      (edgeArrayLength g.socketNum g.partitions (fun v => (g.adjlists s v).degree) s))).sum

/-- The headers and buffers of the samplers of class `ClassExclusiveBufferSampler`. -/
def bufferBytes (g : Made) : Nat :=
  ((List.range g.partitionNum).map (fun p =>
    if g.partitionSamplerClass[p]? = some .classExclusiveBufferSampler then
      let sampler := ExclusiveBufferSampler.init (g.partitionBegin p) (g.partitionEnd p)
        (g.adjlists (partitionSocket g.socketNum p))
      alAlloc (poolBytes sizeofEdgeBufferHeader (sampler.vertexEnd - sampler.vertexBegin))
        sizeofVertexId sampler.bufferUnitNum
    else 0)).sum

def filterBytes (g : Made) (isNode2vec : Bool) : Nat :=
  if isNode2vec then
    poolBytes sizeofUint64
      (BloomFilter.calHashTableCapacity (if g.asUndirected then g.eNum / 2 else g.eNum))
  else 0

def fixedBytes (g : Made) (isNode2vec : Bool) : Nat :=
  graphBytes g + bufferBytes g + filterBytes g isNode2vec

/-- The shuffled messages, and in node2vec the shuffled states, of all tasks. -/
def messageBytes (cfg : MultiThreadConfig) (isNode2vec : Bool) (maxEpochWalkerNum : Nat) : Nat :=
  ((threadWalkers cfg maxEpochWalkerNum).flatten.map (fun r =>
    poolBytes sizeofVertexId (r.2 - r.1) +
      if isNode2vec then poolBytes sizeofVertexId (r.2 - r.1) else 0)).sum

/-- What `prepare`, `get_walker_start_vertices` and `alloc_output_array` request in all: the
path arrays, the output, the start vertices, the partition ids and the messages on top of
what is fixed. -/
def requestedBytes (g : Made) (cfg : MultiThreadConfig) (isNode2vec : Bool)
    (walkLen maxEpochWalkerNum : Nat) : Nat :=
  fixedBytes g isNode2vec +
    walkLen * walkerArrayBytes maxEpochWalkerNum sizeofVertexId 1 +
    walkerArrayBytes maxEpochWalkerNum sizeofVertexId walkLen +
    walkerArrayBytes maxEpochWalkerNum sizeofVertexId 1 +
    walkerArrayBytes maxEpochWalkerNum sizeofPartitionId 1 +
    messageBytes cfg isNode2vec maxEpochWalkerNum

def walkerBytes (isNode2vec : Bool) (walkLen n : Nat) : Nat :=
  (8 * walkLen + 6) * n + (if isNode2vec then 2 else 1) * roundUp 64 (4 * n)

theorem walkerBytes_mono (isNode2vec : Bool) (walkLen : Nat) {m n : Nat} (h : m ≤ n) :
    walkerBytes isNode2vec walkLen m ≤ walkerBytes isNode2vec walkLen n :=
  Nat.add_le_add (Nat.mul_le_mul_left _ h)
    (Nat.mul_le_mul_left _ (roundUp_mono (by decide) (Nat.mul_le_mul_left 4 h)))

theorem getAlignedSize_eq {size : Nat} (h : size + 64 ≤ 2 ^ 64) :
    getAlignedSize size = roundUp 64 size := by
  have hround : roundUp 64 (size / 64 * 64 + size % 64) =
      size / 64 * 64 + roundUp 64 (size % 64) := roundUp_add (by decide) _ _
  have hmod := Nat.mod_lt size (show 0 < 64 by decide)
  rw [Nat.div_add_mod' size 64] at hround
  have halign : memoryDataAlignment = 64 := rfl
  rw [getAlignedSize,hround,halign]
  split_ifs with h0
  · have hone : roundUp 64 (size % 64) = 64 := by
      rw [roundUp,Nat.ceilDiv_eq_add_pred_div]
      omega
    rw [u64_of_lt (by omega),hone]
    omega
  · have hnone : roundUp 64 (size % 64) = 0 := by
      rw [roundUp,Nat.ceilDiv_eq_add_pred_div]
      omega
    rw [hnone]
    omega

theorem poolBytes_eq {size n : Nat} (h : size * n + 64 ≤ 2 ^ 64) :
    poolBytes size n = roundUp 64 (size * n) := by
  rw [poolBytes,alAlloc,Nat.zero_add,u64_of_lt (u64_lt _),u64_of_lt (by omega),getAlignedSize_eq h]

/-- All shares but the last fill whole lines, so that rounding up each of them loses nothing. -/
theorem sum_roundUp_splitWalkers {hint : Nat} (hhint : 16 ∣ hint) (n b r : Nat) :
    ((splitWalkers hint (n+1) b r).map (fun p => roundUp 64 (4 * (p.2 - p.1)))).sum =
      roundUp 64 (4 * r) := by
  induction n generalizing b r with
  | zero => simp [splitWalkers]
  | succ n ih =>
    simp only [splitWalkers,List.map_cons,List.sum_cons,Nat.add_sub_cancel_left]
    rw [ih]
    rcases Nat.le_total hint r with h | h
    · obtain ⟨k,rfl⟩ := hhint
      rw [Nat.min_eq_left h]
      have hshare := roundUp_add (d := 64) (by decide) k 0
      have hall := roundUp_add (d := 64) (by decide) k (4 * (r - 16 * k))
      have hzero : roundUp 64 0 = 0 := by decide
      rw [show 4 * (16 * k) = k * 64 + 0 by omega,hshare,hzero,Nat.add_zero,← hall]
      congr 1
      omega
    · have hzero : roundUp 64 0 = 0 := by decide
      rw [Nat.min_eq_right h,Nat.sub_self,Nat.mul_zero,hzero,Nat.add_zero]

theorem messageBytes_eq {cfg : MultiThreadConfig} (hc : cfg.Valid) (isNode2vec : Bool)
    {maxEpochWalkerNum : Nat} (hmax : maxEpochWalkerNum < 2 ^ 32) :
    messageBytes cfg isNode2vec maxEpochWalkerNum =
      (if isNode2vec then 2 else 1) * roundUp 64 (4 * maxEpochWalkerNum) := by
  have h4 : sizeofVertexId = 4 := rfl
  have hshares : ∀ r ∈ (threadWalkers cfg maxEpochWalkerNum).flatten,
      (poolBytes sizeofVertexId (r.2 - r.1) +
        if isNode2vec then poolBytes sizeofVertexId (r.2 - r.1) else 0) =
      (if isNode2vec then 2 else 1) * roundUp 64 (4 * (r.2 - r.1)) := by
    intro r hr
    have hle := ((threadWalkers_tiles hc maxEpochWalkerNum).mem_bounds hr).2.2
    have hsmall : sizeofVertexId * (r.2 - r.1) + 64 ≤ 2 ^ 64 := by
      rw [h4]
      omega
    rw [poolBytes_eq hsmall,h4]
    cases isNode2vec
    · simp
    · simp only [if_true]
      omega
  have hthread : 16 ∣ hintThreadWalkerNum cfg maxEpochWalkerNum :=
    Nat.dvd_trans (by decide) (Nat.dvd_mul_left chunkWalkerNum _)
  have hsocket : 16 ∣ hintSocketWalkerNum cfg maxEpochWalkerNum :=
    Nat.dvd_trans (by decide) (Nat.dvd_mul_left pageWalkerNum _)
  obtain ⟨threads,hthreads⟩ := Nat.exists_eq_succ_of_ne_zero (Nat.ne_of_gt hc.socketThreadNum_pos)
  obtain ⟨sockets,hsockets⟩ := Nat.exists_eq_succ_of_ne_zero (Nat.ne_of_gt hc.sockets)
  rw [messageBytes,List.map_congr_left hshares,List.sum_map_mul_left,threadWalkers,
    List.map_flatten,List.sum_flatten,List.map_map,List.map_map]
  congr 1
  rw [← sum_roundUp_splitWalkers hsocket sockets 0 maxEpochWalkerNum,socketWalkers,hsockets]
  congr 1
  refine List.map_congr_left (fun r _ => ?_)
  simp only [Function.comp_apply]
  rw [hthreads]
  exact sum_roundUp_splitWalkers hthread threads r.1 (r.2 - r.1)

theorem requestedBytes_eq (g : Made) {cfg : MultiThreadConfig} (hc : cfg.Valid) (isNode2vec : Bool)
    {walkLen n : Nat} (hmax : n < 2 ^ 32) (hwalks : 4 * walkLen * n < 2 ^ 64) :
    requestedBytes g cfg isNode2vec walkLen n =
      fixedBytes g isNode2vec + walkerBytes isNode2vec walkLen n := by
  have hpath : walkerArrayBytes n sizeofVertexId 1 = 4 * n := u64_of_lt (by
    change 4 * 1 * n < 2 ^ 64
    omega)
  have hout : walkerArrayBytes n sizeofVertexId walkLen = 4 * walkLen * n := u64_of_lt hwalks
  have hids : walkerArrayBytes n sizeofPartitionId 1 = 2 * n := u64_of_lt (by
    change 2 * 1 * n < 2 ^ 64
    omega)
  rw [requestedBytes,hpath,hout,hids,messageBytes_eq hc isNode2vec hmax,walkerBytes]
  ring

theorem estimate_walks_lt {a : EstimateArgs} (ht : a.Typed)
    (hlen : a.walkLen * 2 + 2 + 1 < 2 ^ 31) {n : Nat} (hn : a.estimateEpochWalker = .ok n) :
    4 * a.walkLen * n < 2 ^ 64 := by
  have hquota := ht.memQuota
  have hpos := (EstimateArgs.estimate_ok ht hn).2.1
  have hcost := EstimateArgs.perWalkerCost_eq hlen
  have hfit : n ≤ a.fitting := by
    rw [EstimateArgs.estimate_le_iff ht hn]
    exact Or.inr (Or.inr ((ceilDiv_le_iff hpos).mp (Nat.le_refl _)))
  have hspare : a.perWalkerCost * n ≤ a.spare := by
    rw [Nat.mul_comm]
    exact (Nat.le_div_iff_mul_le EstimateArgs.perWalkerCost_pos).mp
      (Nat.le_trans hfit (Nat.min_le_left _ _))
  have hless : 4 * a.walkLen * n ≤ a.perWalkerCost * n :=
    Nat.mul_le_mul_right n (by omega)
  have hsub : a.spare ≤ a.memQuota := Nat.sub_le _ _
  omega

/-- The bytes that `n` walkers take by the rates of the estimate, on top of graph, buffers and
filter. -/
def plannedBytes (g : Made) (cfg : MultiThreadConfig) (isNode2vec : Bool) (walkLen n : Nat) : Nat :=
  u64 (sizeofAdjList * g.vNum * cfg.socketNum + sizeofAdjUnit * g.eNum +
    sizeofVertexId * bufferEdgeNum g +
    if isNode2vec then BloomFilter.calHashTableSize (if g.asUndirected then g.eNum / 2 else g.eNum)
    else 0) + (8 * walkLen + 12) * n

/-- The estimate of `prepare` covers what is requested exactly when every even epoch that is planned
to fit does fit, or as many walkers as an epoch can have. -/
theorem memory_covered_iff (g : Made) (o : QueryOrder) {cfg : MultiThreadConfig} (hc : cfg.Valid)
    (isNode2vec : Bool) (walkerNum walkLen memQuota : Nat) (hlen : walkLen * 2 + 2 + 1 < 2 ^ 31)
    (ht : (prepareArgs (preparedGraph g isNode2vec o) cfg isNode2vec walkerNum walkLen
      memQuota).Typed) {n : Nat}
    (hn : (prepareArgs (preparedGraph g isNode2vec o) cfg isNode2vec walkerNum walkLen
      memQuota).estimateEpochWalker = .ok n) :
    let fits := fun m => fixedBytes g isNode2vec + walkerBytes isNode2vec walkLen m ≤ memQuota
    requestedBytes g cfg isNode2vec walkLen n ≤ memQuota ↔
      fits EstimateArgs.walkerCap ∨ fits 0 ∧ ∀ epochs, 0 < epochs → walkerNum + epochs ≤ 2 ^ 64 →
        plannedBytes g cfg isNode2vec walkLen (walkerNum ⌈/⌉ epochs) ≤ memQuota →
        fits (walkerNum ⌈/⌉ epochs) := by
  intro fits
  have hcap := EstimateArgs.estimateEpochWalker_le hn
  have hwalks : 4 * walkLen * n < 2 ^ 64 := estimate_walks_lt ht hlen hn
  rw [requestedBytes_eq g hc isNode2vec (Nat.lt_of_le_of_lt hcap (by decide)) hwalks]
  have hmono : ∀ {k m : Nat}, k ≤ m → fits m → fits k := fun hle hm =>
    Nat.le_trans (Nat.add_le_add_left (walkerBytes_mono isNode2vec walkLen hle) _) hm
  have hmeets := EstimateArgs.estimate_meets_iff ht hn (P := fits) hmono
  rw [EstimateArgs.memoryNeeded_eq,EstimateArgs.perWalkerCost_eq hlen,prepareArgs_eq] at hmeets
  exact hmeets

/-- One edge and ten walkers. -/
theorem memory_covered_one_edge :
    let g : Loaded := ⟨true,2,2,[(0,1)],[0,1],[⟨1,1⟩,⟨0,1⟩],[0,1,2]⟩
    let cfg : MultiThreadConfig := ⟨1,1,0⟩
    let hint : GraphHint Unit := ⟨1,1,[⟨0,2,1,1,(),(),0⟩],[.classDirectSampler]⟩
    let o : QueryOrder := ⟨id,id,fun _ => .refl _,fun _ => .refl _⟩
    ∃ made, make cfg hint id g = some made ∧
      (prepareArgs (preparedGraph made false o) cfg false 10 80 (2 ^ 30)).estimateEpochWalker = .ok 10 ∧
      requestedBytes made cfg false 80 10 ≤ 2 ^ 30 := by
  intro g cfg hint o
  have hsome : (make cfg hint id g).isSome = true := rfl
  obtain ⟨made,hmake⟩ := Option.isSome_iff_exists.mp hsome
  have hfields : (make cfg hint id g).map (fun m => (m.vNum,m.eNum,bufferEdgeNum m,
      fixedBytes m false)) = some (2,2,0,128) := by decide
  rw [hmake] at hfields
  simp only [Option.map_some,Option.some.injEq,Prod.mk.injEq] at hfields
  obtain ⟨hv,he,hb,hfixed⟩ := hfields
  have hargs : prepareArgs (preparedGraph made false o) cfg false 10 80 (2 ^ 30) =
      ⟨2,2,0,10,80,1,2 ^ 30,0⟩ := by
    rw [prepareArgs_eq,hv,he,hb]
    rfl
  have ht : (prepareArgs (preparedGraph made false o) cfg false 10 80 (2 ^ 30)).Typed := by
    rw [hargs]
    exact ⟨by decide,by decide,by decide⟩
  have hn : (prepareArgs (preparedGraph made false o) cfg false 10 80 (2 ^ 30)).estimateEpochWalker =
      .ok 10 := by
    rw [hargs]
    decide
  refine ⟨made,hmake,hn,(memory_covered_iff made o ⟨by decide,by decide,by decide⟩ false 10 80
    (2 ^ 30) (by decide) ht hn).mpr (.inr ?_)⟩
  have hten : walkerBytes false 80 10 ≤ 2 ^ 20 := by decide
  refine ⟨by rw [hfixed]; decide,fun epochs hepochs _ _ => ?_⟩
  have hsize := walkerBytes_mono false 80 (ceilDiv_le_self (n := 10) hepochs)
  rw [hfixed]
  omega

/-- In node2vec a walker takes two bytes more than estimated, and with enough walkers for all
of the memory the quota is exceeded. -/
theorem memory_not_covered :
    let g : Loaded := ⟨true,2,2,[(0,1)],[0,1],[⟨1,1⟩,⟨0,1⟩],[0,1,2]⟩
    let cfg : MultiThreadConfig := ⟨1,1,0⟩
    let hint : GraphHint Unit := ⟨1,1,[⟨0,2,1,1,(),(),0⟩],[.classDirectSampler]⟩
    let o : QueryOrder := ⟨id,id,fun _ => .refl _,fun _ => .refl _⟩
    ∃ made n, load [(0,1)] true = some g ∧ make cfg hint id g = some made ∧
      (prepareArgs (preparedGraph made true o) cfg true 1646843 80 (2 ^ 30)).estimateEpochWalker =
        .ok n ∧
      ¬requestedBytes made cfg true 80 n ≤ 2 ^ 30 := by
  intro g cfg hint o
  have hload : load [(0,1)] true = some g := rfl
  have hsome : (make cfg hint id g).isSome = true := rfl
  obtain ⟨made,hmake⟩ := Option.isSome_iff_exists.mp hsome
  have hfields : (make cfg hint id g).map (fun m => (m.vNum,m.eNum,m.asUndirected,
      bufferEdgeNum m)) = some (2,2,true,0) := rfl
  rw [hmake] at hfields
  simp only [Option.map_some,Option.some.injEq,Prod.mk.injEq] at hfields
  obtain ⟨hv,he,hu,hb⟩ := hfields
  have hsize : BloomFilter.calHashTableSize (2 / 2) = 32 := by decide
  have hargs : prepareArgs (preparedGraph made true o) cfg true 1646843 80 (2 ^ 30) =
      ⟨2,2,0,1646843,80,1,2 ^ 30,32⟩ := by
    rw [prepareArgs_eq,hv,he,hu,hb]
    simp only [if_true,hsize]
    rfl
  have hn : (prepareArgs (preparedGraph made true o) cfg true 1646843 80
      (2 ^ 30)).estimateEpochWalker = .ok 1646843 := by
    rw [hargs]
    decide
  refine ⟨made,1646843,hload,hmake,hn,?_⟩
  rw [requestedBytes_eq made ⟨by decide,by decide,by decide⟩ true (by decide) (by decide)]
  have hwalkers : 2 ^ 30 < walkerBytes true 80 1646843 := by decide
  omega

end FlashMob.Solver
