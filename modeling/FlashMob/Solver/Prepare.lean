import FlashMob.Graph.Query
import FlashMob.Solver.Estimate

namespace FlashMob.Solver
open FlashMob.Graph Lib.Tiling

/-- The call of `estimate_epoch_walker` in `make_graph`, where the buffers may have to hold
all edges. -/
def makeGraphArgs (g : Loaded) (cfg : MultiThreadConfig) (isNode2vec : Bool)
    (walkerNum walkLen memQuota : Nat) : EstimateArgs where
  vertexNum := g.vNum
  edgeNum := g.eNum
  bufferEdgeNum := g.eNum
  walkerNum := walkerNum
  walkLen := walkLen
  socketNum := cfg.socketNum
  memQuota := memQuota
  otherSize :=
    if isNode2vec then
      BloomFilter.calHashTableSize (if g.asUndirected then g.eNum / 2 else g.eNum)
    else 0

/-- The graph as `prepare` finds it after its call of `prepare_neighbor_query`, if any. -/
def preparedGraph (g : Made) (isNode2vec : Bool) (o : QueryOrder) : NeighborGraph :=
  if isNode2vec then NeighborGraph.prepareNeighborQuery ⟨g,none⟩ o else ⟨g,none⟩

def partitionDegrees (g : Made) (p : Nat) : Nat :=
  ((vertices (g.partitionBegin p,g.partitionEnd p)).map (fun v => (g.adjlists 0 v).degree)).sum

def bufferEdgeNum (g : Made) : Nat :=
  ((List.range g.partitionNum).map (fun p =>
    if g.partitionSamplerClass[p]? = some .classExclusiveBufferSampler then partitionDegrees g p
    else 0)).sum

/-- The call of `estimate_epoch_walker` in `prepare`. -/
def prepareArgs (g : NeighborGraph) (cfg : MultiThreadConfig) (isNode2vec : Bool)
    (walkerNum walkLen memQuota : Nat) : EstimateArgs where
  vertexNum := g.vNum
  edgeNum := g.eNum
  bufferEdgeNum := bufferEdgeNum g.toMade
  walkerNum := walkerNum
  walkLen := walkLen
  socketNum := cfg.socketNum
  memQuota := memQuota
  otherSize := if isNode2vec then (g.bf.map BloomFilter.sz).getD 0 else 0

theorem inserts_sz (ops : List (Nat × Nat)) (bf : BloomFilter) :
    (ops.foldl (fun bf op => bf.insert op.1 op.2) bf).sz = bf.sz := by
  induction ops generalizing bf with
  | nil => rfl
  | cons op ops ih =>
    rw [List.foldl_cons,ih]
    rfl

section
variable {edges : List (Nat × Nat)} {asUndirected : Bool} {g : Loaded} {D : Type}
  {cfg : MultiThreadConfig} {hint : GraphHint D} {schedule : List (Nat × Nat) → List (Nat × Nat)}
  {made : Made} (hload : load edges asUndirected = some g) (hsock : 0 < cfg.socketNum)
  (hmake : make cfg hint schedule g = some made) (ht : Tiles 0 made.partitions made.vNum)
include hload hsock hmake ht

theorem sum_degrees_le :
    ((List.range made.vNum).map (fun v => (made.adjlists 0 v).degree)).sum ≤ made.eNum := by
  obtain ⟨k,units,hmade,hred⟩ := make_dealt hmake ht
  obtain ⟨hvNum,heNum,_,_⟩ := make_sizes hmake
  have hdegree := assemble_degree hint schedule g made.partitions k units hsock
  rw [← hmade] at hdegree
  have hmap : (List.range g.vNum).map g.unit = g.vertexUnits := by
    have hlen := load_length_units hload
    refine List.ext_getElem (by simp [hlen]) (fun i hi hi' => ?_)
    rw [List.getElem_map,List.getElem_range,Loaded.unit,List.getD_eq_getElem _ _ hi']
  have hperm := (hred.perm.map VertexSortUnit.degree).sum_eq
  rw [hmap,List.map_map] at hperm
  rw [hvNum,heNum]
  simp only [hdegree]
  exact Nat.le_trans (Nat.le_of_eq hperm) (load_degrees_le hload)

theorem bufferEdgeNum_le : bufferEdgeNum made ≤ made.eNum := by
  refine Nat.le_trans ?_ (sum_degrees_le hload hsock hmake ht)
  have hall : ((List.range made.partitionNum).map (partitionDegrees made)).sum =
      ((List.range made.vNum).map (fun v => (made.adjlists 0 v).degree)).sum := by
    rw [List.range_eq_range' (n := made.vNum),← Nat.sub_zero made.vNum,← ht.flatMap_range',
      List.map_flatMap,List.flatMap_def,List.sum_flatten,List.map_map]
    congr 1
    refine List.ext_getElem (by simp [Made.partitionNum]) (fun i hi hi' => ?_)
    have hlt : i < made.partitions.length := by simpa [Made.partitionNum] using hi
    simp only [List.getElem_map,List.getElem_range,Function.comp_apply,partitionDegrees,vertices,
      Made.partitionBegin,Made.partitionEnd,List.getD_eq_getElem _ _ hlt]
  rw [← hall]
  refine List.sum_le_sum (fun p _ => ?_)
  split_ifs
  · exact Nat.le_refl _
  · exact Nat.zero_le _

end

/-- The filter that is created has the size that was reckoned with. -/
theorem prepareArgs_eq (g : Made) (o : QueryOrder) (cfg : MultiThreadConfig) (isNode2vec : Bool)
    (walkerNum walkLen memQuota : Nat) :
    prepareArgs (preparedGraph g isNode2vec o) cfg isNode2vec walkerNum walkLen memQuota =
      ⟨g.vNum,g.eNum,bufferEdgeNum g,walkerNum,walkLen,cfg.socketNum,memQuota,
        if isNode2vec then
          BloomFilter.calHashTableSize (if g.asUndirected then g.eNum / 2 else g.eNum)
        else 0⟩ := by
  cases isNode2vec with
  | false => rfl
  | true =>
    have hsz : ((preparedGraph g true o).bf.map BloomFilter.sz).getD 0 =
        BloomFilter.calHashTableSize (if g.asUndirected then g.eNum / 2 else g.eNum) := by
      simp only [if_true,preparedGraph,NeighborGraph.prepareNeighborQuery,Option.map_some,
        Option.getD_some,inserts_sz]
      rfl
    simp only [prepareArgs,if_true,hsz]
    rfl

/-- The estimate in `prepare` passes its check when that in `make_graph` did, and allows at
least as many walkers, whatever the sampler classes. -/
theorem second_estimate_not_less {edges : List (Nat × Nat)} {asUndirected : Bool} {g : Loaded}
    {D : Type} {cfg : MultiThreadConfig} {hint : GraphHint D}
    {schedule : List (Nat × Nat) → List (Nat × Nat)} {made : Made}
    (hload : load edges asUndirected = some g) (hsock : 0 < cfg.socketNum)
    (hmake : make cfg hint schedule g = some made) (ht : Tiles 0 made.partitions made.vNum)
    (o : QueryOrder) (isNode2vec : Bool) (walkerNum walkLen memQuota : Nat)
    (hwalkers : walkerNum < 2 ^ 64) (hquota : memQuota < 2 ^ 64)
    (hfirst : (makeGraphArgs g cfg isNode2vec walkerNum walkLen memQuota).NoWrap)
    (hsecond : (prepareArgs (preparedGraph made isNode2vec o) cfg isNode2vec walkerNum walkLen
      memQuota).NoWrap)
    {n : Nat}
    (hn : (makeGraphArgs g cfg isNode2vec walkerNum walkLen memQuota).estimateEpochWalker = .ok n) :
    ∃ n', (prepareArgs (preparedGraph made isNode2vec o) cfg isNode2vec walkerNum walkLen
      memQuota).estimateEpochWalker = .ok n' ∧ n ≤ n' := by
  obtain ⟨hvNum,heNum,hundirected,_⟩ := make_sizes hmake
  have hbuffer := bufferEdgeNum_le hload hsock hmake ht
  have hmemory : (prepareArgs (preparedGraph made isNode2vec o) cfg isNode2vec walkerNum walkLen
      memQuota).memory ≤ (makeGraphArgs g cfg isNode2vec walkerNum walkLen memQuota).memory := by
    have hwords := Nat.mul_le_mul_left sizeofVertexId hbuffer
    rw [prepareArgs_eq,hvNum,hundirected]
    simp only [EstimateArgs.memory,makeGraphArgs,heNum] at hwords ⊢
    omega
  have hother : ∀ {a : EstimateArgs}, a.NoWrap → a.otherSize < 2 ^ 64 := fun h =>
    Nat.lt_of_le_of_lt (Nat.le_add_left _ _) h.memory
  exact EstimateArgs.estimateEpochWalker_mono hfirst hsecond ⟨hwalkers,hquota,hother hfirst⟩
    ⟨hwalkers,hquota,hother hsecond⟩ rfl rfl rfl hmemory hn

theorem second_estimate_not_less_path :
    let g : Loaded := ⟨true,3,4,[(0,1),(1,2)],[uintMax,uintMax,uintMax,1,uintMax,2,uintMax,0],
      [⟨1,2⟩,⟨2,1⟩,⟨0,1⟩],[0,2,3,4]⟩
    let cfg : MultiThreadConfig := ⟨2,2,0⟩
    let hint : GraphHint Unit := ⟨2,1,[⟨0,3,1,2,(),(),0⟩],[.classExclusiveBufferSampler]⟩
    let o : QueryOrder := ⟨id,id,fun _ => .refl _,fun _ => .refl _⟩
    ∃ made n', load [(7,3),(3,5)] true = some g ∧ make cfg hint id g = some made ∧
      (prepareArgs (preparedGraph made true o) cfg true 10 80 4096).estimateEpochWalker = .ok n' ∧
        5 ≤ n' := by
  intro g cfg hint o
  have hload : load [(7,3),(3,5)] true = some g := rfl
  have hfacts : (make cfg hint id g).map (fun m => (m.partitions,m.vNum,m.eNum,m.asUndirected,
      bufferEdgeNum m)) = some ([(0,2),(2,3)],3,4,true,3) := by decide +kernel
  obtain ⟨made,hmake,hfields⟩ := Option.map_eq_some_iff.mp hfacts
  simp only [Prod.mk.injEq] at hfields
  obtain ⟨hp,hv,he,hu,hb⟩ := hfields
  have ht : Tiles 0 made.partitions made.vNum := by
    rw [hp,hv]
    exact ⟨rfl,by decide,rfl,by decide,rfl⟩
  have hsize : BloomFilter.calHashTableSize 2 = 32 := by decide
  have hargs : makeGraphArgs g cfg true 10 80 4096 = ⟨3,4,4,10,80,2,4096,32⟩ := by
    have hitems : (if g.asUndirected = true then g.eNum / 2 else g.eNum) = 2 := by
      change (if true = true then 4 / 2 else 4) = 2
      rfl
    rw [makeGraphArgs,hitems,hsize]
    rfl
  have hfirst : (makeGraphArgs g cfg true 10 80 4096).NoWrap := by
    rw [hargs]
    exact ⟨by decide,by decide,by decide⟩
  have hsecond : (prepareArgs (preparedGraph made true o) cfg true 10 80 4096).NoWrap := by
    rw [prepareArgs_eq,hv,he,hu,hb]
    simp only [if_true,hsize]
    exact ⟨by decide,by decide,by decide⟩
  obtain ⟨n',hn',hle⟩ := second_estimate_not_less hload (by decide) hmake ht o true 10 80 4096
    (by decide) (by decide) hfirst hsecond (n := 5) (by rw [hargs]; decide)
  exact ⟨made,n',hload,hmake,hn',hle⟩

end FlashMob.Solver
