import FlashMob.Graph.Load
import FlashMob.Partition.Solve

namespace FlashMob.Partition
open Floating FlashMob.Graph

variable {D : Type} [Floating D]

structure SampleEstimation (D : Type) where
  samplerClass : SamplerClass
  stepTime : D

/-- What `dp` reads: its arguments, the fields of the graph and of the hint, and the number
of threads that run its loop. `costs` maps partition bits to a table sorted by degree. -/
structure DpInput (D : Type) where
  walkerPerEdge : D
  minPartitionVertexBit : Nat
  maxPartitionVertexBit : Nat
  maxShufflePartitionNum : Nat
  costs : Nat → List (Nat × List (SampleEstimation D))
  vNum : Nat
  eNum : Nat
  degreePrefixSum : List Nat
  groupBits : Nat
  groupNum : Nat
  ompNumThreads : Nat

/-- The figures of one partition. -/
structure PartitionLoad (D : Type) where
  edgeNum : Nat
  walkerNum : D
  avgDegree : Nat

namespace DpInput
variable (i : DpInput D)

def getEdgeNum (vertexBegin vertexEnd : Nat) : Nat :=
  i.degreePrefixSum.getD vertexEnd 0 - i.degreePrefixSum.getD vertexBegin 0

def getWalkerNum (vertexBegin vertexEnd : Nat) : D :=
  mul (ofNat (i.getEdgeNum vertexBegin vertexEnd)) i.walkerPerEdge

omit [Floating D] in
def groupVertexBegin (g : Nat) : Nat := u32 (g <<< i.groupBits)
def groupVertexEnd (g : Nat) : Nat := min i.vNum (u32 ((g + 1) <<< i.groupBits))

/-- `hint.partition_num`. -/
def partitionNum (g bits : Nat) : Nat :=
  u32Sub (u32 (u32Sub (i.groupVertexEnd g) (i.groupVertexBegin g) + 2 ^ bits)) 1 >>> bits

/-- `partition_vertex_begin` and `partition_vertex_end`. -/
def partitionRange (g bits p : Nat) : Nat × Nat :=
  let partitionVertexBegin := u32 (i.groupVertexBegin g + u32 (2 ^ bits * p))
  (partitionVertexBegin, min (i.groupVertexEnd g) (u32 (partitionVertexBegin + 2 ^ bits)))

/-- `shuffle_vertex_end`. -/
def shuffleVertexEnd (g bits : Nat) : Nat :=
  min (i.groupVertexEnd g) (u32 (2 ^ bits * i.maxShufflePartitionNum))

/-- The edges, walkers and average degree of a partition; the first ones share the load of
the shuffled range. An empty range divides by zero. -/
def partitionLoad (g bits p : Nat) : Option (PartitionLoad D) :=
  let r := i.partitionRange g bits p
  let length := u32Sub r.2 r.1
  if g = 0 ∧ p < i.maxShufflePartitionNum then
    let shuffleLength := i.shuffleVertexEnd g bits
    let shuffleEdgeNum := i.getEdgeNum 0 shuffleLength
    let shuffleWalkerNum := i.getWalkerNum 0 shuffleLength
    if shuffleLength = 0 then none
    else some {
      edgeNum := toNat (mul (div (ofNat shuffleEdgeNum) (ofNat shuffleLength)) (ofNat length) : D)
      walkerNum := mul (div shuffleWalkerNum (ofNat shuffleLength)) (ofNat length)
      avgDegree := u32 (shuffleEdgeNum / shuffleLength) }
  else
    let edgeNum := i.getEdgeNum r.1 r.2
    if length = 0 then none
    else some {
      edgeNum := edgeNum
      walkerNum := i.getWalkerNum r.1 r.2
      avgDegree := u32 (edgeNum / length) }

/-- The methods measured for the degree, or those for the largest degree with a penalty. -/
def degreeMethods (bits avgDegree : Nat) : Option (D × List (SampleEstimation D)) :=
  match (i.costs bits).find? (fun e => avgDegree ≤ e.1) with
  | some e => some (ofNat 1, e.2)
  | none => (i.costs bits).getLast?.bind (fun e =>
      if e.1 = 0 then none else some (ofNat (avgDegree / e.1), e.2))

def syncPenalty (edgeNum : Nat) : D :=
  let threadMaxWork := max 1 (i.eNum / i.ompNumThreads / 8)
  if threadMaxWork < edgeNum then div (ofNat edgeNum) (ofNat threadMaxWork) else ofNat 1

/-- The modelled cost of a method. -/
def methodCost (load : PartitionLoad D) (dsPenalty : D) (method : SampleEstimation D) : D :=
  let val := mul method.stepTime load.walkerNum
  let val := if method.samplerClass = .classExclusiveBufferSampler then val
    else mul val dsPenalty
  mul val (i.syncPenalty load.edgeNum)

/-- The methods for partition `p` of group `g`, with their costs. -/
def offers (g bits p : Nat) : Option (List (SamplerClass × D)) :=
  (i.partitionLoad g bits p).bind (fun load =>
    (i.degreeMethods bits load.avgDegree).map (fun methods =>
      methods.2.map (fun method => (method.samplerClass, i.methodCost load methods.1 method))))

def menu (g bits : Nat) : Option (Menu D) :=
  ((List.range (i.partitionNum g bits)).mapM (fun p => i.offers g bits p)).map (fun offers =>
    { vertexBegin := i.groupVertexBegin g
      vertexEnd := i.groupVertexEnd g
      partitionBits := bits
      partitionNum := i.partitionNum g bits
      walkerNum := i.getWalkerNum (i.groupVertexBegin g) (i.groupVertexEnd g)
      offers := offers })

/-- The candidates of a group: partition sizes without measurements are skipped, sizes
above the group's fail the check. -/
def menus (g : Nat) : Option (List (Menu D)) :=
  let bits := List.range' i.minPartitionVertexBit
    (i.maxPartitionVertexBit + 1 - i.minPartitionVertexBit)
  if bits.all (fun b => b ≤ i.groupBits) then
    (bits.filter (fun b => !(i.costs b).isEmpty)).mapM (fun b => i.menu g b)
  else none

end DpInput

/-- `dp`: the hint it builds, if it finds a selection. -/
def dp (i : DpInput D) : Option (GraphHint D) :=
  ((List.range i.groupNum).mapM (fun g => i.menus g)).bind (fun menus =>
    (plan maxPartitionNum menus).map (fun selected =>
      { groupBits := i.groupBits
        groupNum := i.groupNum
        groupHints := selected.map Candidate.hint
        partitionSamplerClass := selected.flatMap Candidate.partitionSc }))

/-- The search for the number of vertices of a group; 32 bits are searched at most. -/
def searchGroupBits (vNum : Nat) : Nat → Nat → Nat
  | 0, groupBits => groupBits
  | fuel+1, groupBits =>
    if maxGroupNum < vNum >>> groupBits then searchGroupBits vNum fuel (groupBits + 1)
    else groupBits

def chooseGroupBits (vNum : Nat) : Nat := searchGroupBits vNum 32 0

def chooseGroupNum (vNum : Nat) : Nat :=
  u32Sub (u32 (vNum + 2 ^ chooseGroupBits vNum)) 1 / 2 ^ chooseGroupBits vNum

/-- What `get_partition_hint` calls `dp` with. -/
def partitionInput (walkerPerEdge : D) (graph : Loaded) (cfg : MultiThreadConfig)
    (costs : Nat → List (Nat × List (SampleEstimation D))) : DpInput D where
  walkerPerEdge := walkerPerEdge
  minPartitionVertexBit := min minPartitionBits (chooseGroupBits graph.vNum)
  maxPartitionVertexBit := min 24 (chooseGroupBits graph.vNum)
  maxShufflePartitionNum := cfg.threadNum
  costs := costs
  vNum := graph.vNum
  eNum := graph.eNum
  degreePrefixSum := graph.degreePrefixSum
  groupBits := chooseGroupBits graph.vNum
  groupNum := chooseGroupNum graph.vNum
  ompNumThreads := cfg.threadNum

/-- `get_partition_hint`, for the costs that the mini benchmark reports. -/
def getPartitionHint (walkerPerEdge : D) (graph : Loaded) (cfg : MultiThreadConfig)
    (costs : Nat → List (Nat × List (SampleEstimation D))) : Option (GraphHint D) :=
  dp (partitionInput walkerPerEdge graph cfg costs)

end FlashMob.Partition
