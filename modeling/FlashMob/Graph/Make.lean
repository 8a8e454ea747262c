import FlashMob.Graph.Hint
import FlashMob.Graph.Load
import FlashMob.Graph.Lookup
import FlashMob.Graph.Sockets
import FlashMob.Lib.Writes

namespace FlashMob.Graph
open Lib.Writes

abbrev Slot := Nat × Nat

structure AdjList where
  degree : Nat
  begin : Slot

/-- The graph after `make`; `partitions` holds `partition_begin` and `partition_end`. -/
structure Made extends Groups where
  asUndirected : Bool
  vNum : Nat
  eNum : Nat
  groupNum : Nat
  partitions : List (Nat × Nat)
  shufflePartitionNum : Nat
  partitionSamplerClass : List SamplerClass
  socketNum : Nat
  partitionEdgeNum : List Nat
  partitionMaxDegree : List Nat
  partitionMinDegree : List Nat
  id2name : Nat → Nat
  adjlists : Nat → Nat → AdjList
  edges : Slot → Nat

namespace Made

def partitionNum (g : Made) : Nat := g.partitions.length
def partitionBegin (g : Made) (p : Nat) : Nat := (g.partitions.getD p (0,0)).1
def partitionEnd (g : Made) (p : Nat) : Nat := (g.partitions.getD p (0,0)).2

def neighbors (g : Made) (s v : Nat) : List Nat :=
  let adj := g.adjlists s v
  (List.range adj.degree).map (fun i => g.edges (adj.begin.1, adj.begin.2 + i))

end Made

section
variable {D : Type}

/-- The loop that fills the group headers. -/
def groupHeaders (groupBits : Nat) : Nat → List (GroupHint D) → List GroupHeader
  | _, [] => []
  | offset, h :: hs =>
    ⟨h.partitionBits,offset⟩ ::
      groupHeaders groupBits (u32 (offset + 2 ^ (groupBits - h.partitionBits))) hs

/-- The partition loop over one group from vertex `v` on. When the 32-bit addition wraps
it never reaches the end. -/
def groupPartitions (vNum bits vertexEnd : Nat) : Nat → Nat → Option (List (Nat × Nat))
  | 0, v => if v < vertexEnd then none else some []
  | fuel+1, v =>
    if v < vertexEnd then
      let next := u32 (v + 2 ^ bits)
      if v < next then
        (groupPartitions vNum bits vertexEnd fuel next).map
          (fun rest => (v, min next vNum) :: rest)
      else none
    else some []

def hintPartitions (vNum : Nat) (h : GroupHint D) : Option (List (Nat × Nat)) :=
  groupPartitions vNum h.partitionBits h.vertexEnd (h.vertexEnd - h.vertexBegin) h.vertexBegin

def partitionRows (vNum : Nat) (hint : GraphHint D) : Option (List (List (Nat × Nat))) :=
  if hint.groupHints.length < hint.groupNum then none
  else (hint.groupHints.take hint.groupNum).mapM (hintPartitions vNum)

end

/-- What the dealing loop carries: `vertex_units`, `v_i` and `temp_partition_p`. -/
structure Deal where
  units : Nat → VertexSortUnit
  next : Nat
  place : Nat → Nat

section
variable (partitions : List (Nat × Nat)) (shuffleVertexNum : Nat) (temp : Nat → VertexSortUnit)

/-- The next unit goes to partition `p` if it has room. -/
def dealStep (st : Deal) (p : Nat) : Deal :=
  if st.next < shuffleVertexNum ∧ st.place p < (partitions.getD p (0,0)).2 then
    ⟨Function.update st.units (st.place p) (temp st.next), st.next + 1,
      Function.update st.place p (st.place p + 1)⟩
  else st

/-- Once up and once down through the shuffled partitions. -/
def dealRound (shufflePartitionNum : Nat) (st : Deal) : Deal :=
  let up := (List.range shufflePartitionNum).foldl (dealStep partitions shuffleVertexNum temp) st
  ((List.range shufflePartitionNum).map (fun p => shufflePartitionNum - p - 1)).foldl
    (dealStep partitions shuffleVertexNum temp) up

def dealLoop (shufflePartitionNum : Nat) : Nat → Deal → Option Deal
  | 0, st => if st.next < shuffleVertexNum then none else some st
  | fuel+1, st =>
    if st.next < shuffleVertexNum then
      dealLoop shufflePartitionNum fuel
        (dealRound partitions shuffleVertexNum temp shufflePartitionNum st)
    else some st

end

/-- Deals the units of the first partitions; a round that places nothing is repeated
for ever. -/
def deal (partitions : List (Nat × Nat)) (shufflePartitionNum : Nat)
    (units : Nat → VertexSortUnit) : Option (Nat → VertexSortUnit) :=
  let shuffleVertexNum := (partitions.getD (shufflePartitionNum - 1) (0,0)).2
  (dealLoop partitions shuffleVertexNum units shufflePartitionNum shuffleVertexNum
    ⟨units, 0, fun p => (partitions.getD p (0,0)).1⟩).map Deal.units

def vertices (r : Nat × Nat) : List Nat := List.range' r.1 (r.2 - r.1)

/-- The loops over the partitions that number the vertices anew. -/
def newIds (partitions : List (Nat × Nat)) (units : Nat → VertexSortUnit) : Nat → Nat :=
  (partitions.flatMap vertices).foldl (fun ids v => Function.update ids (units v).vertex v)
    (fun _ => 0)

def nameTable (name2id : List Nat) (id2newid : Nat → Nat) : Nat → Nat :=
  (List.range name2id.length).foldl (fun id2name n =>
    if name2id.getD n uintMax = uintMax then id2name
    else Function.update id2name (id2newid (name2id.getD n uintMax)) n) (fun _ => 0)

/-- The vertices whose edges socket `s` holds, in the order of its edge array. -/
def socketVertices (socketNum : Nat) (partitions : List (Nat × Nat)) (s : Nat) : List Nat :=
  (socketPartitions socketNum partitions.length s).flatMap
    (fun p => vertices (partitions.getD p (0,0)))

/-- `p_e_num`: the length of the edge array of socket `s`. -/
def edgeArrayLength (socketNum : Nat) (partitions : List (Nat × Nat)) (degree : Nat → Nat)
    (s : Nat) : Nat :=
  ((socketVertices socketNum partitions s).map degree).sum

/-- The loop that lays the adjacency lists of the vertices of socket `s` one behind the other,
with the offset that comes next. -/
def socketBegins (degree : Nat → Nat) (s : Nat) (begins : Nat → Slot) (vs : List Nat) :
    (Nat → Slot) × Nat :=
  vs.foldl (fun (st : (Nat → Slot) × Nat) v =>
    (Function.update st.1 v (s,st.2), st.2 + degree v)) (begins,0)

def edgeBegins (socketNum : Nat) (partitions : List (Nat × Nat)) (degree : Nat → Nat) :
    Nat → Slot :=
  (List.range socketNum).foldl (fun begins s =>
    (socketBegins degree s begins (socketVertices socketNum partitions s)).1) (fun _ => (0,0))

/-- The adjacency tables: the degrees are set for every socket, the pointers for socket 0,
whose table is copied to the others at the end. -/
def adjTables (socketNum : Nat) (degree : Nat → Nat) (begins : Nat → Slot) :
    Nat → Nat → AdjList :=
  (List.range' 1 (socketNum - 1)).foldl (fun tables s => Function.update tables s (tables 0))
    (Function.update (fun _ v => ⟨degree v,(0,0)⟩) 0 (fun v => ⟨degree v,begins v⟩))

/-- The insertions of the edge loop: into the list of the first vertex goes the second. -/
def insertions (asUndirected : Bool) (edges : List (Nat × Nat)) : List (Nat × Nat) :=
  edges.flatMap (fun e => if asUndirected then [(e.1,e.2),(e.2,e.1)] else [(e.1,e.2)])

/-- The slots that the fetch-and-adds on `edge_end` hand out, each with what is stored there. -/
def slotWrites : (Nat → Slot) → List (Nat × Nat) → List (Slot × Nat)
  | _, [] => []
  | edgeEnd, op :: ops =>
    (edgeEnd op.1, op.2) ::
      slotWrites (Function.update edgeEnd op.1 ((edgeEnd op.1).1, (edgeEnd op.1).2 + 1)) ops

def Loaded.unit (g : Loaded) (v : Nat) : VertexSortUnit := g.vertexUnits.getD v ⟨0,0⟩

def newEdges (g : Loaded) (id2newid : Nat → Nat) : List (Nat × Nat) :=
  g.rawEdges.map (fun e => (id2newid e.1, id2newid e.2))

/-- The stores of the edge loop, for an order in which its fetch-and-adds are executed. -/
def edgeWrites (socketNum : Nat) (schedule : List (Nat × Nat) → List (Nat × Nat)) (g : Loaded)
    (partitions : List (Nat × Nat)) (units : Nat → VertexSortUnit) : List (Slot × Nat) :=
  slotWrites (edgeBegins socketNum partitions (fun v => (units v).degree))
    (schedule (insertions g.asUndirected (newEdges g (newIds partitions units))))

/-- `make` from the point where the units have been dealt. -/
def assemble {D : Type} (cfg : MultiThreadConfig) (hint : GraphHint D)
    (schedule : List (Nat × Nat) → List (Nat × Nat)) (g : Loaded)
    (partitions : List (Nat × Nat)) (shufflePartitionNum : Nat)
    (units : Nat → VertexSortUnit) : Made :=
  let degree := fun v => (units v).degree
  let id2newid := newIds partitions units
  let begins := edgeBegins cfg.socketNum partitions degree
  { groupBits := hint.groupBits
    groupMask := 2 ^ hint.groupBits - 1
    groups := fun _ => groupHeaders hint.groupBits 0 hint.groupHints
    asUndirected := g.asUndirected
    vNum := g.vNum
    eNum := g.eNum
    groupNum := hint.groupNum
    partitions := partitions
    shufflePartitionNum := shufflePartitionNum
    partitionSamplerClass := hint.partitionSamplerClass
    socketNum := cfg.socketNum
    partitionEdgeNum := partitions.map (fun r => ((vertices r).map degree).sum)
    partitionMaxDegree := partitions.map (fun r =>
      (vertices r).foldl (fun d v => max d (degree v)) 0)
    partitionMinDegree := partitions.map (fun r =>
      (vertices r).foldl (fun d v => min d (degree v)) g.vNum)
    id2name := nameTable g.name2id id2newid
    adjlists := adjTables cfg.socketNum degree begins
    edges := writes (fun _ => 0) (edgeWrites cfg.socketNum schedule g partitions units) }

/-- `make`, with the order in which the fetch-and-adds of the edge loop are executed. -/
def make {D : Type} (cfg : MultiThreadConfig) (hint : GraphHint D)
    (schedule : List (Nat × Nat) → List (Nat × Nat)) (g : Loaded) : Option Made :=
  (partitionRows g.vNum hint).bind (fun rows =>
    let shufflePartitionNum := min cfg.threadNum (rows.headD []).length
    if shufflePartitionNum = 0 then none
    else (deal rows.flatten shufflePartitionNum g.unit).map
      (assemble cfg hint schedule g rows.flatten shufflePartitionNum))

end FlashMob.Graph
