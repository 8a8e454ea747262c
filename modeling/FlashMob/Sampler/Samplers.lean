import FlashMob.Graph.Make

namespace FlashMob.Sampling
open FlashMob.Graph

variable {ρ : Type} [RandGen ρ]

/-- `get_edge_buffer_length` of a vertex with this degree. -/
def edgeBufferLength (degree : Nat) : Nat :=
  let len := if degree < 8 then 8 else degree
  if 8 < len ∧ len &&& (len - 1) = 0 then u32 (len + 1) else len

/-- The last loop of `fill`, which flushes the edges of a vertex by cache lines, from edge `e` on.
Its counter has 32 bits; `none` when it has not ended after `fuel` tests. -/
def flush (degree : Nat) : Nat → Nat → Option Nat
  | 0, _ => none
  | fuel+1, e =>
    if e < degree then flush degree fuel (u32 (e + cacheLineSize / sizeofAdjUnit)) else some e

/-- The loop ends. After 2^28 cache lines its counter is zero again. -/
def flushEnds (degree : Nat) : Bool := (flush degree (2 ^ 28 + 1) 0).isSome

theorem flush_ends {degree : Nat} (h : degree + 16 ≤ 2 ^ 32) {fuel k : Nat} (hk : k < 2 ^ 28)
    (hfuel : degree ≤ 16 * k + 16 * fuel) : (flush degree (fuel + 1) (16 * k)).isSome = true := by
  induction fuel generalizing k with
  | zero => rw [flush,if_neg (by omega),Option.isSome_some]
  | succ fuel ih =>
    rw [flush]
    split_ifs with hlt
    · have hline : cacheLineSize / sizeofAdjUnit = 16 := rfl
      rw [hline,u32_of_lt (by omega),← Nat.mul_succ]
      exact ih (by omega) (by omega)
    · exact Option.isSome_some

/-- Behind the last multiple of 16 the counter begins anew. -/
theorem flush_endless {degree : Nat} (h : 2 ^ 32 < degree + 16) (fuel k : Nat) (hk : k < 2 ^ 28) :
    flush degree fuel (16 * k) = none := by
  induction fuel generalizing k with
  | zero => rfl
  | succ fuel ih =>
    have hnext : u32 (16 * k + cacheLineSize / sizeofAdjUnit) = 16 * ((k + 1) % 2 ^ 28) := by
      have hline : cacheLineSize / sizeofAdjUnit = 16 := rfl
      rw [u32,hline]
      omega
    rw [flush,if_pos (by omega),hnext]
    exact ih _ (Nat.mod_lt _ (by decide))

theorem flushEnds_iff (degree : Nat) : flushEnds degree = true ↔ degree + 16 ≤ 2 ^ 32 := by
  constructor
  · intro h
    by_contra hlarge
    rw [flushEnds,← Nat.mul_zero 16,flush_endless (by omega) _ 0 (by decide)] at h
    cases h
  · intro h
    exact flush_ends h (k := 0) (by decide) (by omega)

structure EdgeBufferHeader where
  head : Nat
  «end» : Nat
  deriving DecidableEq, Repr

structure ExclusiveBufferSampler where
  adjlists : Nat → AdjList
  vertexBegin : Nat
  vertexEnd : Nat
  units : Nat → Nat
  headers : Nat → EdgeBufferHeader
  bufferUnitNum : Nat

namespace ExclusiveBufferSampler

def getEdgeBufferLength (s : ExclusiveBufferSampler) (vertex : Nat) : Nat :=
  edgeBufferLength (s.adjlists vertex).degree

/-- The loop that lays the buffers of the vertices one behind the other. -/
def initHeaders (adjlists : Nat → AdjList) (vertexBegin num : Nat) :
    (Nat → EdgeBufferHeader) × Nat :=
  (List.range num).foldl (fun st i =>
    let next := u32 (st.2 + edgeBufferLength (adjlists (i + vertexBegin)).degree)
    (Function.update st.1 i ⟨next,next⟩, next)) (fun _ => ⟨0,0⟩, 0)

/-- `init`; the pool hands out memory that is set to zero. -/
def init (vertexBegin vertexEnd : Nat) (adjlists : Nat → AdjList) : ExclusiveBufferSampler where
  adjlists := adjlists
  vertexBegin := vertexBegin
  vertexEnd := vertexEnd
  units := fun _ => 0
  headers := (initHeaders adjlists vertexBegin (vertexEnd - vertexBegin)).1
  bufferUnitNum := ((List.range' vertexBegin (vertexEnd - vertexBegin)).map
    (fun v => edgeBufferLength (adjlists v).degree)).sum

/-- `clear`: what is left in the buffers is not used any more. -/
def clear (s : ExclusiveBufferSampler) : ExclusiveBufferSampler :=
  { s with
    headers := (List.range' s.vertexBegin (s.vertexEnd - s.vertexBegin)).foldl (fun headers v =>
      let vIdx := u32Sub v s.vertexBegin
      Function.update headers vIdx ⟨(headers vIdx).end, (headers vIdx).end⟩) s.headers }

/-- What `fill` leaves when its flush loop ends: it fills the used part of a vertex's buffer with
sampled neighbours. -/
def fill (edges : Slot → Nat) (s : ExclusiveBufferSampler) (vertex : Nat) (rd : ρ) :
    ExclusiveBufferSampler × ρ :=
  let vIdx := u32Sub vertex s.vertexBegin
  let h := s.headers vIdx
  let adj := s.adjlists vertex
  let start := u32Sub h.end (s.getEdgeBufferLength vertex)
  let filled := (List.range (u32Sub h.head start)).foldl (fun (st : (Nat → Nat) × ρ) i =>
    let r := RandGen.gen adj.degree st.2
    (Function.update st.1 (start + i) (edges (adj.begin.1, adj.begin.2 + r.1)), r.2))
    (s.units,rd)
  ({ s with
      units := filled.1
      headers := Function.update s.headers vIdx ⟨start,h.end⟩ }, filled.2)

/-- What a call of `sample` does that returns. -/
def sample (edges : Slot → Nat) (s : ExclusiveBufferSampler) (vertex : Nat) (rd : ρ) :
    Nat × ExclusiveBufferSampler × ρ :=
  let vIdx := u32Sub vertex s.vertexBegin
  let st := if (s.headers vIdx).head = (s.headers vIdx).end then s.fill edges vertex rd
    else (s,rd)
  let h := st.1.headers vIdx
  (st.1.units h.head,
    { st.1 with headers := Function.update st.1.headers vIdx ⟨u32 (h.head + 1),h.end⟩ }, st.2)

/-- A call of `sample` returns if it need not call `fill`, or if the flush loop of `fill` ends. -/
def returns (s : ExclusiveBufferSampler) (vertex : Nat) : Bool :=
  let h := s.headers (u32Sub vertex s.vertexBegin)
  !decide (h.head = h.end) || flushEnds (s.adjlists vertex).degree

end ExclusiveBufferSampler

structure DirectSampler where
  adjlists : Nat → AdjList

def DirectSampler.sample (edges : Slot → Nat) (s : DirectSampler) (vertex : Nat) (rd : ρ) :
    Nat × ρ :=
  let adj := s.adjlists vertex
  let r := RandGen.gen adj.degree rd
  (edges (adj.begin.1, adj.begin.2 + r.1), r.2)

/-- The index that the samplers for equal and for similar degrees compute in 32 bits. -/
def edgeIndex (vertexBegin degree vertex r : Nat) : Nat :=
  u32 (u32 (u32Sub vertex vertexBegin * degree) + r)

structure UniformDegreeDirectSampler where
  vertexBegin : Nat
  degree : Nat
  edgeBegin : Slot

namespace UniformDegreeDirectSampler

def init (vertexBegin : Nat) (adjlists : Nat → AdjList) : UniformDegreeDirectSampler :=
  ⟨vertexBegin,(adjlists vertexBegin).degree,(adjlists vertexBegin).begin⟩

def sample (edges : Slot → Nat) (s : UniformDegreeDirectSampler) (vertex : Nat) (rd : ρ) :
    Nat × ρ :=
  let r := RandGen.gen s.degree rd
  (edges (s.edgeBegin.1, s.edgeBegin.2 + edgeIndex s.vertexBegin s.degree vertex r.1), r.2)

end UniformDegreeDirectSampler

structure AdjHint where
  vertexBegin : Nat
  vertexEnd : Nat
  degree : Nat
  edgeBegin : Slot

/-- `hints` is the part of the array that is in use. -/
structure SimilarDegreeDirectSampler where
  hints : List AdjHint

namespace SimilarDegreeDirectSampler

/-- `valid`, for the statistics of partition `pid`. -/
def valid (pid l2CacheSize : Nat) (g : Made) : Bool :=
  if similarDegreeDirectSamplerMaxHintNum <
      u32 (u32Sub (g.partitionMaxDegree.getD pid 0) (g.partitionMinDegree.getD pid 0) + 1) then
    false
  else if g.partitionEdgeNum.getD pid 0 * sizeofAdjUnit +
      u32Sub (g.partitionEnd pid) (g.partitionBegin pid) * sizeofAdjList < l2CacheSize then
    false
  else true

/-- Sets `vertex_end` of the last hint. -/
def closeLast (v : Nat) : List AdjHint → List AdjHint
  | [] => []
  | [h] => [{ h with vertexEnd := v }]
  | h :: h' :: hs => h :: closeLast v (h' :: hs)

/-- The body of the loop of `init`: a new degree begins a new hint. -/
def initStep (adjlists : Nat → AdjList) (st : Nat × List AdjHint) (v : Nat) :
    Nat × List AdjHint :=
  if st.1 ≠ (adjlists v).degree then
    ((adjlists v).degree,
      closeLast v st.2 ++ [⟨v,0,(adjlists v).degree,(adjlists v).begin⟩])
  else st

/-- `init`; without a hint, or with more than the array has room for, it writes outside. -/
def init (vertexBegin vertexEnd : Nat) (adjlists : Nat → AdjList) :
    Option SimilarDegreeDirectSampler :=
  let hints := ((List.range' vertexBegin (vertexEnd - vertexBegin)).foldl (initStep adjlists)
    (0,[])).2
  if hints = [] ∨ similarDegreeDirectSamplerMaxHintNum < hints.length then none
  else some ⟨closeLast vertexEnd hints⟩

/-- The hint that the loop of `sample` stops at. -/
def findHint (s : SimilarDegreeDirectSampler) (vertex : Nat) : Option AdjHint :=
  s.hints.find? (fun h => vertex < h.vertexEnd)

def sample (edges : Slot → Nat) (s : SimilarDegreeDirectSampler) (vertex : Nat) (rd : ρ) :
    Nat × ρ :=
  match s.findHint vertex with
  | some h =>
    let r := RandGen.gen h.degree rd
    (edges (h.edgeBegin.1, h.edgeBegin.2 + edgeIndex h.vertexBegin h.degree vertex r.1), r.2)
  | none => (0,rd)

end SimilarDegreeDirectSampler

/-- A sampler of one of the four classes. -/
inductive Sampler
  | exclusive (s : ExclusiveBufferSampler)
  | uniform (s : UniformDegreeDirectSampler)
  | similar (s : SimilarDegreeDirectSampler)
  | direct (s : DirectSampler)

namespace Sampler

/-- Only in one class a call of `sample` need not return. -/
def returns : Sampler → Nat → Bool
  | exclusive s, vertex => s.returns vertex
  | _, _ => true

def sample (edges : Slot → Nat) : Sampler → Nat → ρ → Nat × Sampler × ρ
  | exclusive s, vertex, rd =>
    let r := s.sample edges vertex rd
    (r.1, exclusive r.2.1, r.2.2)
  | uniform s, vertex, rd =>
    let r := s.sample edges vertex rd
    (r.1, uniform s, r.2)
  | similar s, vertex, rd =>
    let r := s.sample edges vertex rd
    (r.1, similar s, r.2)
  | direct s, vertex, rd =>
    let r := s.sample edges vertex rd
    (r.1, direct s, r.2)

/-- The class that `SamplerManager::init` chooses for a partition. -/
def chosen (g : Made) (l2CacheSize p : Nat) : SamplerClass :=
  if g.partitionSamplerClass[p]? = some .classExclusiveBufferSampler then
    .classExclusiveBufferSampler
  else if g.partitionMinDegree.getD p 0 = g.partitionMaxDegree.getD p 0 then
    .classUniformDegreeDirectSampler
  else if SimilarDegreeDirectSampler.valid p l2CacheSize g then .classSimilarDegreeDirectSampler
  else .classDirectSampler

/-- The sampler that `SamplerManager::init` installs for a partition. -/
def install (g : Made) (l2CacheSize p : Nat) : Option Sampler :=
  let adjlists := g.adjlists (partitionSocket g.socketNum p)
  let vertexBegin := g.partitionBegin p
  let vertexEnd := g.partitionEnd p
  match chosen g l2CacheSize p with
  | .classExclusiveBufferSampler =>
    some (exclusive (ExclusiveBufferSampler.init vertexBegin vertexEnd adjlists))
  | .classUniformDegreeDirectSampler =>
    some (uniform (UniformDegreeDirectSampler.init vertexBegin adjlists))
  | .classSimilarDegreeDirectSampler =>
    (SimilarDegreeDirectSampler.init vertexBegin vertexEnd adjlists).map similar
  | _ => some (direct ⟨adjlists⟩)

/-- `init` installs all samplers when each can be installed. -/
theorem exists_samplers {g : Made} {l2CacheSize : Nat}
    (h : ∀ p < g.partitionNum, (install g l2CacheSize p).isSome) : ∃ samplers : Nat → Sampler,
      ∀ p < g.partitionNum, install g l2CacheSize p = some (samplers p) := by
  refine ⟨fun p => (install g l2CacheSize p).getD (direct ⟨g.adjlists 0⟩),fun p hp => ?_⟩
  obtain ⟨smp,hsmp⟩ := Option.isSome_iff_exists.mp (h p hp)
  simp only [hsmp,Option.getD_some]

end Sampler

end FlashMob.Sampling
