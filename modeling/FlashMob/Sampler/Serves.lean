import FlashMob.Sampler.Queue
import FlashMob.Sampler.Direct

namespace FlashMob.Sampling
open FlashMob.Graph Lib.Tiling

namespace Sampler

/-- What every installed sampler keeps: for the vertices from `b` to `e` it samples from the
lists `adj`. -/
def Serves (ρ : Type) [RandGen ρ] (content : Slot → Nat) (adj : Nat → AdjList) (b e : Nat) :
    Sampler → Prop
  | exclusive s => s.Buffered content adj b e
  | uniform s => ∀ v, b ≤ v → v < e → ∀ rd : ρ,
      s.sample content v rd = DirectSampler.sample content ⟨adj⟩ v rd
  | similar s => ∀ v, b ≤ v → v < e → ∀ rd : ρ,
      s.sample content v rd = DirectSampler.sample content ⟨adj⟩ v rd
  | direct s => s.adjlists = adj

theorem Serves.sample {ρ : Type} [RandGen ρ] {content : Slot → Nat} {adj : Nat → AdjList}
    {b e : Nat} {smp : Sampler} (h : smp.Serves ρ content adj b e) {v : Nat} (hlo : b ≤ v)
    (hhi : v < e) (hpos : 0 < (adj v).degree) (hdegree : (adj v).degree < 2 ^ 32) (rd : ρ) :
    (smp.sample content v rd).1 ∈ readList content (adj v) ∧
      (smp.sample content v rd).2.1.Serves ρ content adj b e := by
  cases smp with
  | exclusive s =>
    obtain ⟨hmem,hnext⟩ := ExclusiveBufferSampler.Buffered.sample_buffered h hlo hhi hpos hdegree rd
    exact ⟨hmem,hnext⟩
  | uniform s =>
    have hdirect := h v hlo hhi rd
    refine ⟨?_,h⟩
    rw [Sampler.sample,hdirect]
    exact mem_readList content hpos rd
  | similar s =>
    have hdirect := h v hlo hhi rd
    refine ⟨?_,h⟩
    rw [Sampler.sample,hdirect]
    exact mem_readList content hpos rd
  | direct s =>
    obtain rfl : s.adjlists = adj := h
    exact ⟨mem_readList content hpos rd,rfl⟩

theorem Serves.returns {ρ : Type} [RandGen ρ] {content : Slot → Nat} {adj : Nat → AdjList}
    {b e : Nat} {smp : Sampler} (h : smp.Serves ρ content adj b e) {v : Nat}
    (hflush : (adj v).degree + 16 ≤ 2 ^ 32) : smp.returns v = true := by
  cases smp with
  | exclusive s =>
    obtain rfl := ExclusiveBufferSampler.Buffered.adjlists h
    rw [Sampler.returns,ExclusiveBufferSampler.returns,(flushEnds_iff _).mpr hflush,Bool.or_true]
  | uniform | similar | direct => rfl

/-- The edges and the edge buffers of a partition can be counted in 32 bits. -/
structure Fits (made : Made) (p : Nat) : Prop where
  edges : made.partitionEdgeNum.getD p 0 < 2 ^ 32
  buffers : (ExclusiveBufferSampler.init (made.partitionBegin p) (made.partitionEnd p)
    (made.adjlists (partitionSocket made.socketNum p))).bufferUnitNum < 2 ^ 32

theorem install_serves {D : Type} {edges : List (Nat × Nat)} {asUndirected : Bool}
    {cfg : MultiThreadConfig} {hint : GraphHint D}
    {schedule : List (Nat × Nat) → List (Nat × Nat)} {g : Loaded} {made : Made}
    (hload : load edges asUndirected = some g) (hmake : make cfg hint schedule g = some made)
    (ht : Tiles 0 made.partitions made.vNum) (hsock : 0 < cfg.socketNum) {p : Nat}
    (hp : p < made.partitionNum) (hne : made.partitionBegin p < made.partitionEnd p)
    (hfits : Fits made p) (ρ : Type) [RandGen ρ] (content : Slot → Nat) (l2CacheSize : Nat) :
    ∃ smp, install made l2CacheSize p = some smp ∧
      smp.Serves ρ content (made.adjlists (partitionSocket made.socketNum p))
        (made.partitionBegin p) (made.partitionEnd p) := by
  have hpacked := make_packed hload hmake ht hsock hp hfits.edges
  cases hchosen : chosen made l2CacheSize p with
  | classExclusiveBufferSampler =>
    refine ⟨_,by rw [install,hchosen],?_⟩
    exact ExclusiveBufferSampler.init_buffered content hpacked.bound hfits.buffers
  | classUniformDegreeDirectSampler =>
    obtain ⟨s,hinstall,hsample⟩ :=
      install_uniform hload hmake ht hsock hp hfits.edges hne l2CacheSize hchosen
    exact ⟨_,hinstall,hsample content⟩
  | classSimilarDegreeDirectSampler =>
    obtain ⟨s,hinstall,_,_,hrec⟩ :=
      install_similar hload hmake ht hsock hp hne l2CacheSize hchosen
    exact ⟨_,hinstall,fun v hlo hhi rd =>
      (SimilarDegreeDirectSampler.sample_eq hpacked hrec content hlo hhi rd).2⟩
  | classDirectSampler | classSamplerHintNum | classBaseSampler =>
    refine ⟨direct ⟨made.adjlists (partitionSocket made.socketNum p)⟩,?_,rfl⟩
    rw [install,hchosen]

end Sampler

end FlashMob.Sampling
