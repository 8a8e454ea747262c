import FlashMob.Sampler.Direct

namespace FlashMob.Sampling
open FlashMob.Graph Lib.Loops

def partitionDegrees (made : Made) (p : Nat) : List Nat :=
  (vertices (made.partitionBegin p,made.partitionEnd p)).map (fun v => (made.adjlists 0 v).degree)

/-- What `make` records about a partition is true. -/
structure StatisticsExact (made : Made) (p : Nat) : Prop where
  maxDegree : IsGreatest {d | d ∈ partitionDegrees made p} (made.partitionMaxDegree.getD p 0)
  minDegree : IsLeast {d | d ∈ partitionDegrees made p} (made.partitionMinDegree.getD p 0)
  edgeNum : made.partitionEdgeNum.getD p 0 = (partitionDegrees made p).sum

/-- The sampler for equal degrees is installed for partitions of equal degrees. -/
def SelectsUniform (made : Made) (l2CacheSize p : Nat) : Prop :=
  made.partitionSamplerClass[p]? ≠ some .classExclusiveBufferSampler →
    ((∃ s, Sampler.install made l2CacheSize p = some (.uniform s)) ↔
      ∀ d ∈ partitionDegrees made p, ∀ d' ∈ partitionDegrees made p, d = d')

theorem install_uniform_iff {made : Made} {l2CacheSize p : Nat}
    (hclass : made.partitionSamplerClass[p]? ≠ some .classExclusiveBufferSampler) :
    (∃ s, Sampler.install made l2CacheSize p = some (.uniform s)) ↔
      made.partitionMinDegree.getD p 0 = made.partitionMaxDegree.getD p 0 := by
  rw [Sampler.install,Sampler.chosen,if_neg hclass]
  by_cases heq : made.partitionMinDegree.getD p 0 = made.partitionMaxDegree.getD p 0
  · rw [if_pos heq]
    exact ⟨fun _ => heq,fun _ => ⟨_,rfl⟩⟩
  · rw [if_neg heq]
    refine ⟨?_,fun h => absurd h heq⟩
    rintro ⟨s,hs⟩
    split_ifs at hs
    · obtain ⟨_,_,hs⟩ := Option.map_eq_some_iff.mp hs
      cases hs
    · cases hs

theorem StatisticsExact.selectsUniform {made : Made} {p : Nat} (h : StatisticsExact made p)
    (l2CacheSize : Nat) : SelectsUniform made l2CacheSize p := by
  intro hclass
  rw [install_uniform_iff hclass]
  constructor
  · intro heq d hd d' hd'
    have hlo := h.minDegree.2 hd
    have hhi := h.maxDegree.2 hd
    have hlo' := h.minDegree.2 hd'
    have hhi' := h.maxDegree.2 hd'
    omega
  · intro hsame
    exact hsame _ h.minDegree.1 _ h.maxDegree.1

section
variable {D : Type} {cfg : MultiThreadConfig} {hint : GraphHint D}
  {schedule : List (Nat × Nat) → List (Nat × Nat)} {g : Loaded} {made : Made}
  (hmake : make cfg hint schedule g = some made) (hsock : 0 < cfg.socketNum) {p : Nat}
  (hp : p < made.partitionNum)
include hmake hsock hp

theorem make_statistics :
    made.partitionMaxDegree.getD p 0 =
        (partitionDegrees made p).foldl (fun m d => max m d) 0 ∧
      made.partitionMinDegree.getD p 0 =
        (partitionDegrees made p).foldl (fun m d => min m d) made.vNum ∧
      made.partitionEdgeNum.getD p 0 = (partitionDegrees made p).sum := by
  obtain ⟨rows,k,units,_,_,_,rfl⟩ := make_cases hmake
  have hlt : p < rows.flatten.length := hp
  have hdegrees : partitionDegrees (assemble cfg hint schedule g rows.flatten k units) p =
      (vertices rows.flatten[p]).map (fun v => (units v).degree) := by
    rw [partitionDegrees,Made.partitionBegin,Made.partitionEnd]
    simp only [assemble,adjTables_eq _ _ hsock]
    rw [List.getD_eq_getElem _ _ hlt]
  rw [hdegrees,List.foldl_map,List.foldl_map]
  refine ⟨?_,?_,?_⟩
  all_goals
    rw [List.getD_eq_getElem _ _ (by simpa only [assemble,List.length_map] using hlt)]
    simp only [assemble,List.getElem_map]

theorem statisticsExact_iff :
    StatisticsExact made p ↔ ∃ d ∈ partitionDegrees made p, d ≤ made.vNum := by
  obtain ⟨hmax,hmin,hedges⟩ := make_statistics hmake hsock hp
  have hgreatest := foldl_max_isGreatest_iff id (partitionDegrees made p)
  have hleast := foldl_min_isLeast_iff id (partitionDegrees made p) made.vNum
  simp only [id_eq,exists_eq_right] at hgreatest hleast
  constructor
  · intro h
    have := h.minDegree
    rw [hmin] at this
    exact hleast.mp this
  · rintro ⟨d,hd,hle⟩
    refine ⟨?_,?_,hedges⟩
    · rw [hmax]
      exact hgreatest.mpr (List.ne_nil_of_mem hd)
    · rw [hmin]
      exact hleast.mpr ⟨d,hd,hle⟩

end

/-- The smallest degree is looked for from `v_num` on, which in a graph with parallel edges can be
less than all degrees of a partition. -/
theorem statistics_exact_iff {D : Type} {cfg : MultiThreadConfig} {hint : GraphHint D}
    {schedule : List (Nat × Nat) → List (Nat × Nat)} {g : Loaded} {made : Made}
    (hmake : make cfg hint schedule g = some made) (hsock : 0 < cfg.socketNum) {p : Nat}
    (hp : p < made.partitionNum) :
    (StatisticsExact made p ∧ ∀ l2CacheSize, SelectsUniform made l2CacheSize p) ↔
      ∃ d ∈ partitionDegrees made p, d ≤ made.vNum := by
  rw [← statisticsExact_iff hmake hsock hp]
  exact ⟨fun h => h.1,fun h => ⟨h,h.selectsUniform⟩⟩

/-- A star with three leaves in two partitions of two vertices, one of them of two leaves. -/
theorem statistics_exact_star :
    let hint : GraphHint Unit := ⟨1,2,[⟨0,2,1,1,(),(),0⟩,⟨2,4,1,1,(),(),0⟩],
      [.classDirectSampler,.classDirectSampler]⟩
    ∃ g made, load [(5,6),(5,7),(5,8)] true = some g ∧ make ⟨1,1,0⟩ hint id g = some made ∧
      partitionDegrees made 0 = [3,1] ∧ partitionDegrees made 1 = [1,1] ∧
      ∀ p < 2, StatisticsExact made p ∧ ∀ l2CacheSize, SelectsUniform made l2CacheSize p := by
  intro hint
  have hfacts : ((load [(5,6),(5,7),(5,8)] true).bind (make ⟨1,1,0⟩ hint id)).map
      (fun made => (made.partitionNum,made.vNum,partitionDegrees made 0,partitionDegrees made 1)) =
      some (2,4,[3,1],[1,1]) := by decide
  obtain ⟨made,hmade,hfacts⟩ := Option.map_eq_some_iff.mp hfacts
  obtain ⟨g,hg,hmade⟩ := Option.bind_eq_some_iff.mp hmade
  simp only [Prod.mk.injEq] at hfacts
  obtain ⟨hnum,hv,hfirst,hsecond⟩ := hfacts
  refine ⟨g,made,hg,hmade,hfirst,hsecond,fun p hp => ?_⟩
  refine (statistics_exact_iff hmade (by decide) (hnum ▸ hp)).mpr ?_
  obtain rfl | rfl : p = 0 ∨ p = 1 := by omega
  · exact ⟨3,by rw [hfirst]; decide,by omega⟩
  · exact ⟨1,by rw [hsecond]; decide,by omega⟩

/-- Three parallel edges: both vertices have degree three in a graph of two vertices, and neither
partition of one vertex gets the sampler for equal degrees. -/
theorem statistics_not_exact :
    let hint : GraphHint Unit := ⟨0,2,[⟨0,1,0,1,(),(),0⟩,⟨1,2,0,1,(),(),0⟩],
      [.classDirectSampler,.classDirectSampler]⟩
    ∃ g made, load [(0,1),(0,1),(0,1)] true = some g ∧ make ⟨1,1,0⟩ hint id g = some made ∧
      partitionDegrees made 0 = [3] ∧ made.partitionMinDegree.getD 0 0 = 2 ∧
      ¬ StatisticsExact made 0 ∧ ¬ SelectsUniform made 0 0 := by
  intro hint
  have hfacts : ((load [(0,1),(0,1),(0,1)] true).bind (make ⟨1,1,0⟩ hint id)).map
      (fun made => (partitionDegrees made 0,made.partitionMinDegree.getD 0 0,
        made.partitionMaxDegree.getD 0 0,made.partitionSamplerClass)) =
      some ([3],2,3,[.classDirectSampler,.classDirectSampler]) := by decide
  obtain ⟨made,hmade,hfacts⟩ := Option.map_eq_some_iff.mp hfacts
  obtain ⟨g,hg,hmade⟩ := Option.bind_eq_some_iff.mp hmade
  obtain ⟨hdegrees,hmin,hmax,hclasses⟩ : partitionDegrees made 0 = [3] ∧
      made.partitionMinDegree.getD 0 0 = 2 ∧ made.partitionMaxDegree.getD 0 0 = 3 ∧
      made.partitionSamplerClass = [.classDirectSampler,.classDirectSampler] := by
    simpa only [Prod.mk.injEq] using hfacts
  refine ⟨g,made,hg,hmade,hdegrees,hmin,fun h => ?_,fun h => ?_⟩
  · have hleast := h.minDegree.1
    rw [hmin,hdegrees] at hleast
    exact absurd (List.mem_singleton.mp hleast) (by decide)
  · have hclass : made.partitionSamplerClass[0]? ≠ some .classExclusiveBufferSampler := by
      rw [hclasses]
      decide
    have huniform := (h hclass).mpr (fun d hd d' hd' => by
      rw [hdegrees] at hd hd'
      rw [List.mem_singleton.mp hd,List.mem_singleton.mp hd'])
    rw [install_uniform_iff hclass,hmin,hmax] at huniform
    exact absurd huniform (by decide)

end FlashMob.Sampling
