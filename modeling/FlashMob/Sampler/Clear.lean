import FlashMob.Sampler.Serves

namespace FlashMob.Sampling
open FlashMob.Graph Lib.Tiling

namespace ExclusiveBufferSampler

/-- What `init`, `sample` and `clear` keep, also when the buffers are too long for 32 bits. -/
structure Framed (adj : Nat → AdjList) (b e : Nat) (s : ExclusiveBufferSampler) : Prop where
  adjlists : s.adjlists = adj
  vertexBegin : s.vertexBegin = b
  vertexEnd : s.vertexEnd = e
  ends : ∀ i, (s.headers i).end < 2 ^ 32

theorem initHeaders_end_lt (adj : Nat → AdjList) (b n i : Nat) :
    ((initHeaders adj b n).1 i).end < 2 ^ 32 := by
  induction n with
  | zero =>
    change 0 < 2 ^ 32
    exact Nat.two_pow_pos 32
  | succ n ih =>
    rw [initHeaders,List.range_succ,List.foldl_append,List.foldl_cons,List.foldl_nil,← initHeaders]
    dsimp only
    by_cases hi : i = n
    · subst hi
      rw [Function.update_self]
      exact u32_lt _
    · rwa [Function.update_of_ne hi]

theorem init_framed (b e : Nat) (adj : Nat → AdjList) : Framed adj b e (init b e adj) :=
  ⟨rfl,rfl,rfl,initHeaders_end_lt adj b (e - b)⟩

namespace Framed
variable {adj : Nat → AdjList} {b e : Nat} {s : ExclusiveBufferSampler} (h : Framed adj b e s)
include h

variable {ρ : Type} [RandGen ρ] (content : Slot → Nat)

/-- A header may move its head. -/
theorem setHeader (units : Nat → Nat) (idx head : Nat) : Framed adj b e { s with
    units := units, headers := Function.update s.headers idx ⟨head,(s.headers idx).end⟩ } := by
  refine ⟨h.adjlists,h.vertexBegin,h.vertexEnd,fun i => ?_⟩
  have hend : (Function.update s.headers idx ⟨head,(s.headers idx).end⟩ i).end =
      (s.headers i).end := by
    by_cases hi : i = idx
    · rw [hi,Function.update_self]
    · rw [Function.update_of_ne hi]
  exact hend ▸ h.ends i

theorem fill (v : Nat) (rd : ρ) : Framed adj b e (s.fill content v rd).1 := by
  rw [ExclusiveBufferSampler.fill]
  exact h.setHeader _ _ _

theorem sample (v : Nat) (rd : ρ) : Framed adj b e (s.sample content v rd).2.1 := by
  have hready : Framed adj b e (if (s.headers (u32Sub v s.vertexBegin)).head =
      (s.headers (u32Sub v s.vertexBegin)).end then s.fill content v rd else (s,rd)).1 := by
    split_ifs
    · exact h.fill content v rd
    · exact h
  rw [ExclusiveBufferSampler.sample]
  dsimp only
  generalize (if (s.headers (u32Sub v s.vertexBegin)).head =
    (s.headers (u32Sub v s.vertexBegin)).end then s.fill content v rd else (s,rd)) = st at hready ⊢
  exact hready.setHeader _ _ _

theorem clear (he : e ≤ 2 ^ 32) : Framed adj b e s.clear ∧
    ∀ i < e - b, (s.clear.headers i).head = (s.clear.headers i).end := by
  have hheaders : ∀ i, s.clear.headers i = if i < e - b
      then ⟨(s.headers i).end,(s.headers i).end⟩ else s.headers i := by
    intro i
    have hbegin := h.vertexBegin
    have hend := h.vertexEnd
    rcases Nat.le_total e b with hle | hle
    · rw [ExclusiveBufferSampler.clear,hend,hbegin,Nat.sub_eq_zero_of_le hle]
      rfl
    · rw [ExclusiveBufferSampler.clear,hend,hbegin]
      exact clear_loop s.headers b (e - b) (by omega) i
  refine ⟨⟨h.adjlists,h.vertexBegin,h.vertexEnd,fun i => ?_⟩,fun i hi => ?_⟩
  · have hend : (s.clear.headers i).end = (s.headers i).end := by
      rw [hheaders]
      split_ifs <;> rfl
    exact hend ▸ h.ends i
  · rw [hheaders,if_pos hi]

/-- From an empty buffer the sample is the first draw of the refill. -/
theorem sample_fresh {v : Nat} (hlo : b ≤ v) (hv : v < 2 ^ 32) (hdegree : (adj v).degree < 2 ^ 32)
    (hempty : (s.headers (v - b)).head = (s.headers (v - b)).end) (rd : ρ) :
    (s.sample content v rd).1 = (DirectSampler.sample content ⟨adj⟩ v rd).1 := by
  obtain rfl := h.adjlists
  have hidx : u32Sub v s.vertexBegin = v - b := by
    rw [h.vertexBegin]
    exact u32Sub_of_le hlo hv
  have hend := h.ends (v - b)
  have hpos := edgeBufferLength_pos hdegree
  have hlt := edgeBufferLength_lt hdegree
  have hlen : s.getEdgeBufferLength v = edgeBufferLength (s.adjlists v).degree := rfl
  -- The refill begins where the sample reads, although that place may have wrapped.
  obtain ⟨start,hstart⟩ : ∃ start,
      u32Sub (s.headers (v - b)).end (s.getEdgeBufferLength v) = start := ⟨_,rfl⟩
  obtain ⟨n,hn⟩ : ∃ n, u32Sub (s.headers (v - b)).head start = n + 1 := by
    refine Nat.exists_eq_succ_of_ne_zero ?_
    rw [hempty,← hstart,hlen]
    simp only [u32Sub,u32]
    omega
  obtain ⟨_,hvalues,_⟩ := fill_draws content (s.adjlists v) start (n + 1) s.units rd
  rw [ExclusiveBufferSampler.sample]
  dsimp only
  rw [hidx,if_pos hempty,fill_eq hidx hstart hn]
  dsimp only
  rw [Function.update_self]
  have hfirst : (draws content (s.adjlists v) rd (n + 1)).1.head? = some _ :=
    draws_head content rd n
  rw [← hvalues,List.range'_succ,List.map_cons,List.head?_cons] at hfirst
  exact Option.some.inj hfirst

end Framed

end ExclusiveBufferSampler

/-- `sampler_class`, which every constructor sets. -/
def Sampler.samplerClass : Sampler → SamplerClass
  | exclusive _ => .classExclusiveBufferSampler
  | uniform _ => .classUniformDegreeDirectSampler
  | similar _ => .classSimilarDegreeDirectSampler
  | direct _ => .classDirectSampler

theorem Sampler.install_class {made : Made} {l2CacheSize p : Nat} {smp : Sampler}
    (h : install made l2CacheSize p = some smp) : smp.samplerClass = chosen made l2CacheSize p := by
  rw [install] at h
  rw [chosen] at h ⊢
  split_ifs at h ⊢
  · obtain rfl := Option.some.inj h
    rfl
  · obtain rfl := Option.some.inj h
    rfl
  · obtain ⟨s,_,rfl⟩ := Option.map_eq_some_iff.mp h
    rfl
  · obtain rfl := Option.some.inj h
    rfl

theorem Sampler.sample_class {ρ : Type} [RandGen ρ] (content : Slot → Nat) (smp : Sampler)
    (v : Nat) (rd : ρ) : (smp.sample content v rd).2.1.samplerClass = smp.samplerClass := by
  cases smp <;> rfl

/-- The statistics and the cache size for which `init` takes the sampler of similar degrees. -/
theorem Sampler.chosen_similar_iff {made : Made} {l2CacheSize p : Nat} :
    chosen made l2CacheSize p = .classSimilarDegreeDirectSampler ↔
      made.partitionSamplerClass[p]? ≠ some .classExclusiveBufferSampler ∧
      made.partitionMinDegree.getD p 0 ≠ made.partitionMaxDegree.getD p 0 ∧
      SimilarDegreeDirectSampler.valid p l2CacheSize made := by
  rw [chosen]
  split_ifs with hclass hsame hvalid
  · simp only [hclass,ne_eq,not_true_eq_false,false_and]
  · simp only [hsame,ne_eq,not_true_eq_false,false_and,and_false]
  · exact ⟨fun _ => ⟨hclass,hsame,hvalid⟩,fun _ => rfl⟩
  · simp only [reduceCtorEq,hvalid,false_iff]
    rintro ⟨_,_,h⟩
    exact absurd h (by decide)

namespace SamplerManager

/-- The dispatch of `clear`; classes that are not named fail a `CHECK`. -/
def clearSampler (smp : Sampler) : Option Sampler :=
  match smp with
  | .exclusive s => some (.exclusive s.clear)
  | .direct s => some (.direct s)
  | .uniform s => some (.uniform s)
  | .similar _ => none

/-- `clear`, which ends the program when one of the samplers fails. -/
def clear (partitionNum : Nat) (samplers : Nat → Sampler) : Option (Nat → Sampler) :=
  if ∀ p < partitionNum, (clearSampler (samplers p)).isSome then
    some (fun p => if p < partitionNum then (clearSampler (samplers p)).getD (samplers p)
      else samplers p)
  else none

/-- A call of `sample` for a vertex of a partition, with the generator of its thread. -/
structure SampleCall (ρ : Type) where
  partition : Nat
  vertex : Nat
  rand : ρ

def sampleCall {ρ : Type} [RandGen ρ] (content : Slot → Nat) (samplers : Nat → Sampler)
    (c : SampleCall ρ) : Nat → Sampler :=
  Function.update samplers c.partition
    ((samplers c.partition).sample content c.vertex c.rand).2.1

/-- `clear` completes, and then every vertex with an edge buffer is sampled from fresh draws. -/
def Clears (ρ : Type) [RandGen ρ] (made : Made) (samplers : Nat → Sampler) : Prop :=
  ∃ cleared, clear made.partitionNum samplers = some cleared ∧
    ∀ p < made.partitionNum, (cleared p).samplerClass = .classExclusiveBufferSampler →
      ∃ s, cleared p = .exclusive s ∧
        ∀ v, made.partitionBegin p ≤ v → v < made.partitionEnd p →
          (s.headers (u32Sub v s.vertexBegin)).head = (s.headers (u32Sub v s.vertexBegin)).end ∧
          ∀ rd : ρ, ((cleared p).sample made.edges v rd).1 = (DirectSampler.sample made.edges
            ⟨made.adjlists (partitionSocket made.socketNum p)⟩ v rd).1

/-- What every installed sampler keeps while `sample` is called. -/
structure Kept (made : Made) (l2CacheSize p : Nat) (smp : Sampler) : Prop where
  samplerClass : smp.samplerClass = Sampler.chosen made l2CacheSize p
  framed : ∀ s, smp = .exclusive s →
    s.Framed (made.adjlists (partitionSocket made.socketNum p)) (made.partitionBegin p)
      (made.partitionEnd p)

theorem install_kept {made : Made} {l2CacheSize p : Nat} {smp : Sampler}
    (h : Sampler.install made l2CacheSize p = some smp) : Kept made l2CacheSize p smp := by
  refine ⟨Sampler.install_class h,?_⟩
  rintro s rfl
  have hclass := Sampler.install_class h
  rw [Sampler.install,← hclass] at h
  cases h
  exact ExclusiveBufferSampler.init_framed _ _ _

theorem Kept.sample {ρ : Type} [RandGen ρ] {made : Made} {l2CacheSize p : Nat} {smp : Sampler}
    (h : Kept made l2CacheSize p smp) (content : Slot → Nat) (v : Nat) (rd : ρ) :
    Kept made l2CacheSize p (smp.sample content v rd).2.1 := by
  refine ⟨(smp.sample_class content v rd).trans h.samplerClass,?_⟩
  cases smp with
  | exclusive s₀ =>
    rintro s hs
    cases hs
    exact (h.framed s₀ rfl).sample content v rd
  | uniform => rintro s hs; cases hs
  | similar => rintro s hs; cases hs
  | direct => rintro s hs; cases hs

theorem calls_kept {ρ : Type} [RandGen ρ] {made : Made} {l2CacheSize : Nat}
    {samplers : Nat → Sampler} (h : ∀ p < made.partitionNum, Kept made l2CacheSize p (samplers p))
    (content : Slot → Nat) (calls : List (SampleCall ρ)) :
    ∀ p < made.partitionNum,
      Kept made l2CacheSize p (calls.foldl (sampleCall content) samplers p) := by
  induction calls generalizing samplers with
  | nil => exact h
  | cons c calls ih =>
    refine ih (fun p hp => ?_)
    by_cases he : p = c.partition
    · subst he
      rw [sampleCall,Function.update_self]
      exact (h _ hp).sample content c.vertex c.rand
    · rw [sampleCall,Function.update_of_ne he]
      exact h p hp

/-- `clear` fails for one class of samplers. -/
theorem clearSampler_isSome_iff (smp : Sampler) :
    (clearSampler smp).isSome ↔ smp.samplerClass ≠ .classSimilarDegreeDirectSampler := by
  cases smp <;> simp [clearSampler,Sampler.samplerClass]

theorem clear_eq_some_iff {n : Nat} {samplers cleared : Nat → Sampler} :
    clear n samplers = some cleared ↔
      (∀ p < n, (samplers p).samplerClass ≠ .classSimilarDegreeDirectSampler) ∧
      cleared = fun p => if p < n then (clearSampler (samplers p)).getD (samplers p)
        else samplers p := by
  simp only [clear,clearSampler_isSome_iff]
  split_ifs with h
  · constructor
    · intro hc
      exact ⟨h,(Option.some.inj hc).symm⟩
    · rintro ⟨_,rfl⟩
      rfl
  · constructor
    · intro hc
      cases hc
    · intro hc
      exact absurd hc.1 h

end SamplerManager

/-- `clear` has no case for the sampler of similar degrees, which `init` installs when the degrees
of a partition differ little. -/
theorem clear_completes_iff {D ρ : Type} [RandGen ρ] {edges : List (Nat × Nat)}
    {asUndirected : Bool} {cfg : MultiThreadConfig} {hint : GraphHint D}
    {schedule : List (Nat × Nat) → List (Nat × Nat)} {g : Loaded} {made : Made}
    (hload : load edges asUndirected = some g) (hmake : make cfg hint schedule g = some made)
    (ht : Tiles 0 made.partitions made.vNum) (hsock : 0 < cfg.socketNum) (l2CacheSize : Nat)
    {samplers : Nat → Sampler} (hinit : ∀ p < made.partitionNum,
      Sampler.install made l2CacheSize p = some (samplers p))
    (calls : List (SamplerManager.SampleCall ρ)) :
    SamplerManager.Clears ρ made
        (calls.foldl (SamplerManager.sampleCall made.edges) samplers) ↔
      ∀ p < made.partitionNum,
        ¬ (made.partitionSamplerClass[p]? ≠ some .classExclusiveBufferSampler ∧
          made.partitionMinDegree.getD p 0 ≠ made.partitionMaxDegree.getD p 0 ∧
          SimilarDegreeDirectSampler.valid p l2CacheSize made) := by
  simp only [← Sampler.chosen_similar_iff]
  have hkept := SamplerManager.calls_kept
    (fun p hp => SamplerManager.install_kept (hinit p hp)) made.edges calls
  generalize calls.foldl (SamplerManager.sampleCall made.edges) samplers = after at hkept
  constructor
  · rintro ⟨cleared,hclear,_⟩ p hp
    rw [← (hkept p hp).samplerClass]
    exact (SamplerManager.clear_eq_some_iff.mp hclear).1 p hp
  · intro hclasses
    refine ⟨_,SamplerManager.clear_eq_some_iff.mpr ⟨fun p hp => ?_,rfl⟩,fun p hp hclass => ?_⟩
    · rw [(hkept p hp).samplerClass]
      exact hclasses p hp
    · obtain ⟨hend,hdegrees⟩ := make_degrees hload hmake ht hsock hp
      have hframed := (hkept p hp).framed
      simp only [if_pos hp] at hclass ⊢
      cases hs : after p with
      | exclusive s =>
        obtain ⟨hcleared,hempty⟩ := (hframed s hs).clear (Nat.le_of_lt hend)
        refine ⟨s.clear,rfl,fun v hlo hhi => ?_⟩
        have hv : v < 2 ^ 32 := Nat.lt_trans hhi hend
        have hidx : u32Sub v s.clear.vertexBegin = v - made.partitionBegin p := by
          rw [hcleared.vertexBegin]
          exact u32Sub_of_le hlo hv
        have hzero := hempty (v - made.partitionBegin p) (by omega)
        have huint : uintMax = 2 ^ 32 - 1 := rfl
        have hdegree := hdegrees v hlo hhi
        rw [hidx]
        exact ⟨hzero,fun rd => hcleared.sample_fresh made.edges hlo hv (by omega) hzero rd⟩
      | uniform s => rw [hs] at hclass; cases hclass
      | similar s => rw [hs] at hclass; cases hclass
      | direct s => rw [hs] at hclass; cases hclass

/-- An edge buffer and a direct sampler, each sampled before `clear`. -/
theorem clear_completes_one_edge :
    let hint : GraphHint Unit := ⟨0,2,[⟨0,1,0,1,(),(),0⟩,⟨1,2,0,1,(),(),0⟩],
      [.classExclusiveBufferSampler,.classDirectSampler]⟩
    let calls : List (SamplerManager.SampleCall XorRandGen) :=
      [⟨0,0,⟨1⟩⟩,⟨1,1,⟨2⟩⟩,⟨0,0,⟨3⟩⟩]
    ∃ g made samplers, load [(0,1)] true = some g ∧ make ⟨1,1,0⟩ hint id g = some made ∧
      (SamplerManager.Clears XorRandGen made
          (calls.foldl (SamplerManager.sampleCall made.edges) samplers) ↔
        ∀ p < made.partitionNum,
          ¬ (made.partitionSamplerClass[p]? ≠ some .classExclusiveBufferSampler ∧
            made.partitionMinDegree.getD p 0 ≠ made.partitionMaxDegree.getD p 0 ∧
            SimilarDegreeDirectSampler.valid p 0 made)) := by
  intro hint calls
  have hfacts : ((load [(0,1)] true).bind (make ⟨1,1,0⟩ hint id)).map
      (fun made => (made.partitions,made.vNum,(List.range made.partitionNum).all
        (fun p => (Sampler.install made 0 p).isSome))) = some ([(0,1),(1,2)],2,true) := by decide
  obtain ⟨made,hmade,hfacts⟩ := Option.map_eq_some_iff.mp hfacts
  obtain ⟨g,hg,hmade⟩ := Option.bind_eq_some_iff.mp hmade
  obtain ⟨hparts,hnum,hinstalls⟩ : made.partitions = [(0,1),(1,2)] ∧ made.vNum = 2 ∧
      (List.range made.partitionNum).all (fun p => (Sampler.install made 0 p).isSome) := by
    simpa only [Prod.mk.injEq] using hfacts
  obtain ⟨samplers,hinit⟩ := Sampler.exists_samplers
    (fun p hp => List.all_eq_true.mp hinstalls p (List.mem_range.mpr hp))
  have ht : Tiles 0 made.partitions made.vNum := by
    rw [hparts,hnum]
    exact ⟨rfl,by decide,rfl,by decide,rfl⟩
  exact ⟨g,made,samplers,hg,hmade,clear_completes_iff hg hmade ht (by decide) 0 hinit calls⟩

/-- Three parallel edges and a cache of 16 bytes: the recorded degrees of the first partition are
two and three, so it gets the sampler for similar degrees, and `clear` fails whatever was sampled
before. -/
theorem clear_not_completes :
    let hint : GraphHint Unit := ⟨0,2,[⟨0,1,0,1,(),(),0⟩,⟨1,2,0,1,(),(),0⟩],
      [.classDirectSampler,.classDirectSampler]⟩
    ∃ g made samplers, load [(0,1),(0,1),(0,1)] true = some g ∧
      make ⟨1,1,0⟩ hint id g = some made ∧
      (∀ p < made.partitionNum, Sampler.install made 16 p = some (samplers p)) ∧
      ∀ calls : List (SamplerManager.SampleCall XorRandGen),
        SamplerManager.clear made.partitionNum
          (calls.foldl (SamplerManager.sampleCall made.edges) samplers) = none ∧
        ¬ SamplerManager.Clears XorRandGen made
          (calls.foldl (SamplerManager.sampleCall made.edges) samplers) := by
  intro hint
  have hfacts : ((load [(0,1),(0,1),(0,1)] true).bind (make ⟨1,1,0⟩ hint id)).map
      (fun made => (made.partitionNum,Sampler.chosen made 16 0,(List.range made.partitionNum).all
        (fun p => (Sampler.install made 16 p).isSome))) =
      some (2,.classSimilarDegreeDirectSampler,true) := by decide
  obtain ⟨made,hmade,hfacts⟩ := Option.map_eq_some_iff.mp hfacts
  obtain ⟨g,hg,hmade⟩ := Option.bind_eq_some_iff.mp hmade
  obtain ⟨hpnum,hchosen,hinstalls⟩ : made.partitionNum = 2 ∧
      Sampler.chosen made 16 0 = .classSimilarDegreeDirectSampler ∧
      (List.range made.partitionNum).all (fun p => (Sampler.install made 16 p).isSome) := by
    simpa only [Prod.mk.injEq] using hfacts
  obtain ⟨samplers,hinit⟩ := Sampler.exists_samplers
    (fun p hp => List.all_eq_true.mp hinstalls p (List.mem_range.mpr hp))
  refine ⟨g,made,samplers,hg,hmade,hinit,fun calls => ?_⟩
  have hkept := SamplerManager.calls_kept
    (fun p hp => SamplerManager.install_kept (hinit p hp)) made.edges calls 0 (by omega)
  have hnone : SamplerManager.clear made.partitionNum
      (calls.foldl (SamplerManager.sampleCall made.edges) samplers) = none := by
    refine Option.eq_none_iff_forall_ne_some.mpr (fun cleared hclear => ?_)
    exact (SamplerManager.clear_eq_some_iff.mp hclear).1 0 (by omega)
      (hkept.samplerClass.trans hchosen)
  refine ⟨hnone,?_⟩
  rintro ⟨cleared,hclear,_⟩
  exact absurd (hnone.symm.trans hclear) (Option.some_ne_none cleared).symm

end FlashMob.Sampling
