import FlashMob.Partition.Plans
import FlashMob.Sampler.Clear

namespace FlashMob.Sampling
open FlashMob.Graph FlashMob.Partition Lib.Tiling

theorem edgeIndex_eq_iff {a d v r : Nat} (hlo : a ≤ v) (hv : v < 2 ^ 32) :
    edgeIndex a d v r = (v - a) * d + r ↔ (v - a) * d + r < 2 ^ 32 := by
  rw [edgeIndex,u32Sub_of_le hlo hv]
  constructor
  · intro h
    rw [← h]
    exact u32_lt _
  · intro h
    rw [u32_of_lt (Nat.lt_of_le_of_lt (Nat.le_add_right _ _) h),u32_of_lt h]

/-- The last index of a run of equal degrees decides for all of them. -/
theorem run_exact_iff {a e d : Nat} (hne : a < e) (hd : 0 < d) (he : e ≤ 2 ^ 32) :
    (∀ v, a ≤ v → v < e → ∀ r < d, edgeIndex a d v r = (v - a) * d + r) ↔
      (e - a) * d ≤ 2 ^ 32 := by
  obtain ⟨n,rfl⟩ : ∃ n, e = a + n + 1 := ⟨e - a - 1,by omega⟩
  rw [show a + n + 1 - a = n + 1 by omega,Nat.add_mul,Nat.one_mul]
  constructor
  · intro h
    have hlast := (edgeIndex_eq_iff (Nat.le_add_right a n) (by omega)).mp
      (h (a + n) (by omega) (by omega) (d - 1) (by omega))
    rw [Nat.add_sub_cancel_left] at hlast
    omega
  · intro h v hlo hhi r hr
    refine (edgeIndex_eq_iff hlo (by omega)).mpr ?_
    have hle : (v - a) * d ≤ n * d := Nat.mul_le_mul_right d (by omega)
    omega

/-- The number of vertices of a range that have this degree. -/
def degreeCount (adj : Nat → AdjList) (b e d : Nat) : Nat :=
  ((Finset.Ico b e).filter (fun v => (adj v).degree = d)).card

theorem degreeCount_pos {adj : Nat → AdjList} {b e d : Nat} (h : 0 < degreeCount adj b e d) :
    ∃ v, b ≤ v ∧ v < e ∧ (adj v).degree = d := by
  obtain ⟨v,hv⟩ := Finset.card_pos.mp h
  obtain ⟨hin,hdegree⟩ := Finset.mem_filter.mp hv
  exact ⟨v,(Finset.mem_Ico.mp hin).1,(Finset.mem_Ico.mp hin).2,hdegree⟩

/-- A bound on the edges of a degree is one for the degrees that there are. -/
theorem degreeCount_mul_le_iff {adj : Nat → AdjList} {b e bound : Nat} :
    (∀ d, degreeCount adj b e d * d ≤ bound) ↔ ∀ v, b ≤ v → v < e →
      degreeCount adj b e (adj v).degree * (adj v).degree ≤ bound := by
  refine ⟨fun h v _ _ => h _,fun h d => ?_⟩
  rcases Nat.eq_zero_or_pos (degreeCount adj b e d) with hzero | hpos
  · rw [hzero,Nat.zero_mul]
    exact Nat.zero_le _
  · obtain ⟨v,hlo,hhi,rfl⟩ := degreeCount_pos hpos
    exact h v hlo hhi

theorem degreeCount_const {adj : Nat → AdjList} {b e d : Nat}
    (h : ∀ v, b ≤ v → v < e → (adj v).degree = d) : degreeCount adj b e d = e - b := by
  rw [degreeCount,Finset.filter_true_of_mem,Nat.card_Ico]
  intro v hv
  exact h v (Finset.mem_Ico.mp hv).1 (Finset.mem_Ico.mp hv).2

/-- The vertices of a degree are those of its hint. -/
theorem Recorded.degreeCount_eq {adj : Nat → AdjList} {b e : Nat} {s : SimilarDegreeDirectSampler}
    (h : Recorded adj b e s.hints) {q : AdjHint} (hq : q ∈ s.hints) :
    degreeCount adj b e q.degree = q.vertexEnd - q.vertexBegin := by
  have hin := h.tiles.mem_bounds (List.mem_map_of_mem hq)
  have hfilter : (Finset.Ico b e).filter (fun v => (adj v).degree = q.degree) =
      Finset.Ico q.vertexBegin q.vertexEnd := by
    ext v
    simp only [Finset.mem_filter,Finset.mem_Ico]
    constructor
    · rintro ⟨⟨hlo,hhi⟩,hdegree⟩
      obtain ⟨q',hq',_,hb,he⟩ := SimilarDegreeDirectSampler.findHint_recorded h hlo hhi
      have hsame := (h.describes q' hq').degree v hb he
      obtain rfl := List.inj_on_of_nodup_map h.degrees_nodup hq' hq (hsame.symm.trans hdegree)
      exact ⟨hb,he⟩
    · rintro ⟨hlo,hhi⟩
      refine ⟨⟨Nat.le_trans hin.1 hlo,Nat.lt_of_lt_of_le hhi hin.2.2⟩,?_⟩
      exact (h.describes q hq).degree v hlo hhi
  rw [degreeCount,hfilter,Nat.card_Ico]

namespace Sampler

/-- The positions that a sampler for the vertices from `b` to `e` computes in 32 bits are exact:
the ends of the edge buffers, and the indices for every random number. -/
def Exact (b e : Nat) : Sampler → Prop
  | exclusive s =>
    (∀ i < e - b, (s.headers i).end = bufferBegin s.adjlists s.vertexBegin (i+1)) ∧
      (b < e → (s.headers (e - b - 1)).end = s.bufferUnitNum)
  | uniform s => ∀ v, b ≤ v → v < e → ∀ r < s.degree,
      edgeIndex s.vertexBegin s.degree v r = (v - s.vertexBegin) * s.degree + r
  | similar s => ∀ v, b ≤ v → v < e → ∃ q, s.findHint v = some q ∧ ∀ r < q.degree,
      edgeIndex q.vertexBegin q.degree v r = (v - q.vertexBegin) * q.degree + r
  | direct _ => True

theorem exclusive_exact_iff {adj : Nat → AdjList} {b e : Nat} (hne : b < e) :
    (exclusive (ExclusiveBufferSampler.init b e adj)).Exact b e ↔
      bufferBegin adj b (e - b) < 2 ^ 32 := by
  obtain ⟨n,hn⟩ : ∃ n, e - b = n + 1 := ⟨e - b - 1,by omega⟩
  have hheaders : (ExclusiveBufferSampler.init b e adj).headers =
      (ExclusiveBufferSampler.initHeaders adj b (e - b)).1 := rfl
  have htotal : (ExclusiveBufferSampler.init b e adj).bufferUnitNum = bufferBegin adj b (e - b) :=
    rfl
  constructor
  · rintro ⟨_,hlast⟩
    have hend := (ExclusiveBufferSampler.init_framed b e adj).ends (e - b - 1)
    rwa [hlast hne,htotal] at hend
  · intro hfit
    obtain ⟨_,hexact⟩ := ExclusiveBufferSampler.initHeaders_eq hfit
    refine ⟨fun i hi => ?_,fun _ => ?_⟩
    · rw [hheaders,hexact i hi]
      rfl
    · rw [hheaders,hexact (e - b - 1) (by omega),htotal,hn]
      rfl

theorem uniform_exact_iff {adj : Nat → AdjList} {b e : Nat} (hne : b < e) (he : e < 2 ^ 32)
    (hranked : Ranked adj b e) (hd : ∀ v, b ≤ v → v < e → (adj v).degree = (adj b).degree) :
    (uniform (UniformDegreeDirectSampler.init b adj)).Exact b e ↔
      ∀ d, degreeCount adj b e d * d ≤ 2 ^ 32 := by
  have hcount := degreeCount_const hd
  have hrun := run_exact_iff hne (hranked.positive b (Nat.le_refl b) hne) (Nat.le_of_lt he)
  rw [degreeCount_mul_le_iff]
  constructor
  · intro h v hlo hhi
    rw [hd v hlo hhi,hcount]
    exact hrun.mp h
  · intro h
    have hfit := h b (Nat.le_refl b) hne
    rw [hcount] at hfit
    exact hrun.mpr hfit

theorem similar_exact_iff {adj : Nat → AdjList} {b e : Nat} (he : e < 2 ^ 32)
    (hranked : Ranked adj b e) {s : SimilarDegreeDirectSampler} (hs : Recorded adj b e s.hints) :
    (similar s).Exact b e ↔ ∀ d, degreeCount adj b e d * d ≤ 2 ^ 32 := by
  have hrun : ∀ q ∈ s.hints, (∀ v, q.vertexBegin ≤ v → v < q.vertexEnd → ∀ r < q.degree,
      edgeIndex q.vertexBegin q.degree v r = (v - q.vertexBegin) * q.degree + r) ↔
      degreeCount adj b e q.degree * q.degree ≤ 2 ^ 32 := by
    intro q hq
    have hdesc := hs.describes q hq
    have hin := hs.tiles.mem_bounds (List.mem_map_of_mem hq)
    have hpos : 0 < q.degree := by
      rw [← hdesc.degree _ (Nat.le_refl _) hdesc.nonempty]
      exact hranked.positive _ hin.1 (Nat.lt_of_lt_of_le hdesc.nonempty hin.2.2)
    rw [hs.degreeCount_eq hq]
    exact run_exact_iff hdesc.nonempty hpos (Nat.le_trans hin.2.2 (Nat.le_of_lt he))
  rw [degreeCount_mul_le_iff]
  constructor
  · intro h v hlo hhi
    obtain ⟨q,hq,_,hb,hqe⟩ := SimilarDegreeDirectSampler.findHint_recorded hs hlo hhi
    have hin := hs.tiles.mem_bounds (List.mem_map_of_mem hq)
    rw [(hs.describes q hq).degree v hb hqe]
    refine (hrun q hq).mp (fun w hw hwe r hr => ?_)
    -- Every vertex of the run finds a hint of the same degree, which is the same hint.
    obtain ⟨q',hfind,hexact⟩ := h w (Nat.le_trans hin.1 hw) (Nat.lt_of_lt_of_le hwe hin.2.2)
    obtain ⟨q'',hq'',hfind',hb',he'⟩ := SimilarDegreeDirectSampler.findHint_recorded hs
      (Nat.le_trans hin.1 hw) (Nat.lt_of_lt_of_le hwe hin.2.2)
    obtain rfl := Option.some.inj (hfind.symm.trans hfind')
    have hsame := ((hs.describes q' hq'').degree w hb' he').symm.trans
      ((hs.describes q hq).degree w hw hwe)
    obtain rfl := List.inj_on_of_nodup_map hs.degrees_nodup hq'' hq hsame
    exact hexact r hr
  · intro h v hlo hhi
    obtain ⟨q,hq,hfind,hb,hqe⟩ := SimilarDegreeDirectSampler.findHint_recorded hs hlo hhi
    have hfit := h v hlo hhi
    rw [(hs.describes q hq).degree v hb hqe] at hfit
    exact ⟨q,hfind,(hrun q hq).mpr hfit v hb hqe⟩

end Sampler

/-- `init` installs a sampler for partition `p`, and its positions are exact. -/
def PositionsExact (made : Made) (l2CacheSize p : Nat) : Prop :=
  ∃ smp, Sampler.install made l2CacheSize p = some smp ∧
    smp.Exact (made.partitionBegin p) (made.partitionEnd p)

/-- What has to fit 32 bits: the edge buffers of the partition together, or the lists of the
vertices of one degree together. -/
def PositionsFit (made : Made) (l2CacheSize p : Nat) : Prop :=
  let adj := made.adjlists (partitionSocket made.socketNum p)
  match Sampler.chosen made l2CacheSize p with
  | .classExclusiveBufferSampler =>
    bufferBegin adj (made.partitionBegin p) (made.partitionEnd p - made.partitionBegin p) < 2 ^ 32
  | .classUniformDegreeDirectSampler | .classSimilarDegreeDirectSampler =>
    ∀ d, degreeCount adj (made.partitionBegin p) (made.partitionEnd p) d * d ≤ 2 ^ 32
  | _ => True

theorem positionsExact_exclusive_iff {made : Made} {l2CacheSize p : Nat}
    (hne : made.partitionBegin p < made.partitionEnd p)
    (hchosen : Sampler.chosen made l2CacheSize p = .classExclusiveBufferSampler) :
    PositionsExact made l2CacheSize p ↔
      bufferBegin (made.adjlists (partitionSocket made.socketNum p)) (made.partitionBegin p)
        (made.partitionEnd p - made.partitionBegin p) < 2 ^ 32 := by
  have hinstall : Sampler.install made l2CacheSize p = some (.exclusive
      (ExclusiveBufferSampler.init (made.partitionBegin p) (made.partitionEnd p)
        (made.adjlists (partitionSocket made.socketNum p)))) := by
    rw [Sampler.install,hchosen]
  rw [← Sampler.exclusive_exact_iff hne]
  constructor
  · rintro ⟨smp,hsmp,hexact⟩
    obtain rfl := Option.some.inj (hinstall.symm.trans hsmp)
    exact hexact
  · exact fun hexact => ⟨_,hinstall,hexact⟩

/-- The sizes of a plan do not keep the positions below 32 bits: they are exact when the buffers or
the lists of equal length fit. -/
theorem positions_exact_iff {D : Type} [Floating D] {edges : List (Nat × Nat)}
    {asUndirected : Bool} {walkerPerEdge : D} {cfg : MultiThreadConfig}
    {costs : Nat → List (Nat × List (SampleEstimation D))} {hint : GraphHint D}
    {schedule : List (Nat × Nat) → List (Nat × Nat)} {g : Loaded} {made : Made}
    (hload : load edges asUndirected = some g)
    (hhint : getPartitionHint walkerPerEdge g cfg costs = some hint)
    (hmake : make cfg hint schedule g = some made) (hsock : 0 < cfg.socketNum) {p : Nat}
    (hp : p < made.partitionNum) (l2CacheSize : Nat) :
    PositionsExact made l2CacheSize p ↔ PositionsFit made l2CacheSize p := by
  obtain ⟨ht,hplanned⟩ := made_planned hhint (load_sorted hload).vNum_lt hmake
  obtain ⟨hne,_⟩ := hplanned p hp
  have hranked := make_ranked hload hmake ht hsock hp
  have hend := (make_degrees hload hmake ht hsock hp).1
  cases hchosen : Sampler.chosen made l2CacheSize p with
  | classExclusiveBufferSampler =>
    simp only [PositionsFit,hchosen]
    exact positionsExact_exclusive_iff hne hchosen
  | classUniformDegreeDirectSampler =>
    simp only [PositionsFit,hchosen]
    rw [← Sampler.uniform_exact_iff hne hend hranked (fun v hlo hhi =>
      uniform_degrees hload hmake ht hsock hp hchosen hlo hhi (Nat.le_refl _) hne)]
    rw [PositionsExact,Sampler.install,hchosen]
    simp only [Option.some.injEq,exists_eq_left']
  | classSimilarDegreeDirectSampler =>
    simp only [PositionsFit,hchosen]
    obtain ⟨s,hinstall,_,_,hrec⟩ := install_similar hload hmake ht hsock hp hne l2CacheSize hchosen
    rw [← Sampler.similar_exact_iff hend hranked hrec,PositionsExact,hinstall]
    simp only [Option.some.injEq,exists_eq_left']
  | classDirectSampler | classSamplerHintNum | classBaseSampler =>
    simp only [PositionsFit,hchosen,iff_true]
    exact ⟨.direct ⟨_⟩,by rw [Sampler.install,hchosen],trivial⟩

def pairCosts : Nat → List (Nat × List (SampleEstimation ℚ)) := fun bits => if bits = 1 then
  [(2000,[⟨.classExclusiveBufferSampler,3⟩,⟨.classUniformDegreeDirectSampler,4⟩])] else []

/-- In 65 pairs with `m` edges each, every partition is one pair, with buffers. -/
theorem exists_made_pairs {m : Nat} (hm : 0 < m) (hsmall : m < 2 ^ 32 - 1) :
    ∃ g hint made, load (parallelMatching 65 m) true = some g ∧
      getPartitionHint 1 g ⟨1,1,0⟩ pairCosts = some hint ∧ make ⟨1,1,0⟩ hint id g = some made ∧
      0 < made.partitionNum ∧ made.partitionEnd 0 = made.partitionBegin 0 + 2 ∧
      made.partitionSamplerClass[0]? = some .classExclusiveBufferSampler ∧
      ∀ v, made.partitionBegin 0 ≤ v → v < made.partitionEnd 0 →
        (made.adjlists (partitionSocket made.socketNum 0) v).degree = m := by
  obtain ⟨g,hload,hv,hdegrees⟩ := load_parallelMatching (n := 65) (m := m) (by decide) hm hsmall
  have hbits : chooseGroupBits g.vNum = 1 := by
    rw [hv]
    decide
  have hsizes : ∀ bits, pairCosts bits ≠ [] → bits = 1 := by
    intro bits hmenu
    by_contra hother
    exact hmenu (if_neg hother)
  have hfirst : ∀ bits, BufferFirst (pairCosts bits) := by
    intro bits e he
    obtain rfl := hsizes bits (List.ne_nil_of_mem he)
    obtain rfl := List.mem_singleton.mp he
    exact ⟨by decide,_,3,4,by decide,by norm_num,by norm_num,rfl⟩
  have hplan : Plannable (partitionInput 1 g ⟨1,1,0⟩ pairCosts) :=
    partitionInput_plannable (by omega) (by omega) (by omega) (by decide) (by decide) (by decide)
      (fun bits => (hfirst bits).measured) (by rw [hbits]; exact List.cons_ne_nil _ _)
  obtain ⟨hint,hhint⟩ : ∃ hint, getPartitionHint 1 g ⟨1,1,0⟩ pairCosts = some hint :=
    hplan.exists_hint
  obtain ⟨ok,_,_⟩ := getPartitionHint_spec hplan.room hhint
  obtain ⟨k,units,hmake,_⟩ : ∃ k units, make ⟨1,1,0⟩ hint id g = some _ ∧ _ :=
    ok.make_isSome id (by omega) (by decide)
  generalize assemble ⟨1,1,0⟩ hint id g _ k units = made at hmake
  obtain ⟨ht,hplanned⟩ := made_planned hhint (by omega) hmake
  obtain ⟨hnum,_,_,_⟩ := make_sizes hmake
  have hp : 0 < made.partitionNum := by
    refine List.length_pos_iff.mpr (fun hnil => ?_)
    rw [hnil] at ht
    have hzero : 0 = made.vNum := ht
    omega
  obtain ⟨hne,sc,hclass,heval⟩ := hplanned 0 hp
  obtain ⟨rfl,group,bits,p,hmenu,hexact,hlt⟩ := hplan.exclusive hfirst hhint heval
    (fun bits hmenu => by
      rw [hsizes bits hmenu]
      change 1 ≤ min 24 (chooseGroupBits g.vNum)
      omega)
  obtain rfl := hsizes bits hmenu
  have hgroupBits : (partitionInput 1 g ⟨1,1,0⟩ pairCosts).groupBits = 1 := hbits
  have hvNum : (partitionInput 1 g ⟨1,1,0⟩ pairCosts).vNum = 130 := hv
  rw [hgroupBits,hvNum,Prod.mk.injEq] at hexact
  rw [hgroupBits,hvNum] at hlt
  refine ⟨g,hint,made,hload,hhint,hmake,hp,by omega,hclass,fun v _ hhi => ?_⟩
  obtain ⟨w,hw,hdegree⟩ := make_unit_degree hmake ht (by decide) (p := 0) (x := v) (by omega)
  rw [hdegree,hdegrees w hw]

/-- In 65 pairs with three edges each, the buffers of the two vertices of a partition fit. -/
theorem positions_exact_pairs : ∃ g hint made, load (parallelMatching 65 3) true = some g ∧
    getPartitionHint 1 g ⟨1,1,0⟩ pairCosts = some hint ∧ make ⟨1,1,0⟩ hint id g = some made ∧
    made.partitionEnd 0 = made.partitionBegin 0 + 2 ∧
    ∀ l2CacheSize, PositionsExact made l2CacheSize 0 := by
  obtain ⟨g,hint,made,hload,hhint,hmake,hp,htwo,hclass,hdegrees⟩ :=
    exists_made_pairs (m := 3) (by decide) (by decide)
  refine ⟨g,hint,made,hload,hhint,hmake,htwo,fun l2CacheSize => ?_⟩
  refine (positions_exact_iff hload hhint hmake (by decide) hp l2CacheSize).mpr ?_
  have hchosen : Sampler.chosen made l2CacheSize 0 = .classExclusiveBufferSampler := by
    rw [Sampler.chosen,if_pos hclass]
  simp only [PositionsFit,hchosen]
  rw [htwo,Nat.add_sub_cancel_left,bufferBegin_succ,bufferBegin_succ,
    hdegrees _ (by omega) (by omega),hdegrees _ (by omega) (by omega)]
  change 0 + edgeBufferLength 3 + edgeBufferLength 3 < 2 ^ 32
  decide

/-- In 65 pairs with `2 ^ 31 + 1` edges each, the buffers of the two vertices of a partition together
have more than `2 ^ 32` units. -/
theorem positions_not_exact : ∃ g hint made,
    load (parallelMatching 65 (2 ^ 31 + 1)) true = some g ∧
    getPartitionHint 1 g ⟨1,1,0⟩ pairCosts = some hint ∧ make ⟨1,1,0⟩ hint id g = some made ∧
    0 < made.partitionNum ∧ made.partitionEnd 0 = made.partitionBegin 0 + 2 ∧
    ∀ l2CacheSize, ¬ PositionsExact made l2CacheSize 0 := by
  obtain ⟨g,hint,made,hload,hhint,hmake,hp,htwo,hclass,hdegrees⟩ :=
    exists_made_pairs (m := 2 ^ 31 + 1) (by decide) (by decide)
  refine ⟨g,hint,made,hload,hhint,hmake,hp,htwo,fun l2CacheSize => ?_⟩
  have hchosen : Sampler.chosen made l2CacheSize 0 = .classExclusiveBufferSampler := by
    rw [Sampler.chosen,if_pos hclass]
  rw [positionsExact_exclusive_iff (by omega) hchosen,htwo,Nat.add_sub_cancel_left,
    bufferBegin_succ,bufferBegin_succ,hdegrees _ (by omega) (by omega),
    hdegrees _ (by omega) (by omega)]
  change ¬ 0 + edgeBufferLength (2 ^ 31 + 1) + edgeBufferLength (2 ^ 31 + 1) < 2 ^ 32
  decide

end FlashMob.Sampling
