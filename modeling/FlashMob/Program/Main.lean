import FlashMob.Graph.Built
import FlashMob.Program.Sizes
import FlashMob.Tools.Formats

namespace FlashMob.Program
open Floating FlashMob.Benchmark FlashMob.Graph FlashMob.Partition FlashMob.Sampling FlashMob.Solver
  FlashMob.Tools FlashMob.WalkManager Lib.Runs

/-- The options of `deepwalk` and `node2vec` after `parse`, with the p and q of `node2vec`. -/
structure WalkOptions (R : Type) where
  cfg : MultiThreadConfig
  memQuota : Nat
  graphFormat : GraphFormat
  epochNum : Int
  walkerNum : Nat
  walkLen : Nat
  pq : Option (R × R)

namespace WalkOptions
variable {R : Type} (opt : WalkOptions R)

def getWalkerNum (vertexNum : Nat) : Nat :=
  if opt.walkerNum ≠ 0 then opt.walkerNum
  else u64 ((opt.epochNum % 2 ^ 64).toNat * vertexNum)

/-- What `set_node2vec` is called for. -/
def node2vec [Floating R] : Option (Node2vec R) := opt.pq.map (fun pq => setNode2vec pq.1 pq.2)

/-- The call of `estimate_epoch_walker` in `make_graph`. -/
def estimateArgs (g : Loaded) : EstimateArgs :=
  makeGraphArgs g opt.cfg opt.pq.isSome (opt.getWalkerNum g.vNum) opt.walkLen opt.memQuota

end WalkOptions

def walkerPerEdge (D : Type) [Floating D] (epochWalker : Nat) (g : Loaded) : D :=
  div (ofNat epochWalker) (ofNat g.eNum)

/-- A call of `make_graph` that gets through. `tr` is what its mini benchmark measures when the
catalogue is that in `file`. -/
inductive MakesGraph {D R : Type} [Floating D] [DoubleText D] (opt : WalkOptions R)
    (rawEdges : List (Nat × Nat)) (file : Option (List Char))
    (schedule : List (Nat × Nat) → List (Nat × Nat)) : List (MiniBMKItem D) → Made → Prop
  | made {g : Loaded} {epochWalker : Nat} {m m' : MiniBMKCatManager D} {tr : List (MiniBMKItem D)}
      {hint : GraphHint D} {made : Made} (hg : load rawEdges true = some g)
      (hestimate : (opt.estimateArgs g).estimateEpochWalker = .ok epochWalker)
      (hload : MiniBMKCatManager.load file = some m)
      (hb : Benchmarked (hintArgs (walkerPerEdge D epochWalker g) g opt.cfg) m tr m')
      (hhint : getPartitionHint (walkerPerEdge D epochWalker g) g opt.cfg
        ((hintArgs (walkerPerEdge D epochWalker g) g opt.cfg).results m') = some hint)
      (hmake : make opt.cfg hint schedule g = some made) :
      MakesGraph opt rawEdges file schedule tr made

/-- The numbers of the first estimate, as they are in the edge list. -/
def inputArgs {R : Type} (opt : WalkOptions R) (edges : List (Nat × Nat)) : EstimateArgs where
  vertexNum := (names edges).dedup.length
  edgeNum := 2 * edges.length
  bufferEdgeNum := 2 * edges.length
  walkerNum := opt.getWalkerNum (names edges).dedup.length
  walkLen := opt.walkLen
  socketNum := opt.cfg.socketNum
  memQuota := opt.memQuota
  otherSize := if opt.pq.isSome then BloomFilter.calHashTableSize edges.length else 0

/-- What the program relies on. -/
structure Feasible {R : Type} (opt : WalkOptions R) (edges : List (Nat × Nat)) : Prop where
  config : opt.cfg.Valid
  threads : opt.cfg.threadNum < 2 ^ 8
  nonempty : edges ≠ []
  small : 2 * edges.length + 9 * (names edges).dedup.length < 2 ^ 32
  len : 1 ≤ opt.walkLen
  walkers : 1 ≤ (inputArgs opt edges).walkerNum
  count : (inputArgs opt edges).walkerNum < 2 ^ 63
  quota : opt.memQuota < 2 ^ 64
  /-- The memory holds graph, buffers and filter, and a walker. -/
  memory : (inputArgs opt edges).memory + (inputArgs opt edges).perWalkerCost ≤ opt.memQuota
  /-- The walkers that it holds leave the threads room in 32 bits, -/
  room : min (inputArgs opt edges).walkerNum (opt.memQuota / (inputArgs opt edges).perWalkerCost) +
    WalkerManager.chunkSize * (opt.cfg.threadNum + 1) < 2 ^ 32
  /-- and there are walkers for the edges of a group. -/
  dense : ∀ n, (inputArgs opt edges).estimateEpochWalker = .ok n →
    2 * edges.length ≤ 8 * 2 ^ min (chooseGroupBits (names edges).dedup.length) 20 * n

/-- With what two loops that count in 32 bits come to their ends: the one that flushes the edges of
a vertex, and the one that fills in the walkers of the mini benchmark. -/
structure LoopsEnd {R : Type} (opt : WalkOptions R) (edges : List (Nat × Nat)) : Prop where
  flush : 2 * edges.length + 16 ≤ 2 ^ 32
  fill : ∀ n, (inputArgs opt edges).estimateEpochWalker = .ok n → n < 2 ^ 8 * (2 * edges.length)

/-- A path of an undirected graph, by the names in its edge list. -/
structure InputPath (edges : List (Nat × Nat)) (len : Nat) (path : List Nat) : Prop where
  length : path.length = len
  named : ∀ n ∈ path, n ∈ names edges
  joined : path.IsChain (fun a b => (a,b) ∈ edges ∨ (b,a) ∈ edges)

/-- What it means that the driver loop walks paths of the edge list. -/
structure WalksInput {ρ R : Type} [RandGen ρ] [RandGenFloat ρ R] [Floating R]
    (edges : List (Nat × Nat)) (id2name : Nat → Nat) (env : Setup R) (st₀ : State ρ) : Prop where
  /-- The names along a row of the output are a path. -/
  paths : ∀ tr st, Run (Step env) st₀ tr st → ∀ n start output,
    Action.epoch n start output ∈ tr → ∀ w < n, InputPath edges env.walkLen
      ((List.range env.walkLen).map (fun i => id2name (output (w * env.walkLen + i))))
  stops : Acc (fun st' st => ∃ o, Step env st o st') st₀
  moves : ∀ tr st, Run (Step env) st₀ tr st → st.phase ≠ .done →
    env.node2vec = none ∨ Returns env st → ∃ o st', Step env st o st'
  sizes : ∀ tr st, Run (Step env) st₀ tr st → st.phase = .done →
    (epochSizes tr).sum = env.walkerNum

section
variable {D : Type} {edges : List (Nat × Nat)} {g : Loaded} {cfg : MultiThreadConfig}
  {hint : GraphHint D} {schedule : List (Nat × Nat) → List (Nat × Nat)} {made : Made}
  (hmake : make cfg hint schedule g = some made) (ok : HintOk g.vNum hint)
  (hload : Loadable true edges) (hg : load edges true = some g)
  (hsched : ∀ l, (schedule l).Perm l) (hsock : 0 < cfg.socketNum)
include hmake ok hload hg hsched hsock

theorem made_joined {v y : Nat} (hv : v < made.vNum) (hy : y ∈ made.neighbors 0 v) :
    (made.id2name v,made.id2name y) ∈ edges ∨ (made.id2name y,made.id2name v) ∈ edges := by
  obtain ⟨seen,k,units,hok,ht,hnum,hr,he⟩ := made_assembled hmake ok hload hg
  obtain ⟨_,_,_,hsockets⟩ := make_sizes hmake
  have hb := assemble_buildsInput hok ht hr hint k hsock hsched
  rw [← he] at hb
  have hmem : (made.id2name v,made.id2name y) ∈ edges ++ edges.map Prod.swap :=
    (hb.multigraph 0 (hsockets ▸ hsock)).mem_iff.mp
      (List.mem_flatMap.mpr ⟨v,List.mem_range.mpr hv,List.mem_map_of_mem hy⟩)
  rcases List.mem_append.mp hmem with h | h
  · exact .inl h
  · obtain ⟨e,hedge,hswap⟩ := List.mem_map.mp h
    rw [← Prod.swap_swap e,hswap] at hedge
    exact .inr hedge

theorem made_named {v : Nat} (hv : v < made.vNum) : made.id2name v ∈ names edges := by
  obtain ⟨seen,k,units,hok,ht,hnum,hr,he⟩ := made_assembled hmake ok hload hg
  have hb := assemble_buildsInput hok ht hr hint k hsock hsched
  rw [← he] at hb
  exact hb.names.mapsTo hv

theorem Legal.inputPath {n len : Nat} {start output : Nat → Nat}
    (h : Legal made n start (fun i w => output (w * len + i)) len) {w : Nat} (hw : w < n) :
    InputPath edges len ((List.range len).map (fun i => made.id2name (output (w * len + i)))) := by
  have hvertex : ∀ i < len, output (w * len + i) < made.vNum := fun i hi =>
    h.vertex_lt (fun v hv y hy => made_neighbors_lt hmake ok hload hg hsched hsock hv hy) hw hi
  refine ⟨by rw [List.length_map,List.length_range],fun name hname => ?_,?_⟩
  · obtain ⟨i,hi,rfl⟩ := List.mem_map.mp hname
    exact made_named hmake ok hload hg hsched hsock (hvertex i (List.mem_range.mp hi))
  · refine List.isChain_iff_getElem.mpr (fun i hi => ?_)
    rw [List.length_map,List.length_range] at hi
    simp only [List.getElem_map,List.getElem_range]
    exact made_joined hmake ok hload hg hsched hsock (hvertex i (by omega)) (h.steps w hw i hi)

end

section
variable {R : Type} {opt : WalkOptions R} {edges : List (Nat × Nat)}

theorem load_sizes {g : Loaded} (hload : Loadable true edges) (hg : load edges true = some g) :
    g.vNum = (names edges).dedup.length ∧ g.eNum = 2 * edges.length ∧ g.asUndirected = true := by
  obtain ⟨seen,g',hg',hok⟩ := load_loadOk hload
  obtain rfl := Option.some.inj (hg.symm.trans hg')
  obtain ⟨units,_,hsame⟩ := Option.map_eq_some_iff.mp hg
  refine ⟨hok.vNum.trans (length_eq_names hok.nodup hok.seen_iff),?_,hok.undirected⟩
  rw [← hsame]
  exact Nat.mul_comm _ _

theorem estimateArgs_eq {g : Loaded} (hload : Loadable true edges)
    (hg : load edges true = some g) : opt.estimateArgs g = inputArgs opt edges := by
  obtain ⟨hv,he,hu⟩ := load_sizes hload hg
  rw [WalkOptions.estimateArgs,makeGraphArgs,hv,he,hu,if_pos rfl,
    Nat.mul_div_cancel_left _ (show 0 < 2 by decide)]
  rfl

namespace Feasible
variable (h : Feasible opt edges)
include h

theorem loadable : Loadable true edges := by
  have hsmall := h.small
  exact loadable_of_length (by rw [uintMax]; omega)

/-- Without loops there are two vertices, so that there is room for the counter of the flush. -/
theorem flush_of_no_loop (hloop : ∀ e ∈ edges, e.1 ≠ e.2) :
    2 * edges.length + 16 ≤ 2 ^ 32 := by
  obtain ⟨e,he⟩ := List.exists_mem_of_ne_nil edges h.nonempty
  have htwo : 1 < (names edges).dedup.length := by
    have hsub : [e.1,e.2] ⊆ (names edges).dedup := by
      intro n hn
      rcases List.mem_cons.mp hn with rfl | hn
      · exact List.mem_dedup.mpr (fst_mem_names he)
      · rw [List.mem_singleton.mp hn]
        exact List.mem_dedup.mpr (snd_mem_names he)
    have hnodup : [e.1,e.2].Nodup := List.nodup_cons.mpr
      ⟨fun h => hloop e he (List.mem_singleton.mp h),List.nodup_singleton _⟩
    exact (hnodup.subperm hsub).length_le
  have hsmall := h.small
  omega

theorem otherSize_lt : (inputArgs opt edges).otherSize < 2 ^ 36 := by
  have hsize := calHashTableSize_le edges.length
  have hsmall := h.small
  simp only [inputArgs]
  split_ifs <;> omega

theorem typed : (inputArgs opt edges).Typed :=
  ⟨Nat.lt_trans h.count (by decide),h.quota,Nat.lt_trans h.otherSize_lt (by decide)⟩

theorem noWrap {b : Nat} (hb : b ≤ 2 * edges.length) :
    EstimateArgs.NoWrap { inputArgs opt edges with bufferEdgeNum := b } := by
  have hsmall := h.small
  have hsock := Nat.lt_of_le_of_lt (socketNum_le h.config) h.threads
  have hother := h.otherSize_lt
  have hcount := h.count
  have hedges : (inputArgs opt edges).edgeNum = 2 * edges.length := rfl
  have hvertices : (inputArgs opt edges).vertexNum = (names edges).dedup.length := rfl
  refine noWrap_of_small ?_ ?_ ?_ hsock hother hcount
  · change (inputArgs opt edges).vertexNum < 2 ^ 29
    omega
  · change (inputArgs opt edges).edgeNum < 2 ^ 32
    omega
  · change b < 2 ^ 32
    omega

theorem exists_estimate :
    ∃ n, (inputArgs opt edges).estimateEpochWalker = .ok n ∧ 1 ≤ n :=
  Program.exists_estimate h.typed (h.noWrap (Nat.le_refl _)) h.walkers h.memory

/-- The estimate in `prepare` is for no more edges in buffers, so that there is one again. -/
theorem exists_second_estimate {b : Nat} (hb : b ≤ 2 * edges.length) :
    ∃ n, EstimateArgs.estimateEpochWalker { inputArgs opt edges with bufferEdgeNum := b } = .ok n ∧
      1 ≤ n ∧ WalkerManager.Roomy opt.cfg n n := by
  obtain ⟨n,hn,hpos⟩ := h.exists_estimate
  have ht : EstimateArgs.Typed { inputArgs opt edges with bufferEdgeNum := b } :=
    ⟨h.typed.walkerNum,h.typed.memQuota,h.typed.otherSize⟩
  have hmemory : EstimateArgs.memory { inputArgs opt edges with bufferEdgeNum := b } ≤
      (inputArgs opt edges).memory := by
    have hwords := Nat.mul_le_mul_left sizeofVertexId hb
    have hbuffer : (inputArgs opt edges).bufferEdgeNum = 2 * edges.length := rfl
    simp only [EstimateArgs.memory,hbuffer]
    omega
  obtain ⟨n',hn',hle⟩ := EstimateArgs.estimateEpochWalker_mono (h.noWrap (Nat.le_refl _))
    (h.noWrap hb) h.typed ht rfl rfl rfl hmemory hn
  refine ⟨n',hn',Nat.le_trans hpos hle,roomy_of_small h.config ?_⟩
  have hroom := h.room
  have hfit := estimate_le ht hn'
  exact Nat.lt_of_le_of_lt (Nat.add_le_add_right hfit _) hroom

end Feasible

end

section
variable {D R : Type} [Floating D] [DoubleText D] [Floating R] {opt : WalkOptions R}
  {edges : List (Nat × Nat)} {file : Option (List Char)}
  {schedule : List (Nat × Nat) → List (Nat × Nat)} {tr : List (MiniBMKItem D)} {made : Made}

omit [Floating R] in
theorem MakesGraph.prepareArgs_eq (h : MakesGraph opt edges file schedule tr made)
    (hf : Feasible opt edges) (o : QueryOrder) : bufferEdgeNum made ≤ 2 * edges.length ∧
      prepareArgs (preparedGraph made opt.pq.isSome o) opt.cfg opt.pq.isSome
        (opt.getWalkerNum made.vNum) opt.walkLen opt.memQuota =
          { inputArgs opt edges with bufferEdgeNum := bufferEdgeNum made } := by
  obtain ⟨hg,_,_,_,hhint,hmake⟩ := h
  obtain ⟨hv,he,hu⟩ := load_sizes hf.loadable hg
  obtain ⟨hvNum,heNum,hundirected,_⟩ := make_sizes hmake
  have hsmall := hf.small
  obtain ⟨ok,_⟩ := hint_partitions hmake hhint (indices_of_small (by omega))
  have hbuffer := bufferEdgeNum_le hg hf.config.sockets hmake (made_tiles hmake ok)
  refine ⟨by omega,?_⟩
  rw [Solver.prepareArgs_eq,hvNum,heNum,hundirected,hv,he,hu,if_pos rfl,
    Nat.mul_div_cancel_left _ (show 0 < 2 by decide)]
  rfl

theorem MakesGraph.ready (h : MakesGraph opt edges file schedule tr made) (hf : Feasible opt edges)
    (hsched : ∀ l, (schedule l).Perm l) (o : QueryOrder) (ρ : Type) [RandGen ρ] :
    ∃ env, Setup.prepare opt.cfg made opt.node2vec o (opt.getWalkerNum made.vNum) opt.walkLen
        opt.memQuota = .ok env ∧ Ready ρ env ∧ Queried made env.graph ∧
      env.graph.partitionNum = made.partitionNum ∧ ∀ p < made.partitionNum, ∃ sampler,
        Sampler.install env.graph.toMade opt.cfg.l2CacheSize p = some sampler ∧
          Served ρ env.graph p sampler := by
  obtain ⟨hbuffer,hargs⟩ := h.prepareArgs_eq hf o
  obtain ⟨hg,_,_,_,hhint,hmake⟩ := h
  obtain ⟨hv,he,_⟩ := load_sizes hf.loadable hg
  obtain ⟨hvNum,_⟩ := make_sizes hmake
  have hsmall := hf.small
  obtain ⟨ok,hfew⟩ := hint_partitions hmake hhint (indices_of_small (by omega))
  have ht := made_tiles hmake ok
  have hfits : ∀ p < made.partitionNum, Sampler.Fits made p := fun p hp =>
    fits_of_small hg hf.config.sockets hmake ht (by omega) hp
  obtain ⟨n,hn,hpos,hroom⟩ := hf.exists_second_estimate hbuffer
  have hsome : opt.node2vec.isSome = opt.pq.isSome := Option.isSome_map
  rw [← hsome] at hargs
  have henv : Setup.prepare opt.cfg made opt.node2vec o (opt.getWalkerNum made.vNum) opt.walkLen
      opt.memQuota = .ok ⟨opt.cfg,preparedGraph made opt.node2vec.isSome o,opt.node2vec,
        opt.getWalkerNum made.vNum,opt.walkLen,n⟩ := by
    rw [Setup.prepare,hargs,hn]
    rfl
  have hcount : opt.getWalkerNum made.vNum < 2 ^ 64 := by
    rw [hvNum,hv]
    exact Nat.lt_trans hf.count (by decide)
  exact ⟨_,henv,hint_ready hf.nonempty hf.loadable hg hf.config hsched hmake hfits hcount hf.len henv
    hpos hroom ok hfew ρ⟩

omit [Floating R] in
theorem MakesGraph.flushes (h : MakesGraph opt edges file schedule tr made) (hf : Feasible opt edges)
    (hflush : 2 * edges.length + 16 ≤ 2 ^ 32) {q : NeighborGraph} (hq : Queried made q) :
    Flushes q := by
  obtain ⟨hg,_,_,_,hhint,hmake⟩ := h
  have hsmall := hf.small
  obtain ⟨hv,he,_⟩ := load_sizes hf.loadable hg
  obtain ⟨_,heNum,_⟩ := make_sizes hmake
  obtain ⟨ok,_⟩ := hint_partitions hmake hhint (indices_of_small (by omega))
  exact flushes_of_small hg hf.config.sockets hmake ok (by omega) hq

theorem MakesGraph.walks {ρ : Type} [RandGen ρ] [RandGenFloat ρ R]
    (h : MakesGraph opt edges file schedule tr made) (hf : Feasible opt edges)
    (hflush : 2 * edges.length + 16 ≤ 2 ^ 32) (hsched : ∀ l, (schedule l).Perm l) (o : QueryOrder) :
    ∃ env, Setup.prepare opt.cfg made opt.node2vec o (opt.getWalkerNum made.vNum) opt.walkLen
        opt.memQuota = .ok env ∧
      (∀ p < made.partitionNum, ∃ sampler,
        Sampler.install env.graph.toMade opt.cfg.l2CacheSize p = some sampler) ∧
      ∀ samplers : Nat → Sampler, (∀ p < made.partitionNum,
        Sampler.install env.graph.toMade opt.cfg.l2CacheSize p = some (samplers p)) →
        ∀ rands : Nat → ρ, WalksInput edges made.id2name env (prepared env samplers rands) := by
  obtain ⟨env,henv,hready,hq,hnum,hinstall⟩ := h.ready hf hsched o ρ
  refine ⟨env,henv,fun p hp => ?_,fun samplers hsamplers rands => ?_⟩
  · obtain ⟨sampler,hsampler,_⟩ := hinstall p hp
    exact ⟨sampler,hsampler⟩
  · obtain ⟨hpaths,hstops,hmoves,hsizes⟩ := walksPaths_of_ready hready hq
      (served_of_installed hnum hinstall hsamplers) rands
    refine ⟨fun tr st hr n start output hm w hw => ?_,hstops,fun tr st hr hne hreturns =>
      hmoves tr st hr hne (hreturns.imp_left (fun hn => ⟨hn,h.flushes hf hflush hq⟩)),hsizes⟩
    obtain ⟨hg,_,_,_,hhint,hmake⟩ := h
    have hsmall := hf.small
    obtain ⟨hv,_⟩ := load_sizes hf.loadable hg
    obtain ⟨ok,_⟩ := hint_partitions hmake hhint (indices_of_small (by omega))
    exact Legal.inputPath hmake ok hf.loadable hg hsched hf.config.sockets
      (hpaths tr st hr n start output hm) hw

end

section
variable {K R : Type} [Field K] [LinearOrder K] [IsStrictOrderedRing K] [FloorSemiring K]
  {opt : WalkOptions R} {edges : List (Nat × Nat)} {g : Loaded}
  {l : List (BmkArgs K × List (MiniBMKItem K))} {file : Option (List Char)}
  {m m' : MiniBMKCatManager K} {tr : List (MiniBMKItem K)}

/-- `make_graph` gets through, whatever its benchmark measures. -/
theorem Feasible.makesGraph (hf : Feasible opt edges) (hstarts : Starts l file)
    (hload : MiniBMKCatManager.load file = some m) (hg : load edges true = some g) {n : Nat}
    (hn : (opt.estimateArgs g).estimateEpochWalker = .ok n)
    (hb : Benchmarked (hintArgs (walkerPerEdge K n g) g opt.cfg) m tr m')
    (htimes : ∀ y ∈ tr, 0 ≤ y.stepTime) (schedule : List (Nat × Nat) → List (Nat × Nat)) :
    ∃ made, MakesGraph opt edges file schedule tr made := by
  obtain ⟨hv,he,_⟩ := load_sizes hf.loadable hg
  have hsmall := hf.small
  have hfew := hf.threads
  have hv29 : g.vNum < 2 ^ 29 := by omega
  have hbits := chooseGroupBits_le_of_small hv29
  have hedges : 0 < edges.length := List.length_pos_iff.mpr hf.nonempty
  have hpos : 0 < g.vNum := by
    obtain ⟨e,hmem⟩ := List.exists_mem_of_ne_nil edges hf.nonempty
    rw [hv]
    exact List.length_pos_of_mem (List.mem_dedup.mpr (fst_mem_names hmem))
  have hestimate := hn
  rw [estimateArgs_eq hf.loadable hg] at hestimate
  have hcap := EstimateArgs.estimateEpochWalker_le hestimate
  have hdense := hf.dense n hestimate
  rw [← hv,← he] at hdense
  obtain ⟨hdegree,hadm⟩ := exists_measured K opt.cfg hbits (Nat.lt_of_le_of_lt hcap (by decide))
    (by omega) hdense
  have hvalid := hintArgs_valid (walkerPerEdge K n g) g hf.config.threads (by omega)
  have hmeasured : ∀ bits, Measured ((hintArgs (walkerPerEdge K n g) g opt.cfg).results m' bits) :=
    results_measured (hint_sound hb hvalid hstarts hload htimes)
  have hwalkers : 0 ≤ walkerPerEdge K n g := div_nonneg (Nat.cast_nonneg _) (Nat.cast_nonneg _)
  obtain ⟨hint,hhint⟩ := (partitionInput_plannable hpos (by omega) (by omega) hf.config.threads hfew
    hwalkers hmeasured (hint_coarsest hb hvalid (by omega) hdegree hadm)).exists_hint
  obtain ⟨ok,_,_⟩ := getPartitionHint_spec (indices_of_small hv29) hhint
  obtain ⟨k,units,hmake,_⟩ := ok.make_isSome schedule hpos hf.config.threads
  exact ⟨_,.made hg hn hload hb hhint hmake⟩

theorem Feasible.benchmark_ends (hf : Feasible opt edges) (hg : load edges true = some g)
    {n : Nat} (hfill : n < 2 ^ 8 * (2 * edges.length)) (m : MiniBMKCatManager K) :
    Acc (fun s' s => ∃ o, BmkStep ((hintArgs (walkerPerEdge K n g) g opt.cfg).region m) s o s')
        (BmkState.entry m) ∧
      ∃ tr m', Benchmarked (hintArgs (walkerPerEdge K n g) g opt.cfg) m tr m' ∧
        ∀ y ∈ tr, 0 ≤ y.stepTime := by
  obtain ⟨_,he,_⟩ := load_sizes hf.loadable hg
  have hedges : 0 < edges.length := List.length_pos_iff.mpr hf.nonempty
  have hfew := hf.threads
  have hvalid := hintArgs_valid (walkerPerEdge K n g) g hf.config.threads (by omega)
  have hlt : (hintArgs (walkerPerEdge K n g) g opt.cfg).maxThreadWalkerNum < 2 ^ 32 :=
    maxThreadWalkerNum_lt K opt.cfg (by omega) (by omega)
  exact ⟨(bmk_acc_iff 0 (region_fresh hvalid.room) hvalid.threads).mpr hlt,
    exists_benchmarked _ m (P := fun time => 0 ≤ time) 0 (le_refl 0) hvalid.room hlt⟩

theorem Feasible.exists_makesGraph (hf : Feasible opt edges) (hends : LoopsEnd opt edges)
    (hstarts : Starts l file) (schedule : List (Nat × Nat) → List (Nat × Nat)) :
    ∃ (tr : List (MiniBMKItem K)) (made : Made), MakesGraph opt edges file schedule tr made := by
  obtain ⟨seen,g,hg,_⟩ := load_loadOk hf.loadable
  obtain ⟨n,hn,_⟩ := hf.exists_estimate
  obtain ⟨m,hload,_⟩ := hstarts.kept
  obtain ⟨_,tr,m',hb,htimes⟩ := hf.benchmark_ends hg (hends.fill n hn) m
  rw [← estimateArgs_eq hf.loadable hg] at hn
  obtain ⟨made,hmade⟩ := hf.makesGraph hstarts hload hg hn hb htimes schedule
  exact ⟨tr,made,hmade⟩

end

/-- A page of memory is enough for 64 walkers on one edge. -/
theorem feasible_one_edge {opt : WalkOptions ℚ} {threadNum : Nat}
    (hopt : opt = ⟨⟨threadNum,1,0⟩,4096,.binaryGraphFormat,0,64,2,none⟩)
    (hthreads : threadNum = 1 ∨ threadNum = 2) : Feasible opt [(0,1)] ∧ LoopsEnd opt [(0,1)] := by
  have hargs : inputArgs opt [(0,1)] = ⟨2,2,2,64,2,1,4096,0⟩ := by
    rw [hopt]
    rfl
  have hall : EstimateArgs.estimateEpochWalker ⟨2,2,2,64,2,1,4096,0⟩ = .ok 64 := by decide
  have hcfg : opt.cfg = ⟨threadNum,1,0⟩ ∧ opt.memQuota = 4096 ∧ opt.walkLen = 2 := by
    rw [hopt]
    exact ⟨rfl,rfl,rfl⟩
  obtain ⟨hconfig,hquota,hlen⟩ := hcfg
  have hvalid : MultiThreadConfig.Valid ⟨threadNum,1,0⟩ := by
    rcases hthreads with rfl | rfl <;> exact ⟨by decide,by decide,by decide⟩
  refine ⟨⟨?_,?_,by decide,by decide,?_,?_,?_,?_,?_,?_,?_⟩,by decide,?_⟩
  all_goals simp only [hconfig,hquota,hlen,hargs]
  · exact hvalid
  · omega
  all_goals try decide
  · rcases hthreads with rfl | rfl <;> decide
  all_goals
    intro n hn
    cases hall.symm.trans hn
    decide

end FlashMob.Program
