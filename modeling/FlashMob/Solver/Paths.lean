import FlashMob.Partition.Agree
import FlashMob.Sampler.Random
import FlashMob.Solver.Stops

namespace FlashMob.Solver
open FlashMob.Graph FlashMob.Partition FlashMob.Sampling FlashMob.WalkManager Lib.Runs Lib.Tiling

theorem Legal.of_perm {g made : Made} {n l : Nat} {start : Nat → Nat} {walks : Nat → Nat → Nat}
    (h : Legal g n start walks l) (hnum : g.vNum = made.vNum)
    (hin : ∀ w < n, ∀ i < l, walks i w < g.vNum)
    (hperm : ∀ v < made.vNum, (g.neighbors 0 v).Perm (made.neighbors 0 v)) :
    Legal made n start walks l := by
  refine ⟨fun w hw => hnum ▸ h.inside w hw,h.starts,fun w hw i hi => ?_⟩
  exact (hperm _ (hnum ▸ hin w hw i (by omega))).mem_iff.mp (h.steps w hw i hi)

/-- The graph of `walk` is the one that was made, up to the order of the adjacency lists. -/
theorem preparedGraph_queried {made : Made} (hlaid : Laid made) (isNode2vec : Bool) (o : QueryOrder) :
    Queried made (preparedGraph made isNode2vec o) := by
  cases isNode2vec with
  | false => exact (prepared_queried hlaid []).1
  | true => exact (prepared_queried hlaid [o]).1

theorem Queried.exists_edges {made : Made} {q : NeighborGraph} (h : Queried made q) :
    ∃ content bf, q = ⟨{ made with edges := content },bf⟩ := by
  obtain ⟨m,bf⟩ := q
  refine ⟨m.edges,bf,?_⟩
  rw [← h.same]

section
variable {D : Type} {cfg : MultiThreadConfig} {hint : GraphHint D}
  {schedule : List (Nat × Nat) → List (Nat × Nat)} {g : Loaded} {made : Made}
  (hmake : make cfg hint schedule g = some made) (ok : HintOk g.vNum hint)
include hmake ok

theorem made_partitions :
    made.partitions = (hint.groupHints.map (groupRow g.vNum)).flatten ∧ made.vNum = g.vNum := by
  obtain ⟨rows,k,units,hrows,_,_,rfl⟩ := make_cases hmake
  obtain rfl := Option.some.inj (hrows.symm.trans ok.partitionRows_eq)
  exact ⟨rfl,rfl⟩

theorem made_tiles : Tiles 0 made.partitions made.vNum := by
  obtain ⟨hparts,hnum⟩ := made_partitions hmake ok
  rw [hparts,hnum]
  exact ok.partitions_tiles

theorem made_nonempty {p : Nat} (hp : p < made.partitionNum) :
    made.partitionBegin p < made.partitionEnd p := by
  obtain ⟨hparts,_⟩ := made_partitions hmake ok
  rw [Made.partitionNum,hparts] at hp
  rw [Made.partitionBegin,Made.partitionEnd,hparts,List.getD_eq_getElem _ _ hp]
  exact ok.partition_nonempty (List.getElem_mem hp)

theorem made_laid (hsock : 0 < cfg.socketNum) : Laid made := by
  have ht := made_tiles hmake ok
  obtain ⟨k,units,he,_⟩ := make_dealt hmake ht
  obtain ⟨hnum,_,_,_⟩ := make_sizes hmake
  rw [he]
  exact assemble_laid hint schedule (hnum ▸ ht) hsock k units

/-- Every table leads to a partition that holds the vertex. -/
theorem made_lookup (hfew : made.partitionNum < 2 ^ 16) (s : Nat) {v : Nat}
    (hv : v < made.vNum) : made.partitionId s v < made.partitionNum ∧
      made.partitionBegin (made.partitionId s v) ≤ v ∧
      v < made.partitionEnd (made.partitionId s v) := by
  obtain ⟨rows,k,units,hrows,_,_,rfl⟩ := make_cases hmake
  obtain rfl := Option.some.inj (hrows.symm.trans ok.partitionRows_eq)
  obtain ⟨r,hr,hlo,hhi⟩ := ok.lookup (Nat.lt_trans hfew (by decide)) s hv
  obtain ⟨hlt,he⟩ := List.getElem?_eq_some_iff.mp hr
  have hget := List.getD_eq_getElem _ (0,0) hlt
  rw [he] at hget
  exact ⟨hlt,(congrArg Prod.fst hget).trans_le hlo,
    Nat.lt_of_lt_of_eq hhi (congrArg Prod.snd hget).symm⟩

variable {edges : List (Nat × Nat)} {asUndirected : Bool} (hload : Loadable asUndirected edges)
  (hg : load edges asUndirected = some g)
include hload hg

/-- A graph that was loaded and made, by its parts. -/
theorem made_assembled : ∃ seen k units, LoadOk edges asUndirected seen g ∧
    Tiles 0 made.partitions g.vNum ∧ made.vNum = g.vNum ∧
    Redistributed made.partitions g.vNum g.unit units ∧
    made = assemble cfg hint schedule g made.partitions k units := by
  obtain ⟨seen,g',hg',hok⟩ := load_loadOk hload
  obtain rfl := Option.some.inj (hg.symm.trans hg')
  have ht := made_tiles hmake ok
  obtain ⟨k,units,he,hr⟩ := make_dealt hmake ht
  obtain ⟨hnum,_,_,_⟩ := make_sizes hmake
  rw [hnum] at ht
  exact ⟨seen,k,units,hok,ht,hnum,hr,he⟩

theorem made_vNum_pos (hne : edges ≠ []) : 0 < made.vNum := by
  obtain ⟨seen,_,_,hok,_,hnum,_,_⟩ := made_assembled hmake ok hload hg
  obtain ⟨e,he⟩ := List.exists_mem_of_ne_nil edges hne
  rw [hnum,hok.vNum]
  exact List.length_pos_of_mem ((hok.seen_iff _).mpr (fst_mem_names he))

variable (hsched : ∀ l, (schedule l).Perm l) (hsock : 0 < cfg.socketNum)
include hsched hsock

theorem made_neighbors_lt {v y : Nat} (hv : v < made.vNum) (hy : y ∈ made.neighbors 0 v) :
    y < made.vNum := by
  obtain ⟨seen,k,units,hok,ht,hnum,hr,he⟩ := made_assembled hmake ok hload hg
  rw [hnum] at hv ⊢
  rw [he] at hy
  exact neighbors_lt hok ht hr hsched hint k hsock hv hy

theorem made_self_not_mem (hloop : ∀ e ∈ edges, e.1 ≠ e.2) {v : Nat} (hv : v < made.vNum) :
    v ∉ made.neighbors 0 v := by
  obtain ⟨seen,k,units,hok,ht,hnum,hr,he⟩ := made_assembled hmake ok hload hg
  rw [hnum] at hv
  rw [he]
  exact self_not_mem_neighbors hok ht hr hsched hint k hsock hv hloop

/-- What `walk` relies on holds for every graph that `make` builds from a hint that it can follow,
whatever the order of its lists. -/
theorem made_walkable (hne : edges ≠ []) (hfew : made.partitionNum < 2 ^ 16)
    (hfits : ∀ p < made.partitionNum, Sampler.Fits made p) {q : NeighborGraph}
    (hq : Queried made q) (ρ : Type) [RandGen ρ] : Walkable ρ q := by
  have hlaid := made_laid hmake ok hsock
  have ht := made_tiles hmake ok
  obtain ⟨_,_,_,hsocket⟩ := make_sizes hmake
  have hlists := hq.lists
  have hpos := made_vNum_pos hmake ok hload hg hne
  obtain ⟨content,bf,rfl⟩ := Queried.exists_edges hq
  refine ⟨hpos,hfew,fun s v hv => made_lookup hmake ok hfew s hv,
    fun p hp v hv hlo hhi smp hs rd => ?_,fun v hv y hy => ?_⟩
  · have hpacked := make_packed hg hmake ht hsock hp (hfits p hp).edges
    have hdegrees := (make_degrees hg hmake ht hsock hp).2
    have hdegree := hdegrees v hlo hhi
    have hlt : (made.adjlists (partitionSocket made.socketNum p) v).degree < 2 ^ 32 :=
      Nat.lt_trans (Nat.lt_of_le_of_lt hdegree.2.1 hdegree.2.2) (by decide)
    obtain ⟨hmem,hnext⟩ := Sampler.Serves.sample hs hlo hhi (hpacked.positive v hlo hhi) hlt rd
    refine ⟨?_,hnext⟩
    have hs' : partitionSocket made.socketNum p < made.socketNum :=
      partitionSocket_lt (hsocket ▸ hsock) p
    rw [show made.adjlists (partitionSocket made.socketNum p) v = made.adjlists 0 v by
      rw [hlaid.tables _ hs']] at hmem
    exact hmem
  · exact made_neighbors_lt hmake ok hload hg hsched hsock hv ((hlists v hv).mem_iff.mp hy)

end

theorem edgeBufferLength_le (degree : Nat) : edgeBufferLength degree ≤ degree + 9 := by
  have hu32 : ∀ n, u32 n ≤ n := fun n => Nat.mod_le _ _
  have hsmall := hu32 (8 + 1)
  have hlarge := hu32 (degree + 1)
  simp only [edgeBufferLength]
  split_ifs <;> omega

section
variable {D : Type} {edges : List (Nat × Nat)} {asUndirected : Bool} {cfg : MultiThreadConfig}
  {hint : GraphHint D} {schedule : List (Nat × Nat) → List (Nat × Nat)} {g : Loaded} {made : Made}
  (hload : load edges asUndirected = some g) (hsock : 0 < cfg.socketNum)
  (hmake : make cfg hint schedule g = some made) (ht : Tiles 0 made.partitions made.vNum)
include hload hsock hmake ht

/-- The edges and the buffers of every partition can be counted in a small graph. -/
theorem fits_of_small (hsmall : made.eNum + 9 * made.vNum < 2 ^ 32) {p : Nat}
    (hp : p < made.partitionNum) : Sampler.Fits made p := by
  have hall := sum_degrees_le hload hsock hmake ht
  have hsub : (vertices (made.partitionBegin p,made.partitionEnd p)).Sublist
      (List.range made.vNum) := by
    have hrange := ht.flatMap_range'
    rw [Nat.sub_zero,← List.range_eq_range'] at hrange
    have hmem : made.partitions.getD p (0,0) ∈ made.partitions := by
      rw [List.getD_eq_getElem _ _ hp]
      exact List.getElem_mem hp
    exact hrange ▸ List.sublist_flatten_of_mem (List.mem_map_of_mem hmem)
  have hbound : ((vertices (made.partitionBegin p,made.partitionEnd p)).map
      (fun v => (made.adjlists 0 v).degree + 9)).sum ≤ made.eNum + 9 * made.vNum := by
    refine Nat.le_trans ((hsub.map _).sum_le_sum (fun _ _ => Nat.zero_le _)) ?_
    rw [List.sum_map_add,List.map_const',List.sum_replicate,List.length_range,smul_eq_mul]
    omega
  obtain ⟨k,units,he,_⟩ := make_dealt hmake ht
  obtain ⟨hnum,_,_,hsocket⟩ := make_sizes hmake
  have hlaid : Laid made := by
    rw [he]
    exact assemble_laid hint schedule (hnum ▸ ht) hsock k units
  have hdegree := assemble_degree hint schedule g made.partitions k units hsock
  rw [← he] at hdegree
  refine ⟨Nat.lt_of_le_of_lt ?_ hsmall,Nat.lt_of_le_of_lt ?_ hsmall⟩
  · have hstat : made.partitionEdgeNum = made.partitions.map
        (fun r => ((vertices r).map (fun v => (units v).degree)).sum) :=
      congrArg Made.partitionEdgeNum he
    have hlt : p < made.partitions.length := hp
    rw [hstat,List.getD_eq_getElem _ _ (by rwa [List.length_map]),List.getElem_map]
    rw [Made.partitionBegin,Made.partitionEnd,List.getD_eq_getElem _ _ hlt] at hbound
    refine Nat.le_trans (List.sum_le_sum (fun v _ => ?_)) hbound
    rw [hdegree]
    exact Nat.le_add_right _ _
  · refine Nat.le_trans (List.sum_le_sum (fun v _ => ?_)) hbound
    rw [hlaid.tables _ (partitionSocket_lt (hsocket ▸ hsock) p)]
    exact edgeBufferLength_le _

end

section
variable {D : Type} {edges : List (Nat × Nat)} {asUndirected : Bool} {cfg : MultiThreadConfig}
  {hint : GraphHint D} {schedule : List (Nat × Nat) → List (Nat × Nat)} {g : Loaded} {made : Made}

/-- The edges of a vertex can be flushed if all edges can. -/
theorem flushes_of_small (hload : load edges asUndirected = some g) (hsock : 0 < cfg.socketNum)
    (hmake : make cfg hint schedule g = some made) (ok : HintOk g.vNum hint)
    (hsmall : made.eNum + 16 ≤ 2 ^ 32) {q : NeighborGraph} (hq : Queried made q) : Flushes q := by
  have hlaid := made_laid hmake ok hsock
  have ht := made_tiles hmake ok
  have hall := sum_degrees_le hload hsock hmake ht
  obtain ⟨_,_,_,hsocket⟩ := make_sizes hmake
  obtain ⟨content,bf,rfl⟩ := Queried.exists_edges hq
  intro p hp v hlo hhi
  change (made.adjlists (partitionSocket made.socketNum p) v).degree + 16 ≤ 2 ^ 32
  have hmem : made.partitions.getD p (0,0) ∈ made.partitions := by
    rw [List.getD_eq_getElem _ _ hp]
    exact List.getElem_mem hp
  have hv : v < made.vNum := Nat.lt_of_lt_of_le hhi (ht.mem_bounds hmem).2.2
  rw [hlaid.tables _ (partitionSocket_lt (hsocket ▸ hsock) p)]
  have hle := List.single_le_sum (fun _ _ => Nat.zero_le _) _
    (List.mem_map_of_mem (f := fun v => (made.adjlists 0 v).degree) (List.mem_range.mpr hv))
  omega

end

theorem Setup.prepare_ok {R : Type} {cfg : MultiThreadConfig} {made : Made}
    {node2vec : Option (Node2vec R)} {o : QueryOrder} {walkerNum walkLen memQuota : Nat}
    {env : Setup R} (h : Setup.prepare cfg made node2vec o walkerNum walkLen memQuota = .ok env) :
    ∃ r, (prepareArgs (preparedGraph made node2vec.isSome o) cfg node2vec.isSome walkerNum walkLen
      memQuota).estimateEpochWalker = .ok r ∧
      env = ⟨cfg,preparedGraph made node2vec.isSome o,node2vec,walkerNum,walkLen,r⟩ := by
  rw [Setup.prepare] at h
  cases hr : (prepareArgs (preparedGraph made node2vec.isSome o) cfg node2vec.isSome walkerNum walkLen
      memQuota).estimateEpochWalker with
  | error e =>
    rw [hr] at h
    cases h
  | ok r =>
    rw [hr] at h
    exact ⟨r,rfl,(Except.ok.inj h).symm⟩

/-- What it means that the driver loop walks paths of the graph that was made. -/
structure WalksPaths {ρ R : Type} [RandGen ρ] [RandGenFloat ρ R] [Floating R] (made : Made)
    (env : Setup R) (st₀ : State ρ) : Prop where
  /-- In every epoch a row of the output is the path of its walker. -/
  paths : ∀ tr st, Run (Step env) st₀ tr st → ∀ n start output,
    Action.epoch n start output ∈ tr →
    Legal made n start (fun i w => output (w * env.walkLen + i)) env.walkLen
  /-- No run goes on for ever, -/
  stops : Acc (fun st' st => ∃ o, Step env st o st') st₀
  /-- none gets stuck before the end while the rejection loops return and the edges can be
  flushed, -/
  moves : ∀ tr st, Run (Step env) st₀ tr st → st.phase ≠ .done →
    (env.node2vec = none ∧ Flushes env.graph) ∨ Returns env st → ∃ o st', Step env st o st'
  /-- and at the end all walkers have walked. -/
  sizes : ∀ tr st, Run (Step env) st₀ tr st → st.phase = .done →
    (epochSizes tr).sum = env.walkerNum

section
variable {ρ R : Type} [RandGen ρ] [RandGenFloat ρ R] [Floating R] {env : Setup R}

theorem walksPaths_of_ready (hready : Ready ρ env) {made : Made} (hq : Queried made env.graph)
    {samplers : Nat → Sampler}
    (hserved : ∀ p < env.graph.partitionNum, Served ρ env.graph p (samplers p)) (rands : Nat → ρ) :
    WalksPaths made env (prepared env samplers rands) := by
  have hholds : ∀ {tr st}, Run (Step env) (prepared env samplers rands) tr st → Holds env tr st :=
    fun hr => run_holds hready (prepared_holds hready rands hserved) hr
  refine ⟨fun tr st hr n start output hm => ?_,?_,fun tr st hr hne hreturns => ?_,
    fun tr st hr hdone => ?_⟩
  · have hlegal := (hholds hr).always.paths n start output hm
    refine hlegal.of_perm hq.vNum (fun w hw i hi => ?_) (fun v hv => hq.neighbors_perm hv)
    exact hlegal.vertex_lt hready.graph.neighbor_lt hw hi
  · refine acc_of_measure (fun st => ∃ tr, Holds env tr st) (measure env) ?_
      ⟨[],prepared_holds hready rands hserved⟩
    rintro st o st' ⟨tr,h⟩ hs
    exact ⟨⟨_,step_holds hready h hs⟩,step_measure hready h hs⟩
  · refine exists_step hready (hholds hr) ?_ hne
    rcases hreturns with ⟨hstatic,hflush⟩ | hreturns
    · exact (hholds hr).returns_of_static hready hstatic hflush
    · exact hreturns
  · obtain ⟨ha,hstage⟩ := hholds hr
    have hrest := ha.rest
    rw [hdone] at hstage
    have hzero : st.solver.counters.restWalkerNum = 0 := hstage
    rw [ha.sizes]
    omega

end

section
variable {R D : Type} [Floating D] {edges : List (Nat × Nat)} {g : Loaded}
  {cfg : MultiThreadConfig} {hint : GraphHint D} {schedule : List (Nat × Nat) → List (Nat × Nat)}
  {made : Made} {env : Setup R} {walkerPerEdge : D}
  {costs : Nat → List (Nat × List (SampleEstimation D))} {node2vec : Option (Node2vec R)}
  {o : QueryOrder} {walkerNum walkLen memQuota : Nat}

/-- The hints of `get_partition_hint` can be followed. -/
theorem hint_partitions (hmake : make cfg hint schedule g = some made)
    (hhint : getPartitionHint walkerPerEdge g cfg costs = some hint)
    (hindices : g.vNum + 2 ^ chooseGroupBits g.vNum ≤ 2 ^ 32) :
    HintOk g.vNum hint ∧ made.partitionNum < 2 ^ 16 := by
  obtain ⟨ok,hfew,_⟩ := getPartitionHint_spec hindices hhint
  have hparts := (made_partitions hmake ok).1
  refine ⟨ok,Nat.lt_of_le_of_lt ?_ (show maxPartitionNum < 2 ^ 16 by decide)⟩
  rwa [Made.partitionNum,hparts]

section
variable (hne : edges ≠ []) (hload : Loadable true edges) (hg : load edges true = some g)
  (hc : cfg.Valid) (hsched : ∀ l, (schedule l).Perm l) (hmake : make cfg hint schedule g = some made)
  (hfits : ∀ p < made.partitionNum, Sampler.Fits made p) (hwalkers : walkerNum < 2 ^ 64)
  (hlen : 1 ≤ walkLen)
  (henv : Setup.prepare cfg made node2vec o walkerNum walkLen memQuota = .ok env)
  (hepoch : 1 ≤ env.maxEpochWalkerNum)
  (hroom : WalkerManager.Roomy cfg env.maxEpochWalkerNum env.maxEpochWalkerNum)
include hne hload hg hc hsched hmake hfits hwalkers hlen henv hepoch hroom

omit [Floating D] in
/-- What `prepare` leaves for `walk` when `make` could follow the hint: a graph and samplers that
the driver loop can rely on. -/
theorem hint_ready (ok : HintOk g.vNum hint) (hfew : made.partitionNum < 2 ^ 16) (ρ : Type)
    [RandGen ρ] : Ready ρ env ∧ Queried made env.graph ∧
      env.graph.partitionNum = made.partitionNum ∧ ∀ p < made.partitionNum, ∃ sampler,
        Sampler.install env.graph.toMade cfg.l2CacheSize p = some sampler ∧
          Served ρ env.graph p sampler := by
  have ht := made_tiles hmake ok
  have hlaid := made_laid hmake ok hc.sockets
  obtain ⟨r,hr,rfl⟩ := Setup.prepare_ok henv
  have hq := preparedGraph_queried hlaid node2vec.isSome o
  have hwalkable : Walkable ρ (preparedGraph made node2vec.isSome o) :=
    made_walkable hmake ok hload hg hsched hc.sockets hne hfew hfits hq ρ
  refine ⟨⟨hc,hwalkable,hepoch,EstimateArgs.estimateEpochWalker_le hr,hlen,hwalkers,hroom⟩,hq,?_⟩
  obtain ⟨content,bf,hcontent⟩ := Queried.exists_edges hq
  simp only [hcontent]
  exact ⟨rfl,fun p hp => Sampler.install_serves hg hmake ht hc.sockets hp
    (made_nonempty hmake ok hp) (hfits p hp) ρ content cfg.l2CacheSize⟩

/-- So it does for the hints of `get_partition_hint`. -/
theorem prepare_ready (hhint : getPartitionHint walkerPerEdge g cfg costs = some hint)
    (hindices : g.vNum + 2 ^ chooseGroupBits g.vNum ≤ 2 ^ 32) (ρ : Type) [RandGen ρ] :
    Ready ρ env ∧ Queried made env.graph ∧
      env.graph.partitionNum = made.partitionNum ∧ ∀ p < made.partitionNum, ∃ sampler,
        Sampler.install env.graph.toMade cfg.l2CacheSize p = some sampler ∧
          Served ρ env.graph p sampler := by
  obtain ⟨ok,hfew⟩ := hint_partitions hmake hhint hindices
  exact hint_ready hne hload hg hc hsched hmake hfits hwalkers hlen henv hepoch hroom ok hfew ρ

end

end

/-- The samplers that were installed serve their partitions. -/
theorem served_of_installed {ρ R : Type} [RandGen ρ] {env : Setup R} {partitionNum cacheSize : Nat}
    {samplers : Nat → Sampler} (hnum : env.graph.partitionNum = partitionNum)
    (hinstall : ∀ p < partitionNum, ∃ sampler,
      Sampler.install env.graph.toMade cacheSize p = some sampler ∧ Served ρ env.graph p sampler)
    (hsamplers : ∀ p < partitionNum,
      Sampler.install env.graph.toMade cacheSize p = some (samplers p)) :
    ∀ p < env.graph.partitionNum, Served ρ env.graph p (samplers p) := by
  intro p hp
  obtain ⟨sampler,hsampler,hserved⟩ := hinstall p (hnum ▸ hp)
  obtain rfl := Option.some.inj (hsampler.symm.trans (hsamplers p (hnum ▸ hp)))
  exact hserved

/-- In static walks and in node2vec, for every order of the threads' steps and all random draws,
the walkers walk along the edges of the graph, in epochs that add up to all walkers. -/
theorem walk_paths_legal {ρ R D : Type} [RandGen ρ] [RandGenFloat ρ R] [Floating R] [Floating D]
    {edges : List (Nat × Nat)} {g : Loaded} {cfg : MultiThreadConfig} {hint : GraphHint D}
    {schedule : List (Nat × Nat) → List (Nat × Nat)} {made : Made} {env : Setup R}
    (walkerPerEdge : D) (costs : Nat → List (Nat × List (SampleEstimation D)))
    (node2vec : Option (Node2vec R)) (o : QueryOrder) (walkerNum walkLen memQuota : Nat)
    (hne : edges ≠ []) (hload : Loadable true edges) (hg : load edges true = some g)
    (hc : cfg.Valid) (hhint : getPartitionHint walkerPerEdge g cfg costs = some hint)
    (hindices : g.vNum + 2 ^ chooseGroupBits g.vNum ≤ 2 ^ 32)
    (hsched : ∀ l, (schedule l).Perm l) (hmake : make cfg hint schedule g = some made)
    (hfits : ∀ p < made.partitionNum, Sampler.Fits made p)
    (hwalkers : walkerNum < 2 ^ 64) (hlen : 1 ≤ walkLen)
    (henv : Setup.prepare cfg made node2vec o walkerNum walkLen memQuota = .ok env)
    (hepoch : 1 ≤ env.maxEpochWalkerNum)
    (hroom : WalkerManager.Roomy cfg env.maxEpochWalkerNum env.maxEpochWalkerNum) :
    (∀ p < made.partitionNum, ∃ sampler,
      Sampler.install env.graph.toMade cfg.l2CacheSize p = some sampler) ∧
    ∀ samplers : Nat → Sampler, (∀ p < made.partitionNum,
      Sampler.install env.graph.toMade cfg.l2CacheSize p = some (samplers p)) →
      ∀ rands : Nat → ρ, WalksPaths made env (prepared env samplers rands) := by
  obtain ⟨hready,hq,hnum,hinstall⟩ := prepare_ready hne hload hg hc hsched hmake hfits hwalkers hlen
    henv hepoch hroom hhint hindices ρ
  refine ⟨fun p hp => ?_,fun samplers hsamplers rands =>
    walksPaths_of_ready hready hq (served_of_installed hnum hinstall hsamplers) rands⟩
  obtain ⟨sampler,hsampler,_⟩ := hinstall p hp
  exact ⟨sampler,hsampler⟩

/-- A page of memory is enough for three walkers on a graph with one edge. -/
theorem estimate_one_edge {made : Made} {cfg : MultiThreadConfig}
    (hvNum : made.vNum = 1 ∨ made.vNum = 2) (heNum : made.eNum = 2)
    (hundirected : made.asUndirected = true) (hbuffer : bufferEdgeNum made ≤ 2)
    (hcfg : cfg = ⟨1,1,0⟩) (isNode2vec : Bool) (o : QueryOrder) :
    (prepareArgs (preparedGraph made isNode2vec o) cfg isNode2vec 3 2 4096).estimateEpochWalker =
      .ok 3 := by
  have hsize : BloomFilter.calHashTableSize 1 = 32 := by decide
  rw [prepareArgs_eq,heNum,hundirected]
  simp only [if_true,Nat.reduceDiv,hsize]
  generalize bufferEdgeNum made = b at hbuffer
  subst hcfg
  rcases hvNum with h | h <;> rw [h] <;> interval_cases b <;> cases isNode2vec <;> decide

section
variable {edges : List (Nat × Nat)} {g : Loaded} {cfg : MultiThreadConfig}
  {costs : Nat → List (Nat × List (SampleEstimation ℚ))} {hint : GraphHint ℚ}

/-- `prepare` succeeds for three walkers of two vertices in a graph with one edge, in both kinds of
walks. -/
theorem exists_prepared (hne : edges ≠ []) (hload : Loadable true edges)
    (hg : load edges true = some g) (hvNum : g.vNum = 1 ∨ g.vNum = 2) (heNum : g.eNum = 2)
    (hundirected : g.asUndirected = true) (hcfg : cfg = ⟨1,1,0⟩)
    (hhint : getPartitionHint 1 g cfg costs = some hint) (node2vec : Option (Node2vec ℚ))
    (o : QueryOrder) :
    ∃ (made : Made) (env : Setup ℚ) (samplers : Nat → Sampler), cfg.Valid ∧
      g.vNum + 2 ^ chooseGroupBits g.vNum ≤ 2 ^ 32 ∧ make cfg hint id g = some made ∧
      (∀ p < made.partitionNum, Sampler.Fits made p) ∧
      Setup.prepare cfg made node2vec o 3 2 4096 = .ok env ∧ env.node2vec = node2vec ∧
      env.walkerNum = 3 ∧ env.walkLen = 2 ∧ env.maxEpochWalkerNum = 3 ∧
      WalkerManager.Roomy cfg env.maxEpochWalkerNum env.maxEpochWalkerNum ∧
      (∀ p < made.partitionNum,
        Sampler.install env.graph.toMade cfg.l2CacheSize p = some (samplers p)) ∧
      Ready XorRandGen env ∧ Queried made env.graph ∧ Flushes env.graph ∧
      ∀ p < env.graph.partitionNum, Served XorRandGen env.graph p (samplers p) := by
  have hc : cfg.Valid := by
    subst hcfg
    exact ⟨by decide,by decide,by decide⟩
  have hindices : g.vNum + 2 ^ chooseGroupBits g.vNum ≤ 2 ^ 32 := by
    rcases hvNum with h | h <;> rw [h] <;> decide
  obtain ⟨ok,_,_⟩ := getPartitionHint_spec hindices hhint
  obtain ⟨k,units,hmake,_⟩ := ok.make_isSome id (by omega) hc.threads
  obtain ⟨made,hmade⟩ : ∃ made, made = assemble cfg hint id g
    (hint.groupHints.map (groupRow g.vNum)).flatten k units := ⟨_,rfl⟩
  rw [← hmade] at hmake
  have ht := made_tiles hmake ok
  obtain ⟨hnum,hedges,hkind⟩ : made.vNum = g.vNum ∧ made.eNum = g.eNum ∧
      made.asUndirected = g.asUndirected := by
    rw [hmade]
    exact ⟨rfl,rfl,rfl⟩
  have hfits : ∀ p < made.partitionNum, Sampler.Fits made p :=
    fun p hp => fits_of_small hg hc.sockets hmake ht (by omega) hp
  have hbuffer := bufferEdgeNum_le hg hc.sockets hmake ht
  have hestimate := estimate_one_edge (hnum.symm ▸ hvNum) (hedges.trans heNum)
    (hkind.trans hundirected) (Nat.le_trans hbuffer (Nat.le_of_eq (hedges.trans heNum))) hcfg
    node2vec.isSome o
  have henv : Setup.prepare cfg made node2vec o 3 2 4096 =
      .ok ⟨cfg,preparedGraph made node2vec.isSome o,node2vec,3,2,3⟩ := by
    rw [Setup.prepare,hestimate]
    rfl
  have hroom : WalkerManager.Roomy cfg 3 3 := by
    subst hcfg
    unfold WalkerManager.Roomy
    decide
  obtain ⟨hready,hq,hparts,hinstall⟩ := prepare_ready hne hload hg hc (fun l => .refl l) hmake hfits
    (by decide) (by decide) henv (show 1 ≤ 3 by decide) hroom hhint hindices XorRandGen
  have hsome : ∀ p < (preparedGraph made node2vec.isSome o).partitionNum, (Sampler.install
      (preparedGraph made node2vec.isSome o).toMade cfg.l2CacheSize p).isSome := by
    intro p hp
    obtain ⟨smp,hsmp,_⟩ := hinstall p (Nat.lt_of_lt_of_eq hp hparts)
    exact Option.isSome_iff_exists.mpr ⟨smp,hsmp⟩
  obtain ⟨samplers,hsamplers⟩ := Sampler.exists_samplers hsome
  have hinstalled : ∀ p < made.partitionNum, Sampler.install
      (preparedGraph made node2vec.isSome o).toMade cfg.l2CacheSize p = some (samplers p) :=
    fun p hp => hsamplers p (Nat.lt_of_lt_of_eq hp hparts.symm)
  have hflush := flushes_of_small hg hc.sockets hmake ok (by omega) hq
  exact ⟨made,_,samplers,hc,hindices,hmake,hfits,henv,rfl,rfl,rfl,rfl,hroom,hinstalled,hready,
    hq,hflush,served_of_installed hparts hinstall hinstalled⟩

end

/-- An edge between two vertices. -/
theorem exists_one_edge (node2vec : Option (Node2vec ℚ)) (o : QueryOrder) :
    ∃ (cfg : MultiThreadConfig) (costs : Nat → List (Nat × List (SampleEstimation ℚ))) (g : Loaded)
      (hint : GraphHint ℚ) (made : Made) (env : Setup ℚ) (samplers : Nat → Sampler),
      cfg.Valid ∧ Loadable true [(0,1)] ∧ load [(0,1)] true = some g ∧
      getPartitionHint 1 g cfg costs = some hint ∧
      g.vNum + 2 ^ chooseGroupBits g.vNum ≤ 2 ^ 32 ∧ make cfg hint id g = some made ∧
      (∀ p < made.partitionNum, Sampler.Fits made p) ∧
      Setup.prepare cfg made node2vec o 3 2 4096 = .ok env ∧ env.node2vec = node2vec ∧
      env.walkerNum = 3 ∧ env.walkLen = 2 ∧ env.maxEpochWalkerNum = 3 ∧
      WalkerManager.Roomy cfg env.maxEpochWalkerNum env.maxEpochWalkerNum ∧
      (∀ p < made.partitionNum,
        Sampler.install env.graph.toMade cfg.l2CacheSize p = some (samplers p)) ∧
      Ready XorRandGen env ∧ Queried made env.graph ∧ Flushes env.graph ∧
      ∀ p < env.graph.partitionNum, Served XorRandGen env.graph p (samplers p) := by
  have hload : Loadable true [(0,1)] := loadable_of_length (by decide)
  have hg : load [(0,1)] true = some ⟨true,2,2,[(0,1)],[0,1],[⟨1,1⟩,⟨0,1⟩],[0,1,2]⟩ := rfl
  obtain ⟨hint,hhint⟩ := exists_hint_one_edge
  obtain ⟨made,env,samplers,hc,hindices,hprepared⟩ := exists_prepared (List.cons_ne_nil _ _) hload hg
    (.inr rfl) rfl rfl rfl hhint node2vec o
  exact ⟨_,_,_,hint,made,env,samplers,hc,hload,hg,hhint,hindices,hprepared⟩

/-- One edge and three walkers of two vertices. -/
theorem walk_paths_legal_one_edge : ∃ (made : Made) (env : Setup ℚ) (samplers : Nat → Sampler),
    env.node2vec = none ∧ Flushes env.graph ∧ env.walkerNum = 3 ∧ env.walkLen = 2 ∧
      ∀ rands : Nat → XorRandGen, WalksPaths made env (prepared env samplers rands) := by
  let o : QueryOrder := ⟨id,id,fun _ => .refl _,fun _ => .refl _⟩
  obtain ⟨cfg,costs,g,hint,made,env,samplers,hc,hload,hg,hhint,hindices,hmake,hfits,henv,hstatic,
    hnum,hlen,hmax,hroom,hsamplers,_,_,hflush,_⟩ := exists_one_edge none o
  obtain ⟨_,hpaths⟩ := walk_paths_legal (ρ := XorRandGen) (1 : ℚ) costs none o 3 2 4096
    (List.cons_ne_nil _ _) hload hg hc hhint hindices (fun l => .refl l) hmake hfits (by decide)
    (by decide) henv (by omega) hroom
  exact ⟨made,env,samplers,hstatic,hflush,hnum,hlen,hpaths samplers hsamplers⟩

end FlashMob.Solver
