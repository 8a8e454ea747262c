import FlashMob.Program.Draws
import FlashMob.Walk.Transitions

namespace FlashMob.Program
open FlashMob.Benchmark FlashMob.Graph FlashMob.Partition FlashMob.Sampling FlashMob.Solver
  FlashMob.Tools FlashMob.WalkManager Lib.Rejection Lib.Remainders

section
variable {D K : Type} [Floating D] [DoubleText D] [Field K] [LinearOrder K]
  [FloorSemiring K] {opt : WalkOptions K} {edges : List (Nat × Nat)}
  {file : Option (List Char)} {schedule : List (Nat × Nat) → List (Nat × Nat)}
  {times : List (MiniBMKItem D)} {made : Made} {env : Setup K}

theorem MakesGraph.answers (h : MakesGraph opt edges file schedule times made)
    (hf : Feasible opt edges) {o : QueryOrder}
    (henv : Setup.prepare opt.cfg made opt.node2vec o (opt.getWalkerNum made.vNum) opt.walkLen
      opt.memQuota = .ok env) (hnode2vec : opt.node2vec.isSome = true) {u s : Nat} (hu : u < made.vNum)
    (hs : s < made.socketNum) (y : Nat) :
    env.graph.hasNeighbor u y s = some (decide (y ∈ made.neighbors s u)) := by
  obtain ⟨hg,_,_,_,hhint,hmake⟩ := h
  have hsmall := hf.small
  obtain ⟨hv,_,_⟩ := load_sizes hf.loadable hg
  obtain ⟨ok,_⟩ := hint_partitions hmake hhint (indices_of_small (by omega))
  have hlaid := made_laid hmake ok hf.config.sockets
  obtain ⟨_,_,rfl⟩ := Setup.prepare_ok henv
  obtain ⟨hq,hbf⟩ := prepared_queried hlaid [o]
  simp only [preparedGraph,hnode2vec,if_true]
  exact hq.hasNeighbor_eq hlaid (hbf (List.cons_ne_nil _ _)) hu hs y

variable [IsStrictOrderedRing K]

theorem MakesGraph.exists_law (h : MakesGraph opt edges file schedule times made)
    (hf : Feasible opt edges) (hflush : 2 * edges.length + 16 ≤ 2 ^ 32) (hsched : ∀ l, (schedule l).Perm l) {o : QueryOrder}
    (henv : Setup.prepare opt.cfg made opt.node2vec o (opt.getWalkerNum made.vNum) opt.walkLen
      opt.memQuota = .ok env) {p q : K} (hpq : opt.pq = some (p,q)) (hp : 0 < p) (hq : 0 < q)
    {i : Nat} (hi : i < made.partitionNum) {smp : Sampler}
    (hsmp : Sampler.install env.graph.toMade opt.cfg.l2CacheSize i = some smp) {us : List Use}
    (hin : ∀ v ∈ Use.vertices us, env.graph.partitionBegin i ≤ v ∧ v < env.graph.partitionEnd i)
    {previous current : Nat} (hprevious : previous < made.vNum)
    (hlo : env.graph.partitionBegin i ≤ current) (hhi : current < env.graph.partitionEnd i)
    (t n : Nat) :
    let s := partitionSocket env.graph.socketNum i
    let adj := env.graph.adjlists s current
    s < made.socketNum ∧ (adj = env.graph.adjlists 0 current ∧ 0 < adj.degree ∧ adj.degree < 2 ^ 32) ∧
    ∃ cells, TransitionLaw p q env.graph adj (made.neighbors s previous) s previous current n t smp us
      cells := by
  intro s adj
  obtain ⟨env',henv',_,hqueried,hnum,hinstall⟩ := h.ready hf hsched o WordStream
  obtain rfl := Except.ok.inj (henv.symm.trans henv')
  have : Nonempty Sampler := ⟨smp⟩
  choose! samplers hsamplers using hinstall
  obtain ⟨hinstalled,hserved⟩ := hsamplers i hi
  obtain rfl := Option.some.inj (hinstalled.symm.trans hsmp)
  obtain ⟨htable,hunread⟩ := h.sampled hf henv (fun p hp => (hsamplers p hp).1)
  have hs : s < made.socketNum := by
    have hsocket : env.graph.socketNum = made.socketNum :=
      (show _ = Made.socketNum _ by rw [← hqueried.same])
    obtain ⟨_,_,_,_,_,hmake⟩ := h
    obtain ⟨_,_,_,hsockets⟩ := make_sizes hmake
    rw [← hsocket]
    exact partitionSocket_lt (hsocket ▸ hsockets ▸ hf.config.sockets) i
  have hsame : env.graph.adjlists s = env.graph.adjlists 0 := htable.tables i (hnum ▸ hi)
  have hdegrees : ∀ v, env.graph.partitionBegin i ≤ v → v < env.graph.partitionEnd i →
      0 < (env.graph.adjlists s v).degree ∧ (env.graph.adjlists s v).degree + 16 ≤ 2 ^ 32 := by
    intro v hlo hhi
    refine ⟨?_,h.flushes hf hflush hqueried i (hnum ▸ hi) v hlo hhi⟩
    rw [hsame]
    exact (htable.degrees i (hnum ▸ hi) v hlo hhi).1
  obtain ⟨hpos,hlarge⟩ := hdegrees current hlo hhi
  refine ⟨hs,⟨congrFun hsame current,hpos,Nat.lt_of_lt_of_le (Nat.lt_add_of_pos_right (by decide))
    hlarge⟩,?_⟩
  exact exists_transitionLaw hp hq hserved (hunread i hi) hdegrees hin hlo hhi
    (fun y => h.answers hf henv (by rw [WalkOptions.node2vec,hpq]; rfl) hprevious hs y) t n

/-- In a node2vec run, whatever the threads have sampled for a partition and whichever thread walks
next, the vertices that it can walk to in up to `n` attempts are spread as node2vec has it: a
neighbour is sampled nearly uniformly, and kept in proportion to its bound. -/
theorem node2vec_transition_law (o : QueryOrder) (hf : Feasible opt edges)
    (hflush : 2 * edges.length + 16 ≤ 2 ^ 32)
    (hsched : ∀ l, (schedule l).Perm l) (hmade : MakesGraph opt edges file schedule times made)
    (henv : Setup.prepare opt.cfg made opt.node2vec o (opt.getWalkerNum made.vNum) opt.walkLen
      opt.memQuota = .ok env) {p q : K} (hpq : opt.pq = some (p,q)) (hp : 0 < p) (hq : 0 < q)
    {i : Nat} (hi : i < made.partitionNum) {smp : Sampler}
    (hsmp : Sampler.install env.graph.toMade opt.cfg.l2CacheSize i = some smp) (us : List Use)
    (hin : ∀ v ∈ Use.vertices us, env.graph.partitionBegin i ≤ v ∧ v < env.graph.partitionEnd i)
    {previous current : Nat} (hprevious : previous < made.vNum)
    (hlo : env.graph.partitionBegin i ≤ current) (hhi : current < env.graph.partitionEnd i)
    (t n : Nat) :
    let s := partitionSocket env.graph.socketNum i
    let adj := env.graph.adjlists s current
    env.node2vec = some (setNode2vec p q) ∧
    NearlyUniform (1 / 2 ^ 32) (readList env.graph.edges adj) (sampledBy env.graph.edges adj) ∧
    ∃ cells, TransitionLaw p q env.graph adj (made.neighbors s previous) s previous current n t smp us
      cells := by
  intro s adj
  obtain ⟨_,⟨_,hpos,_⟩,hlaw⟩ :=
    hmade.exists_law hf hflush hsched henv hpq hp hq hi hsmp hin hprevious hlo hhi t n
  refine ⟨?_,sampledBy_nearlyUniform _ hpos,hlaw⟩
  obtain ⟨_,_,rfl⟩ := Setup.prepare_ok henv
  simp only [WalkOptions.node2vec,hpq,Option.map_some]

end

/-- A page of memory is enough for three walkers on a triangle. -/
theorem feasible_triangle {opt : WalkOptions ℚ} {pq : ℚ × ℚ}
    (hopt : opt = ⟨⟨2,1,0⟩,4096,.binaryGraphFormat,0,3,2,some pq⟩) :
    Feasible opt [(0,1),(1,2),(2,0)] ∧ LoopsEnd opt [(0,1),(1,2),(2,0)] := by
  have hargs : inputArgs opt [(0,1),(1,2),(2,0)] = ⟨3,6,6,3,2,1,4096,32⟩ := by
    rw [hopt]
    rfl
  have hthree : EstimateArgs.estimateEpochWalker ⟨3,6,6,3,2,1,4096,32⟩ = .ok 3 := by decide
  have hcfg : opt.cfg = ⟨2,1,0⟩ ∧ opt.memQuota = 4096 ∧ opt.walkLen = 2 := by
    rw [hopt]
    exact ⟨rfl,rfl,rfl⟩
  obtain ⟨hconfig,hquota,hlen⟩ := hcfg
  refine ⟨⟨?_,?_,by decide,by decide,?_,?_,?_,?_,?_,?_,?_⟩,by decide,?_⟩
  all_goals simp only [hconfig,hquota,hlen,hargs]
  · exact ⟨by decide,by decide,by decide⟩
  all_goals try decide
  all_goals
    intro n hn
    cases hthree.symm.trans hn
    decide

theorem node2vec_transition_law_triangle : ∃ (env : Setup ℚ) (smp : Sampler) (made : Made) (i : Nat),
    made.vNum = 3 ∧ env.node2vec = some (setNode2vec (1 / 4) 4) ∧
    ∃ cells, TransitionLaw (1 / 4 : ℚ) 4 env.graph
      (env.graph.adjlists (partitionSocket env.graph.socketNum i) 1)
      (made.neighbors (partitionSocket env.graph.socketNum i) 0)
      (partitionSocket env.graph.socketNum i) 0 1 8 0 smp [.sample 0 1,.other 0,.sample 1 1]
      cells := by
  obtain ⟨opt,hopt⟩ : ∃ opt : WalkOptions ℚ,
      opt = ⟨⟨2,1,0⟩,4096,.binaryGraphFormat,0,3,2,some (1 / 4,4)⟩ := ⟨_,rfl⟩
  obtain ⟨hf,hends⟩ := feasible_triangle hopt
  obtain ⟨times,made,hmade⟩ := hf.exists_makesGraph (K := ℚ) hends Starts.first id
  let o : QueryOrder := ⟨id,id,fun _ => .refl _,fun _ => .refl _⟩
  obtain ⟨env,henv,hready,hqueried,hnum,hinstall⟩ := hmade.ready hf (fun l => .refl l) o WordStream
  have hv : made.vNum = 3 := by
    obtain ⟨hg,_,_,_,_,hmake⟩ := hmade
    rw [(make_sizes hmake).1,(load_sizes hf.loadable hg).1]
    rfl
  obtain ⟨hpart,hlo,hhi⟩ := hready.graph.lookup 0 1 (by rw [hqueried.vNum,hv]; decide)
  rw [hnum] at hpart
  obtain ⟨smp,hsmp,_⟩ := hinstall _ hpart
  have hin : ∀ v ∈ Use.vertices [.sample 0 1,.other 0,.sample 1 1],
      env.graph.partitionBegin (env.graph.partitionId 0 1) ≤ v ∧
        v < env.graph.partitionEnd (env.graph.partitionId 0 1) := by
    intro v hv
    rw [show v = 1 from (show ∀ v ∈ [1,1], v = 1 by decide) v hv]
    exact ⟨hlo,hhi⟩
  obtain ⟨hnode2vec,_,hlaw⟩ := node2vec_transition_law o hf hends.flush (fun l => .refl l) hmade
    henv
    (p := 1 / 4) (q := 4) (by rw [hopt]) (by norm_num) (by norm_num) hpart hsmp
    _ hin (show 0 < made.vNum by omega) hlo hhi 0 8
  exact ⟨env,smp,made,_,hv,hnode2vec,hlaw⟩

end FlashMob.Program
