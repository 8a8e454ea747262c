import FlashMob.Solver.Previous

namespace FlashMob.Solver
open FlashMob.Graph FlashMob.Message FlashMob.Partition FlashMob.Sampling FlashMob.WalkManager Lib.Runs

section
variable {ρ R : Type} [RandGen ρ] [RandGenFloat ρ R] [Floating R] (env : Setup R)

/-- The vertices that thread `t` samples for a message, in its first `fuel` attempts. -/
def FMobSolver.sampled (l t : Nat) (x : Item) (fuel : Nat) (s : FMobSolver ρ) : List Nat :=
  let mt := s.tasks x.task
  match env.node2vecWalk l with
  | none => (walkMessage env.graph (mt.shuffledMessages x.slot) (s.samplers x.partition)
      (s.rands t) : Option (Moved ρ R)).toList.map Moved.nextVertex
  | some wm => node2vecAttempts wm env.graph (partitionSocket env.graph.socketNum x.partition)
      (mt.shuffledStates x.slot) (mt.shuffledMessages x.slot) fuel (s.samplers x.partition)
      (s.rands t)

/-- The assertions of the actions that can be performed next. -/
structure Asserts (st : State ρ) : Prop where
  /-- `p_i < partition_num`, for the messages of a task that is prepared, -/
  partition : ∀ l todo, st.phase = .shuffle l todo → ∀ t ∈ todo,
    ∀ m ∈ (st.solver.tasks t).range, (st.solver.tasks t).narrowId env.graph.toGroups
      (st.solver.walks st.solver.currentVertices m) < (st.solver.tasks t).partitionNum
  /-- `next_vertex < v_num`, in every attempt to walk a message, -/
  vertex : ∀ l progress, st.phase = .walk l progress → ∀ t x progress',
    RegionStep (walkRegion env.cfg env.graph.partitionNum st.solver.tasks) progress
      (some (.message t x)) progress' →
    ∀ fuel, ∀ y ∈ st.solver.sampled env l t x fuel, y < env.graph.vNum
  /-- and `current_vertex != next_vertex` behind the rejection loop. -/
  moved : ∀ l progress, st.phase = .walk l progress → ∀ t x progress',
    RegionStep (walkRegion env.cfg env.graph.partitionNum st.solver.tasks) progress
      (some (.message t x)) progress' → env.node2vecWalk l ≠ none →
    ∀ fuel m, st.solver.walkItem env l t x fuel = some m →
      (st.solver.tasks x.task).shuffledMessages x.slot ≠ m.nextVertex

end

def TodoBelow {ρ R : Type} (env : Setup R) (st : State ρ) : Prop :=
  ∀ l todo, st.phase = .shuffle l todo → ∀ t ∈ todo, t < env.cfg.threadNum

theorem enterStep_todoBelow {ρ R : Type} {env : Setup R} {s : FMobSolver ρ} {l : Nat} {st : State ρ}
    (h : enterStep env l s = some st) : TodoBelow env st := by
  intro l' todo hphase t ht
  rw [enterStep] at h
  split_ifs at h
  · obtain ⟨tasks,_,rfl⟩ := Option.map_eq_some_iff.mp h
    cases hphase
    exact List.mem_range.mp ht
  · cases h
    cases hphase

section
variable {ρ R : Type} [RandGen ρ] {env : Setup R} {tr : List (Action R)} {s : FMobSolver ρ}
  {l t : Nat} {x : Item} {todo : List Nat} {progress progress' : WalkManager.Progress Item}

theorem Shuffling.partition_lt (hready : Ready ρ env) (ha : Always env tr s)
    (h : Shuffling env s l todo) (ht : t < env.cfg.threadNum) {w : Nat}
    (hw : w ∈ (s.tasks t).range) : (s.tasks t).narrowId env.graph.toGroups
      (s.walks s.currentVertices w) < (s.tasks t).partitionNum := by
  have hv := h.step.vertex_lt hready (h.ranged.mem_lt ht hw)
    (Nat.sub_lt h.step.first Nat.one_pos)
  rw [← h.step.current] at hv
  have hlt := (hready.graph.lookup (s.tasks t).socket _ hv).1
  rw [ha.parts t ht,MessageTask.narrowId,u16_of_lt (Nat.lt_trans hlt hready.graph.few)]
  exact hlt

variable [RandGenFloat ρ R] [Floating R]

theorem TodoBelow.step {st st' : State ρ} {o : Option (Action R)} (h : TodoBelow env st)
    (hs : Step env st o st') : TodoBelow env st' := by
  cases hs with
  | copied henter => exact enterStep_todoBelow henter
  | updated henter => exact enterStep_todoBelow henter
  | shuffle _ =>
    intro l' todo' hphase t' ht'
    cases hphase
    exact h _ _ rfl t' (List.mem_of_mem_erase ht')
  | _ => exact fun _ _ hphase => nomatch hphase

theorem mem_sampled (hready : Ready ρ env) (ha : Always env tr s) {v socket fuel : Nat}
    (hv : v < env.graph.vNum) (hp : x.partition = env.graph.partitionId socket v)
    (hcontent : (s.tasks x.task).shuffledMessages x.slot = v) {y : Nat}
    (hy : y ∈ s.sampled env l t x fuel) : y ∈ env.graph.neighbors 0 v := by
  obtain ⟨hpart,hlo,hhi⟩ := hready.graph.lookup socket v hv
  rw [← hp] at hpart hlo hhi
  have hserved := ha.served _ hpart
  rw [FMobSolver.sampled] at hy
  cases hn : env.node2vecWalk l with
  | none =>
    simp only [hn,hcontent,List.mem_map,Option.mem_toList] at hy
    obtain ⟨m,hm,rfl⟩ := hy
    exact (walkMessage_wellMoved hready.graph hpart hv hlo hhi hserved hm).neighbor
  | some wm =>
    simp only [hn,hcontent] at hy
    exact mem_node2vecAttempts hready.graph hpart hv hlo hhi hserved hy

/-- In a static walk, in a walk without a step, and where no vertex is its own neighbour, the
invariant implies the assertions. -/
theorem Holds.asserts (hready : Ready ρ env)
    (hself : env.node2vec = none ∨ env.walkLen = 1 ∨
      ∀ v < env.graph.vNum, v ∉ env.graph.neighbors 0 v)
    {st : State ρ} (hbelow : TodoBelow env st) (hholds : Holds env tr st) : Asserts env st := by
  obtain ⟨ha,hstage⟩ := hholds
  obtain ⟨s,phase⟩ := st
  refine ⟨fun l todo hphase t ht w hw => ?_,fun l progress hphase t x progress' hs fuel y hy => ?_,
    fun l progress hphase t x progress' hs hn fuel m hm => ?_⟩
  · obtain rfl : phase = .shuffle l todo := hphase
    exact Shuffling.partition_lt hready ha hstage (hbelow l todo rfl t ht) hw
  · obtain rfl : phase = .walk l progress := hphase
    obtain ⟨v,socket,hv,hp,hcontent⟩ := Walking.exists_vertex hready ha hstage hs
    exact hready.graph.neighbor_lt v hv y (mem_sampled hready ha hv hp hcontent hy)
  · obtain rfl : phase = .walk l progress := hphase
    obtain ⟨v,socket,hv,hp,hcontent⟩ := Walking.exists_vertex hready ha hstage hs
    have hmoved := walkItem_wellMoved hready ha hv hp hcontent hm
    intro he
    rw [hcontent] at he
    rcases hself with hstatic | hlen | hself
    · rw [Setup.node2vecWalk,hstatic] at hn
      exact hn (by split_ifs <;> rfl)
    · have hstep := Walking.step hstage
      have hinside := Walking.inside hstage
      have hfirst := hstep.first
      omega
    · exact hself v hv (he ▸ hmoved.neighbor)

theorem not_asserts (hready : Ready ρ env) (hone : env.graph.vNum = 1) {wm : Node2vec R}
    (hn : env.node2vec = some wm) {st st' : State ρ} (hholds : Holds env tr st)
    {tests : List (Test R)} (hs : Step env st (some (.message 1 t x tests)) st') :
    ¬Asserts env st := by
  obtain ⟨ha,hstage⟩ := hholds
  cases hs with
  | @message s _ _ fuel _ m progress _ hs hm =>
    intro hasserts
    obtain ⟨v,socket,hv,hp,hcontent⟩ := Walking.exists_vertex hready ha hstage hs
    have hmoved := walkItem_wellMoved hready ha hv hp hcontent hm
    have hnext := hready.graph.neighbor_lt v hv _ hmoved.neighbor
    have hsome : env.node2vecWalk 1 ≠ none := by
      rw [node2vecWalk_eq (Nat.le_refl 1),hn]
      exact Option.some_ne_none wm
    refine hasserts.moved 1 progress rfl t x _ hs hsome fuel m hm ?_
    rw [hcontent]
    omega

end

theorem run_todoBelow {ρ R : Type} [RandGen ρ] [RandGenFloat ρ R] [Floating R] {env : Setup R}
    {samplers : Nat → Sampler} {rands : Nat → ρ} {tr : List (Action R)} {st : State ρ}
    (hr : Run (Step env) (prepared env samplers rands) tr st) : TodoBelow env st := by
  refine hr.invariant (fun _ st => TodoBelow env st) (fun l todo hphase => ?_)
    (fun _ _ _ _ h hs => h.step hs)
  cases hphase

/-- No assertion of the walk fails, for every hint, all random draws and every order of the threads'
steps, when the walk is static, paths have one vertex or no edge is a loop. -/
theorem walk_asserts_hold {ρ R D : Type} [RandGen ρ] [RandGenFloat ρ R] [Floating R]
    {edges : List (Nat × Nat)} {g : Loaded} {cfg : MultiThreadConfig} {hint : GraphHint D}
    {schedule : List (Nat × Nat) → List (Nat × Nat)} {made : Made} {env : Setup R}
    (node2vec : Option (Node2vec R)) (o : QueryOrder) (walkerNum walkLen memQuota : Nat)
    (hne : edges ≠ []) (hload : Loadable true edges) (hg : load edges true = some g)
    (hc : cfg.Valid) (ok : HintOk g.vNum hint) (hfew : made.partitionNum < 2 ^ 16)
    (hsched : ∀ l, (schedule l).Perm l) (hmake : make cfg hint schedule g = some made)
    (hfits : ∀ p < made.partitionNum, Sampler.Fits made p)
    (hwalkers : walkerNum < 2 ^ 64) (hlen : 1 ≤ walkLen)
    (henv : Setup.prepare cfg made node2vec o walkerNum walkLen memQuota = .ok env)
    (hepoch : 1 ≤ env.maxEpochWalkerNum)
    (hroom : WalkerManager.Roomy cfg env.maxEpochWalkerNum env.maxEpochWalkerNum)
    (hwalk : node2vec = none ∨ walkLen = 1 ∨ ∀ e ∈ edges, e.1 ≠ e.2)
    (samplers : Nat → Sampler) (hsamplers : ∀ p < made.partitionNum,
      Sampler.install env.graph.toMade cfg.l2CacheSize p = some (samplers p))
    (rands : Nat → ρ) (tr : List (Action R)) (st : State ρ)
    (hr : Run (Step env) (prepared env samplers rands) tr st) : Asserts env st := by
  obtain ⟨hready,hq,hnum,hinstall⟩ := hint_ready hne hload hg hc hsched hmake hfits hwalkers hlen
    henv hepoch hroom ok hfew ρ
  have hserved := served_of_installed hnum hinstall hsamplers
  have hself : env.node2vec = none ∨ env.walkLen = 1 ∨
      ∀ v < env.graph.vNum, v ∉ env.graph.neighbors 0 v := by
    obtain ⟨_,_,he⟩ := Setup.prepare_ok henv
    refine hwalk.imp (fun hstatic => ?_) (Or.imp (fun hone => ?_) (fun hloop v hv hmem => ?_))
    · rw [he]
      exact hstatic
    · rw [he]
      exact hone
    · rw [hq.vNum] at hv
      exact made_self_not_mem hmake ok hload hg hsched hc.sockets hloop hv
        ((hq.neighbors_perm hv).mem_iff.mp hmem)
  exact Holds.asserts hready hself (run_todoBelow hr)
    (run_holds hready (prepared_holds hready rands hserved) hr)

theorem walk_asserts_hold_one_edge : ∃ (env : Setup ℚ) (samplers : Nat → Sampler),
    env.node2vec = some (setNode2vec 1 1) ∧ env.walkerNum = 3 ∧ env.walkLen = 2 ∧
      ∀ (rands : Nat → XorRandGen) (tr : List (Action ℚ)) (st : State XorRandGen),
        Run (Step env) (prepared env samplers rands) tr st → Asserts env st := by
  let o : QueryOrder := ⟨id,id,fun _ => .refl _,fun _ => .refl _⟩
  obtain ⟨cfg,costs,g,hint,made,env,samplers,hc,hload,hg,hhint,hindices,hmake,hfits,henv,hn,hnum,
    hlen,hmax,hroom,hsamplers,_⟩ := exists_one_edge (some (setNode2vec 1 1)) o
  obtain ⟨ok,hfew⟩ := hint_partitions hmake hhint hindices
  exact ⟨env,samplers,hn,hnum,hlen,walk_asserts_hold (some (setNode2vec 1 1)) o 3 2 4096
    (List.cons_ne_nil _ _) hload hg hc ok hfew (fun l => .refl l) hmake hfits (by decide) (by decide)
    henv (by omega) hroom (.inr (.inr (by decide))) samplers hsamplers⟩

theorem exists_hint_loop :
    let graph : Loaded := ⟨true,1,2,[(0,0)],[0],[⟨0,2⟩],[0,2]⟩
    let cfg : MultiThreadConfig := ⟨1,1,0⟩
    let costs : Nat → List (Nat × List (SampleEstimation ℚ)) :=
      fun _ => [(1,[⟨.classDirectSampler,3⟩])]
    ∃ hint : GraphHint ℚ, getPartitionHint 1 graph cfg costs = some hint := by
  intro graph cfg costs
  have hmenus : (List.range (partitionInput 1 graph cfg costs).groupNum).mapM
      (fun g => (partitionInput 1 graph cfg costs).menus g) =
      some [[⟨0,1,0,1,2,[[(.classDirectSampler,24)]]⟩]] := by decide +kernel
  exact exists_hint hmenus (by simp) ⟨_,.cons List.mem_cons_self .nil,by simp [maxPartitionNum]⟩

/-- The graph of one loop is loaded and made, and a node2vec walk on it fails an assertion. -/
theorem walk_asserts_fail : ∃ (cfg : MultiThreadConfig) (g : Loaded) (hint : GraphHint ℚ)
    (made : Made) (env : Setup ℚ) (samplers : Nat → Sampler) (rands : Nat → XorRandGen)
    (tr : List (Action ℚ)) (st : State XorRandGen), cfg.Valid ∧ load [(0,0)] true = some g ∧
      getPartitionHint 1 g cfg (fun _ => [(1,[⟨.classDirectSampler,3⟩])]) = some hint ∧
      make cfg hint id g = some made ∧
      Setup.prepare cfg made (some (setNode2vec 1 1)) ⟨id,id,fun _ => .refl _,fun _ => .refl _⟩ 3 2
        4096 = .ok env ∧
      (∀ p < made.partitionNum,
        Sampler.install env.graph.toMade cfg.l2CacheSize p = some (samplers p)) ∧
      Run (Step env) (prepared env samplers rands) tr st ∧ ¬Asserts env st := by
  let o : QueryOrder := ⟨id,id,fun _ => .refl _,fun _ => .refl _⟩
  let rands : Nat → XorRandGen := fun t => ⟨t + 1⟩
  have hload : Loadable true [(0,0)] := loadable_of_length (by decide)
  obtain ⟨g,hg,hnum⟩ : ∃ g : Loaded, load [(0,0)] true = some g ∧
      g = ⟨true,1,2,[(0,0)],[0],[⟨0,2⟩],[0,2]⟩ := ⟨_,rfl,rfl⟩
  obtain ⟨hint,hhint⟩ := exists_hint_loop
  rw [← hnum] at hhint
  obtain ⟨cfg,hcfg⟩ : ∃ cfg : MultiThreadConfig, cfg = ⟨1,1,0⟩ := ⟨_,rfl⟩
  rw [← hcfg] at hhint
  obtain ⟨made,env,samplers,hc,hindices,hmake,hfits,henv,hn,hwalkers,hlen,hmax,hroom,hsamplers,hready,
    hq,hflush,hserved⟩ := exists_prepared (List.cons_ne_nil _ _) hload hg (.inl (by rw [hnum])) (by rw [hnum])
      (by rw [hnum]) hcfg hhint (some (setNode2vec 1 1)) o
  have hone : env.graph.vNum = 1 := by
    rw [hq.vNum,(make_sizes hmake).1,hnum]
  obtain ⟨tr,st,t,x,tests,st',hr,hs⟩ :=
    exists_first_message_prepared hn hready hflush (by omega) (by omega) hserved rands
  exact ⟨cfg,g,hint,made,env,samplers,rands,tr,st,hc,hg,hhint,hmake,henv,hsamplers,hr,
    not_asserts hready hone hn (run_holds hready (prepared_holds hready rands hserved) hr) hs⟩

end FlashMob.Solver
