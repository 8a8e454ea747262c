import FlashMob.Program.Main
import FlashMob.Solver.Confluence
import FlashMob.Solver.Interleaved

namespace FlashMob.Program
open FlashMob.Benchmark FlashMob.Graph FlashMob.Message FlashMob.Partition FlashMob.Sampling
  FlashMob.Solver FlashMob.Tools FlashMob.WalkManager Lib.Runs Lib.Traces

section
variable {ρ D R : Type} [RandGen ρ] [Floating D] [DoubleText D] [Floating R]
  {opt : WalkOptions R} {edges : List (Nat × Nat)} {file : Option (List Char)}
  {schedule : List (Nat × Nat) → List (Nat × Nat)} {times : List (MiniBMKItem D)} {made : Made}
  {env : Setup R}

theorem MakesGraph.holds (h : MakesGraph opt edges file schedule times made) (hf : Feasible opt edges)
    (hsched : ∀ l, (schedule l).Perm l) {o : QueryOrder}
    (henv : Setup.prepare opt.cfg made opt.node2vec o (opt.getWalkerNum made.vNum) opt.walkLen
      opt.memQuota = .ok env) {samplers : Nat → Sampler}
    (hsamplers : ∀ p < made.partitionNum,
      Sampler.install env.graph.toMade opt.cfg.l2CacheSize p = some (samplers p)) (rands : Nat → ρ) :
    Ready ρ env ∧ Holds env [] (prepared env samplers rands) := by
  obtain ⟨env',henv',hready,_,hnum,hinstall⟩ := h.ready hf hsched o ρ
  obtain rfl := Except.ok.inj (henv.symm.trans henv')
  exact ⟨hready,prepared_holds hready rands (served_of_installed hnum hinstall hsamplers)⟩

end

theorem exists_two_threads : ∃ (opt : WalkOptions ℚ) (times : List (MiniBMKItem ℚ)) (made : Made)
    (env : Setup ℚ) (samplers : Nat → Sampler), Feasible opt [(0,1)] ∧
      MakesGraph opt [(0,1)] none id times made ∧
      Setup.prepare opt.cfg made opt.node2vec ⟨id,id,fun _ => .refl _,fun _ => .refl _⟩
        (opt.getWalkerNum made.vNum) opt.walkLen opt.memQuota = .ok env ∧
      (∀ p < made.partitionNum,
        Sampler.install env.graph.toMade opt.cfg.l2CacheSize p = some (samplers p)) ∧
      env.cfg = ⟨2,1,0⟩ ∧ env.walkerNum = 64 ∧ env.maxEpochWalkerNum = 64 ∧ env.node2vec = none ∧
      Flushes env.graph ∧ env.walkLen = 2 := by
  obtain ⟨opt,hopt⟩ : ∃ opt : WalkOptions ℚ,
      opt = ⟨⟨2,1,0⟩,4096,.binaryGraphFormat,0,64,2,none⟩ := ⟨_,rfl⟩
  obtain ⟨hf,hends⟩ := feasible_one_edge hopt (.inr rfl)
  obtain ⟨times,made,hmade⟩ := hf.exists_makesGraph (K := ℚ) hends Starts.first id
  obtain ⟨env,henv,_,hq,_,hinstall⟩ := hmade.ready hf (fun l => .refl l)
    ⟨id,id,fun _ => .refl _,fun _ => .refl _⟩ XorRandGen
  have hflush := hmade.flushes hf hends.flush hq
  have : Nonempty Sampler := ⟨.direct ⟨made.adjlists 0⟩⟩
  choose! samplers hsamplers using hinstall
  have hall : env.maxEpochWalkerNum = 64 := by
    obtain ⟨r,hr,rfl⟩ := Setup.prepare_ok henv
    obtain ⟨hbuffer,hargs⟩ := hmade.prepareArgs_eq hf ⟨id,id,fun _ => .refl _,fun _ => .refl _⟩
    have hsome : opt.node2vec.isSome = opt.pq.isSome := Option.isSome_map
    have hinput : inputArgs opt [(0,1)] = ⟨2,2,2,64,2,1,4096,0⟩ := by
      rw [hopt]
      rfl
    rw [hsome,hargs,hinput] at hr
    generalize bufferEdgeNum made = b at hbuffer hr
    have hb : b ≤ 2 := hbuffer
    have h64 : ∀ b ≤ 2, EstimateArgs.estimateEpochWalker ⟨2,2,b,64,2,1,4096,0⟩ = .ok 64 := by decide
    exact Except.ok.inj (hr.symm.trans (h64 b hb))
  refine ⟨opt,times,made,env,samplers,hf,hmade,henv,fun p hp => (hsamplers p hp).1,?_⟩
  obtain ⟨_,_,rfl⟩ := Setup.prepare_ok henv
  rw [hopt] at hall hflush ⊢
  exact ⟨rfl,rfl,hall,rfl,hflush,rfl⟩

/-- `MessageManager` shuffles and updates without locks: in every run of the driver loop, whenever
one of these two parallel regions begins, its threads never race, come to their ends, and leave in
memory what they would leave one after the other. -/
theorem message_regions_interleaved {ρ R : Type} [RandGen ρ] [RandGenFloat ρ R] [Floating R]
    {env : Setup R} (hready : Ready ρ env) (samplers : Nat → Sampler)
    (hserved : ∀ p < env.graph.partitionNum, Served ρ env.graph p (samplers p)) (rands : Nat → ρ)
    (tr : List (Action R)) (s : FMobSolver ρ) (l : Nat) (phase phase' : Phase)
    (prog : Fin env.cfg.threadNum → Code)
    (hr : Run (Step env) (prepared env samplers rands) tr ⟨s,phase⟩)
    (hregion : MessageRegion env s l phase prog phase') :
    (∃ mem, InMemory env s l mem) ∧
      ∀ mem, InMemory env s l mem → Refines env l prog mem ⟨s,phase⟩ phase' :=
  (run_holds hready (prepared_holds hready rands hserved) hr).refines hregion

theorem message_regions_interleaved_two_threads : ∃ (env : Setup ℚ) (st₀ : State XorRandGen)
    (tr : List (Action ℚ)) (s : FMobSolver XorRandGen) (mem : Loc → Nat), env.cfg.threadNum = 2 ∧
      (s.tasks 0).range = List.range' 0 32 ∧ (s.tasks 1).range = List.range' 32 32 ∧
      Run (Step env) st₀ tr ⟨s,.update 1 (List.range env.cfg.threadNum)⟩ ∧
      Refines env 1 (updateProgram env s) mem ⟨s,.update 1 (List.range env.cfg.threadNum)⟩
        (.update 1 []) := by
  obtain ⟨opt,times,made,env,samplers,hf,hmade,henv,hsamplers,hcfg,hwalkers,hall,hstatic,hflush,
    hlen⟩ := exists_two_threads
  obtain ⟨hready,hholds⟩ := hmade.holds (ρ := XorRandGen) hf (fun l => .refl l) henv hsamplers
    (fun _ => ⟨1⟩)
  obtain ⟨tr,s,hr,hcounters⟩ := exists_update hready hstatic hflush (by omega) hholds rfl
    (by change env.walkerNum ≠ 0; omega)
  obtain ⟨⟨mem,hmem⟩,hrefines⟩ := message_regions_interleaved hready samplers hholds.always.served _
    tr s 1 _ _ _ hr .update
  have hdealt : Dealt env s := by
    refine (run_dealt hready hholds (fun _ _ => .refl _) hr).resolve_right ?_
    change ¬s.counters.restWalkerNum < _
    rw [hcounters,hall]
    change ¬env.walkerNum < 64
    omega
  have hrange : ∀ t < 2, (s.tasks t).range =
      (MessageManager.init ⟨2,1,0⟩ 64 env.graph.partitionNum t).range := by
    intro t ht
    have hsame := hdealt t (by rw [hcfg]; exact ht)
    rw [hcfg,hall] at hsame
    exact hsame.range
  exact ⟨env,_,tr,s,mem,by rw [hcfg],(hrange 0 (by decide)).trans rfl,
    (hrange 1 (by decide)).trans rfl,hr,hrefines mem hmem⟩

/-- In every run of the driver loop, what the parallel walk of a step leaves (all messages, the
state of all samplers and all random generators) depends on which messages each thread walks in
which order, and not on how the threads' steps are interleaved. -/
theorem walk_confluent {ρ R : Type} [RandGen ρ] [RandGenFloat ρ R] [Floating R] {env : Setup R}
    (hready : Ready ρ env) (samplers : Nat → Sampler)
    (hserved : ∀ p < env.graph.partitionNum, Served ρ env.graph p (samplers p)) (rands : Nat → ρ)
    (tr : List (Action R)) (s : FMobSolver ρ) (l : Nat)
    (hr : Run (Step env) (prepared env samplers rands) tr ⟨s,.walk l WalkManager.entry⟩)
    (tr₁ tr₂ : List (Action R)) (st₁ st₂ : State ρ)
    (h₁ : Run (WalkStep env l) ⟨s,.walk l WalkManager.entry⟩ tr₁ st₁)
    (h₂ : Run (WalkStep env l) ⟨s,.walk l WalkManager.entry⟩ tr₂ st₂)
    (hsame : ∀ t, ownedBy Prod.fst t (messages tr₁) = ownedBy Prod.fst t (messages tr₂)) :
    st₁.solver = st₂.solver := by
  obtain ⟨ha,hwalking⟩ := run_holds hready (prepared_holds hready rands hserved) hr
  exact Walking.confluent hready ha hwalking h₁ h₂ hsame

theorem walk_confluent_two_threads : ∃ (env : Setup ℚ) (s s₁ : FMobSolver XorRandGen)
    (tr₁ : List (Action ℚ)) (progress : WalkManager.Progress Item), env.cfg.threadNum = 2 ∧
      env.walkerNum = 64 ∧
      Run (WalkStep env 1) ⟨s,.walk 1 WalkManager.entry⟩ tr₁ ⟨s₁,.walk 1 progress⟩ ∧
      WalkManager.AllLeft (walkRegion env.cfg env.graph.partitionNum s₁.tasks) progress ∧
      ∀ tr₂ st₂, Run (WalkStep env 1) ⟨s,.walk 1 WalkManager.entry⟩ tr₂ st₂ →
        (∀ t, ownedBy Prod.fst t (messages tr₁) = ownedBy Prod.fst t (messages tr₂)) →
        s₁ = st₂.solver := by
  obtain ⟨opt,times,made,env,samplers,hf,hmade,henv,hsamplers,hcfg,hwalkers,_,hstatic,hflush,hlen⟩ :=
    exists_two_threads
  obtain ⟨hready,hholds⟩ := hmade.holds (ρ := XorRandGen) hf (fun l => .refl l) henv hsamplers
    (fun _ => ⟨1⟩)
  obtain ⟨tr,s,hr,_⟩ := exists_walk hready hstatic hflush (by omega) hholds rfl
    (by change env.walkerNum ≠ 0; omega)
  obtain ⟨tr₁,s₁,progress,h₁,hl⟩ := exists_walked hready hstatic hflush
    (run_holds hready hholds hr)
  exact ⟨env,s,s₁,tr₁,progress,by rw [hcfg],hwalkers,h₁,hl,fun tr₂ st₂ h₂ =>
    walk_confluent hready samplers hholds.always.served _ tr s 1 hr tr₁ tr₂ _ st₂ h₁ h₂⟩

end FlashMob.Program
