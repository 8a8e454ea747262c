import FlashMob.Solver.Paths

namespace FlashMob.Solver
open FlashMob.Graph FlashMob.Message FlashMob.Partition FlashMob.Sampling FlashMob.WalkManager Lib.Runs

section
variable {ρ R : Type} (env : Setup R) (s : FMobSolver ρ) (l : Nat) (x : Item)

/-- The message `x` of step `l` is that of walker `w`. -/
structure MessageOf (w : Nat) : Prop where
  walker : w < s.epochWalkerNum
  member : w ∈ (s.tasks x.task).range
  item : x = itemOf env.graph.toGroups s.tasks (s.walks (l - 1)) x.task w

/-- What node2vec asks of the acceptance tests that are made for message `x` of step `l`. -/
structure TruePrevious (tests : List (Test R)) : Prop where
  /-- The first step is static. -/
  first : l = 1 → tests = []
  /-- Later the tests are made for the last two vertices of the walker, -/
  later : 2 ≤ l → ∃ w, MessageOf env s l x w ∧ ∀ test ∈ tests,
    test.previousVertex = s.walks (l - 2) w ∧ test.currentVertex = s.walks (l - 1) w
  /-- and read a state that was shuffled in the same step. -/
  shuffled : tests ≠ [] → ∃ w states, MessageOf env s l x w ∧ s.states env l = some states ∧
    (s.tasks x.task).shuffledStates x.slot = states w

end

section
variable {ρ R : Type} {env : Setup R} {s : FMobSolver ρ} {l : Nat}

theorem node2vecWalk_eq (hl : 1 ≤ l) : env.node2vecWalk l = env.node2vec := by
  rw [Setup.node2vecWalk,if_pos (Nat.ne_of_gt hl)]

theorem AtStep.states_eq (h : AtStep env s l) {wm : Node2vec R} (hn : env.node2vec = some wm) :
    s.states env l = if l = 1 then none else some (s.walks (l - 2)) := by
  rw [FMobSolver.states,node2vecWalk_eq h.first,hn,h.previous]
  split_ifs <;> rfl

end

section
variable {ρ R : Type} [RandGen ρ] [RandGenFloat ρ R] [Floating R] {env : Setup R}
  {tr : List (Action R)} {s : FMobSolver ρ} {l t fuel : Nat} {x : Item} {m : Moved ρ R}
  {progress progress' : WalkManager.Progress Item}

/-- The message of a walker is tested with its previous vertex, but in the first step there is none
and it is tested nevertheless. -/
theorem Walking.truePrevious_iff (hready : Ready ρ env) (ha : Always env tr s)
    (h : Walking env s l progress)
    (hs : RegionStep (walkRegion env.cfg env.graph.partitionNum s.tasks) progress
      (some (.message t x)) progress') (hm : s.walkItem env l t x fuel = some m) :
    TruePrevious env s l x m.tests ↔ (l = 1 → env.node2vec = none) := by
  obtain ⟨htask,w,hw,hlt,hitem,hcontent⟩ := h.exists_walker hready ha hs
  have hof : MessageOf env s l x w := ⟨hlt,hw,hitem⟩
  rw [FMobSolver.walkItem,node2vecWalk_eq h.step.first] at hm
  cases hn : env.node2vec with
  | none =>
    rw [hn,walkMessage] at hm
    dsimp only at hm
    split_ifs at hm
    cases hm
    refine ⟨fun _ _ => rfl,fun _ => ⟨fun _ => rfl,fun _ => ⟨w,hof,fun test ht => ?_⟩,?_⟩⟩
    · cases ht
    · exact fun hne => absurd rfl hne
  | some wm =>
    rw [hn] at hm
    obtain ⟨hne,htests⟩ := node2vecWalkMessage_tests hm
    constructor
    · intro htrue hl
      exact absurd (htrue.first hl) hne
    · intro hnone
      have hl : l ≠ 1 := fun hl => Option.some_ne_none wm (hnone hl)
      have hstates := h.step.states_eq hn
      rw [if_neg hl] at hstates
      have hstate := (h.sent _ htask).state hstates hw
      have hslot : x.slot = (s.tasks x.task).slot env.graph.toGroups (s.walks (l - 1)) w :=
        congrArg Item.slot hitem
      rw [← hslot] at hstate
      refine ⟨fun he => absurd he hl,fun _ => ⟨w,hof,fun test ht => ?_⟩,
        fun _ => ⟨w,_,hof,hstates,hstate⟩⟩
      obtain ⟨hprevious,hcurrent⟩ := htests test ht
      exact ⟨hprevious.trans hstate,hcurrent.trans hcontent⟩

/-- No message of the first step of an epoch has been walked yet. -/
def Unwalked (env : Setup R) (st : State ρ) : Prop :=
  match st.phase with
  | .driver => st.solver.counters.restWalkerNum ≠ 0
  | .start _ | .copy _ => True
  | .shuffle l _ => l = 1
  | .walk l progress => l = 1 ∧ ∃ etr, Run (RegionStep (walkRegion env.cfg
      env.graph.partitionNum st.solver.tasks)) WalkManager.entry etr progress ∧
        WalkManager.walked etr = []
  | .update _ _ | .paths _ | .done => False

theorem Unwalked.step (hready : Ready ρ env) (hlen : 1 < env.walkLen) {st st' : State ρ}
    {o : Option (Action R)} (hholds : Holds env tr st) (h : Unwalked env st)
    (hs : Step env st o st') :
    (∃ a, o = some a ∧ ∃ t x tests, a = .message 1 t x tests) ∨ Unwalked env st' := by
  obtain ⟨ha,hstage⟩ := hholds
  cases hs with
  | begin _ _ => exact .inr trivial
  | draw _ => exact .inr trivial
  | drawn _ => exact .inr trivial
  | copy _ => exact .inr trivial
  | copied henter =>
    rw [enterStep,if_pos hlen] at henter
    obtain ⟨tasks,_,rfl⟩ := Option.map_eq_some_iff.mp henter
    exact .inr rfl
  | shuffle _ => exact .inr h
  | shuffled => exact .inr ⟨h,[],.start,rfl⟩
  | @schedule s l progress progress' o hs ho =>
    obtain ⟨hl,etr,hrun,hnone⟩ := h
    refine .inr ⟨hl,_,hrun.next hs,?_⟩
    rw [walked_append,hnone]
    cases o with
    | none => rfl
    | some e =>
      cases e with
      | take t s index p => rfl
      | message t x => exact absurd rfl (ho t x)
  | message hs hm =>
    obtain ⟨rfl,_⟩ := h
    exact .inl ⟨_,rfl,_,_,_,rfl⟩
  | @walked s l progress hl =>
    obtain ⟨_,etr,hrun,hnone⟩ := h
    have hwalking : Walking env s l progress := hstage
    have hpos : 0 < s.epochWalkerNum := by
      have := hwalking.step.epoch.some
      have := hwalking.step.epoch.size
      have := hready.epoch
      omega
    obtain ⟨k,hk,hm⟩ := hwalking.ranged.exists_task hpos
    have hitem := hwalking.itemOf_mem hready ha hk hm
    have hperm := walked_perm hrun hl hready.valid.sockets
      (fun p hp => exists_thread hready.valid hp)
    rw [hnone] at hperm
    exact absurd (hperm.mem_iff.mpr hitem) List.not_mem_nil
  | update _ => exact h.elim
  | updated _ => exact h.elim
  | write _ => exact h.elim
  | finish _ _ => exact h.elim
  | stop hrest _ => exact absurd hrest h

theorem exists_first_message (hready : Ready ρ env) (hlen : 1 < env.walkLen)
    (hreturns : ∀ tr (st : State ρ), Holds env tr st → Returns env st) {st : State ρ}
    (hholds : Holds env tr st) (h : Unwalked env st) : ∃ tr st' t x tests st'', Run (Step env) st tr st' ∧
      Step env st' (some (.message 1 t x tests)) st'' := by
  have hkeep : ∀ (st : State ρ) (o : Option (Action R)) (st' : State ρ),
      (∃ tr, Holds env tr st) ∧ Unwalked env st → Step env st o st' →
      (∃ a, o = some a ∧ ∃ t x tests, a = .message 1 t x tests) ∨
        (((∃ tr, Holds env tr st') ∧ Unwalked env st') ∧ measure env st' < measure env st) := by
    rintro st o st' ⟨⟨tr,hholds⟩,h⟩ hs
    refine (h.step hready hlen hholds hs).imp_right (fun h' => ?_)
    exact ⟨⟨⟨_,step_holds hready hholds hs⟩,h'⟩,step_measure hready hholds hs⟩
  have hprogress : ∀ st : State ρ, (∃ tr, Holds env tr st) ∧ Unwalked env st →
      ∃ o st', Step env st o st' := by
    rintro st ⟨⟨tr,hholds⟩,h⟩
    refine exists_step hready hholds (hreturns tr st hholds) (fun hdone => ?_)
    rw [Unwalked,hdone] at h
    exact h
  obtain ⟨tr,st',_,st'',hrun,hs,t,x,tests,rfl⟩ :=
    exists_action _ _ (measure env) hkeep hprogress ⟨⟨tr,hholds⟩,h⟩
  exact ⟨tr,st',t,x,tests,st'',hrun,hs⟩

theorem first_message_tested {st st' : State ρ} (hholds : Holds env tr st) {wm : Node2vec R}
    (hn : env.node2vec = some wm) {tests : List (Test R)}
    (hs : Step env st (some (.message 1 t x tests)) st') :
    tests ≠ [] ∧ st.solver.states env 1 = none := by
  obtain ⟨_,hstage⟩ := hholds
  cases hs with
  | @message s _ _ fuel _ m progress _ hs hm =>
    have hwalking : Walking env s 1 progress := hstage
    rw [FMobSolver.walkItem,node2vecWalk_eq (Nat.le_refl 1),hn] at hm
    refine ⟨(node2vecWalkMessage_tests hm).1,?_⟩
    have hstates := hwalking.step.states_eq hn
    rwa [if_pos rfl] at hstates

end

section
variable {env : Setup ℚ} (hn : env.node2vec = some (setNode2vec 1 1))
include hn

theorem Holds.returns_of_ones (hready : Ready XorRandGen env) (hflush : Flushes env.graph)
    {tr : List (Action ℚ)} {st : State XorRandGen} (h : Holds env tr st) : Returns env st := by
  obtain ⟨ha,hstage⟩ := h
  obtain ⟨s,phase⟩ := st
  intro l progress t x progress' hphase hs
  obtain rfl : phase = .walk l progress := hphase
  have hreturns := Walking.sampler_returns hready ha hstage hflush hs
  have hflag : env.node2vecWalk l = some (setNode2vec 1 1) :=
    (node2vecWalk_eq (Walking.step hstage).first).trans hn
  have hprob : ∀ rd : XorRandGen,
      (RandGenFloat.genFloat (setNode2vec 1 1 : Node2vec ℚ).n2vUpperbound rd).1 ≤ (1 : ℚ) := by
    intro rd
    rw [n2vUpperbound_ones]
    exact XorRandGen.genFloat_le zero_le_one rd
  refine ⟨1,Option.isSome_iff_exists.mp ?_⟩
  rw [FMobSolver.walkItem,hflag]
  simp only [node2vecWalkMessage,if_pos hreturns,node2vecAccept_ones _ _ _ _ _ (hprob _),
    Option.isSome_some]

theorem exists_first_message_prepared (hready : Ready XorRandGen env)
    (hflush : Flushes env.graph) (hlen : 1 < env.walkLen) (hsome : env.walkerNum ≠ 0) {samplers : Nat → Sampler}
    (hserved : ∀ p < env.graph.partitionNum, Served XorRandGen env.graph p (samplers p))
    (rands : Nat → XorRandGen) : ∃ tr st t x tests st',
      Run (Step env) (prepared env samplers rands) tr st ∧
        Step env st (some (.message 1 t x tests)) st' := by
  have hunwalked : Unwalked env (prepared env samplers rands) := hsome
  exact exists_first_message hready hlen (fun _ _ h => h.returns_of_ones hn hready hflush)
    (prepared_holds hready rands hserved) hunwalked

end

/-- In every run, and for every order of the threads' steps, the tests of a message are those of
node2vec if and only if it is not of the first step of a node2vec walk. -/
theorem previous_vertex_true_iff {ρ R D : Type} [RandGen ρ] [RandGenFloat ρ R] [Floating R]
    [Floating D] {edges : List (Nat × Nat)} {g : Loaded} {cfg : MultiThreadConfig}
    {hint : GraphHint D} {schedule : List (Nat × Nat) → List (Nat × Nat)} {made : Made}
    {env : Setup R} (walkerPerEdge : D) (costs : Nat → List (Nat × List (SampleEstimation D)))
    (node2vec : Option (Node2vec R)) (o : QueryOrder) (walkerNum walkLen memQuota : Nat)
    (hne : edges ≠ []) (hload : Loadable true edges) (hg : load edges true = some g)
    (hc : cfg.Valid) (hhint : getPartitionHint walkerPerEdge g cfg costs = some hint)
    (hindices : g.vNum + 2 ^ chooseGroupBits g.vNum ≤ 2 ^ 32)
    (hsched : ∀ l, (schedule l).Perm l) (hmake : make cfg hint schedule g = some made)
    (hfits : ∀ p < made.partitionNum, Sampler.Fits made p)
    (hwalkers : walkerNum < 2 ^ 64) (hlen : 1 ≤ walkLen)
    (henv : Setup.prepare cfg made node2vec o walkerNum walkLen memQuota = .ok env)
    (hepoch : 1 ≤ env.maxEpochWalkerNum)
    (hroom : WalkerManager.Roomy cfg env.maxEpochWalkerNum env.maxEpochWalkerNum)
    (samplers : Nat → Sampler) (hsamplers : ∀ p < made.partitionNum,
      Sampler.install env.graph.toMade cfg.l2CacheSize p = some (samplers p))
    (rands : Nat → ρ) (tr : List (Action R)) (st st' : State ρ) (l t : Nat) (x : Item)
    (tests : List (Test R)) (hr : Run (Step env) (prepared env samplers rands) tr st)
    (hs : Step env st (some (.message l t x tests)) st') :
    TruePrevious env st.solver l x tests ↔ (l = 1 → env.node2vec = none) := by
  obtain ⟨hready,_,hnum,hinstall⟩ := prepare_ready hne hload hg hc hsched hmake hfits hwalkers hlen
    henv hepoch hroom hhint hindices ρ
  have hserved := served_of_installed hnum hinstall hsamplers
  obtain ⟨ha,hstage⟩ := run_holds hready (prepared_holds hready rands hserved) hr
  cases hs with
  | message hs hm => exact Walking.truePrevious_iff hready ha hstage hs hm

theorem previous_vertex_true_iff_one_edge : ∃ (env : Setup ℚ) (samplers : Nat → Sampler)
    (rands : Nat → XorRandGen) (tr : List (Action ℚ)) (st st' : State XorRandGen) (t : Nat)
    (x : Item) (tests : List (Test ℚ)), env.node2vec = some (setNode2vec 1 1) ∧
      Run (Step env) (prepared env samplers rands) tr st ∧
      Step env st (some (.message 1 t x tests)) st' ∧
      (TruePrevious env st.solver 1 x tests ↔ (1 = 1 → env.node2vec = none)) := by
  let o : QueryOrder := ⟨id,id,fun _ => .refl _,fun _ => .refl _⟩
  let rands : Nat → XorRandGen := fun t => ⟨t + 1⟩
  obtain ⟨cfg,costs,g,hint,made,env,samplers,hc,hload,hg,hhint,hindices,hmake,hfits,henv,hn,hnum,
    hlen,hmax,hroom,hsamplers,hready,_,hflush,hserved⟩ := exists_one_edge (some (setNode2vec 1 1)) o
  obtain ⟨tr,st,t,x,tests,st',hr,hs⟩ :=
    exists_first_message_prepared hn hready hflush (by omega) (by omega) hserved rands
  exact ⟨env,samplers,rands,tr,st,st',t,x,tests,hn,hr,hs,
    previous_vertex_true_iff (1 : ℚ) costs (some (setNode2vec 1 1)) o 3 2 4096 (List.cons_ne_nil _ _)
      hload hg hc hhint hindices (fun l => .refl l) hmake hfits (by decide) (by decide) henv (by omega)
      hroom samplers hsamplers rands tr st st' 1 t x tests hr hs⟩

/-- The first step of a node2vec walk makes acceptance tests, and no states were shuffled for
them. -/
theorem previous_vertex_not_true : ∃ (cfg : MultiThreadConfig) (g : Loaded) (hint : GraphHint ℚ)
    (made : Made) (env : Setup ℚ) (samplers : Nat → Sampler) (rands : Nat → XorRandGen)
    (tr : List (Action ℚ)) (st st' : State XorRandGen) (t : Nat) (x : Item) (tests : List (Test ℚ)),
      load [(0,1)] true = some g ∧ make cfg hint id g = some made ∧
      Setup.prepare cfg made (some (setNode2vec 1 1)) ⟨id,id,fun _ => .refl _,fun _ => .refl _⟩ 3 2
        4096 = .ok env ∧
      (∀ p < made.partitionNum,
        Sampler.install env.graph.toMade cfg.l2CacheSize p = some (samplers p)) ∧
      Run (Step env) (prepared env samplers rands) tr st ∧
      Step env st (some (.message 1 t x tests)) st' ∧ tests ≠ [] ∧
      st.solver.states env 1 = none := by
  let o : QueryOrder := ⟨id,id,fun _ => .refl _,fun _ => .refl _⟩
  let rands : Nat → XorRandGen := fun t => ⟨t + 1⟩
  obtain ⟨cfg,costs,g,hint,made,env,samplers,hc,hload,hg,hhint,hindices,hmake,hfits,henv,hn,hnum,
    hlen,hmax,hroom,hsamplers,hready,_,hflush,hserved⟩ := exists_one_edge (some (setNode2vec 1 1)) o
  obtain ⟨tr,st,t,x,tests,st',hr,hs⟩ :=
    exists_first_message_prepared hn hready hflush (by omega) (by omega) hserved rands
  obtain ⟨hne,hstates⟩ := first_message_tested
    (run_holds hready (prepared_holds hready rands hserved) hr) hn hs
  exact ⟨cfg,g,hint,made,env,samplers,rands,tr,st,st',t,x,tests,hg,hmake,henv,hsamplers,hr,hs,hne,
    hstates⟩

end FlashMob.Solver
