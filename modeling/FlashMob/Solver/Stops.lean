import FlashMob.Solver.Rounds

namespace FlashMob.Solver
open FlashMob.Graph FlashMob.Message FlashMob.Sampling FlashMob.WalkManager Lib.Runs

variable {ρ R : Type} [RandGen ρ] [RandGenFloat ρ R] [Floating R] {env : Setup R}
  {tr : List (Action R)} {s : FMobSolver ρ} {st st' : State ρ} {o : Option (Action R)}

omit [RandGenFloat ρ R] [Floating R] in
theorem Holds.silent (h : Holds env tr st) : Holds env (tr ++ (none : Option (Action R)).toList) st := by
  rwa [Option.toList_none,List.append_nil]

theorem step_holds (hready : Ready ρ env) (h : Holds env tr st) (hs : Step env st o st') :
    Holds env (tr ++ o.toList) st' := by
  obtain ⟨ha,hstage⟩ := h
  cases hs with
  | begin hrest _ =>
    exact .silent ⟨ha.congr rfl rfl (fun _ => .refl _),begin_starting hready hstage hrest⟩
  | @draw s pool pool' o hs =>
    refine .silent ⟨?_,Starting.draw hready hstage hs⟩
    cases o with
    | none => exact ha
    | some call => exact ha.congr rfl rfl (fun _ => .refl _)
  | drawn hl =>
    exact .silent ⟨ha.congr rfl rfl (fun _ => .refl _),Starting.drawn_all hready hstage hl⟩
  | copy hw => exact .silent ⟨ha.congr rfl rfl (fun _ => .refl _),Copying.copy hstage⟩
  | copied henter =>
    obtain ⟨st,hst,hholds⟩ := (Copying.atStep hready hstage).enter hready hstage.spare ha
    obtain rfl := Option.some.inj (henter.symm.trans hst)
    exact .silent hholds
  | shuffle ht =>
    exact .silent ⟨ha.congr rfl rfl shuffleTask_sameRange,Shuffling.shuffle hready ha hstage⟩
  | shuffled => exact .silent ⟨ha,Shuffling.walking hstage⟩
  | schedule hs ho => exact .silent ⟨ha,Walking.schedule hstage hs ho⟩
  | message hs hm =>
    obtain ⟨ha',hwalking⟩ := Walking.message hready ha hstage hs hm
    exact ⟨ha',hwalking⟩
  | walked hl => exact .silent ⟨ha,Walking.updating hready hstage hl ha⟩
  | update ht => exact .silent ⟨ha.congr rfl rfl updateTask_sameRange,Updating.update hstage ht⟩
  | updated henter =>
    have hspare : Spare env _ := hstage.step.epoch.spare hstage.ranged
    obtain ⟨st,hst,hholds⟩ := (Updating.atStep hstage).enter hready (hspare.congr rfl (fun _ => .refl _))
      (ha.congr rfl rfl (fun _ => .refl _))
    obtain rfl := Option.some.inj (henter.symm.trans hst)
    exact .silent hholds
  | @write s pool pool' o hs =>
    refine .silent ⟨?_,Writing.write hstage hs⟩
    cases o with
    | none => exact ha
    | some call => exact ha.congr rfl rfl (fun _ => .refl _)
  | finish hl hc => exact Writing.finish hready ha hstage hl hc
  | stop hrest _ => exact .silent ⟨ha,hrest⟩

omit [RandGenFloat ρ R] [Floating R] in
theorem prepared_holds (hready : Ready ρ env) {samplers : Nat → Sampler} (rands : Nat → ρ)
    (hserved : ∀ p < env.graph.partitionNum, Served ρ env.graph p (samplers p)) :
    Holds env [] (prepared env samplers rands) := by
  refine ⟨⟨hserved,fun _ _ => rfl,Nat.add_zero _,rfl,rfl,fun n start output hm => by cases hm⟩,?_⟩
  exact ⟨_,MessageManager.init_ranged hready.valid _ _,Nat.min_le_left _ _⟩

theorem run_holds (hready : Ready ρ env) {st₀ : State ρ} (h₀ : Holds env [] st₀)
    (hr : Run (Step env) st₀ tr st) : Holds env tr st :=
  hr.invariant (Holds env) h₀ (fun _ _ _ _ h hs => step_holds hready h hs)

def Phase.loops (walkLen : Nat) : Phase → Nat
  | .driver => 3 * walkLen + 4
  | .start _ => 3 * walkLen + 3
  | .copy _ => 3 * walkLen + 2
  | .shuffle l _ => 3 * (walkLen - l) + 2
  | .walk l _ => 3 * (walkLen - l) + 1
  | .update l _ => 3 * (walkLen - l)
  | .paths _ | .done => 0

/-- What the threads have left to do in the present loop. -/
def Phase.work (env : Setup R) (s : FMobSolver ρ) : Phase → Nat
  | .start pool | .paths pool =>
    WalkerManager.poolMeasure env.cfg env.maxEpochWalkerNum s.epochWalkerNum pool
  | .copy todo | .shuffle _ todo | .update _ todo => todo.length
  | .walk _ progress =>
    regionMeasure (walkRegion env.cfg env.graph.partitionNum s.tasks) progress
  | .driver | .done => 0

/-- Walkers, loops and work, the most important first. -/
def measure (env : Setup R) (st : State ρ) : Nat ×ₗ Nat ×ₗ Nat :=
  toLex (st.solver.counters.restWalkerNum,
    toLex (st.phase.loops env.walkLen,st.phase.work env st.solver))

omit [RandGen ρ] [RandGenFloat ρ R] [Floating R] in
theorem measure_loops (hrest : st'.solver.counters = st.solver.counters)
    (hlt : st'.phase.loops env.walkLen < st.phase.loops env.walkLen) :
    measure env st' < measure env st := by
  rw [measure,measure,hrest]
  exact Prod.Lex.toLex_lt_toLex.mpr (.inr ⟨rfl,Prod.Lex.toLex_lt_toLex.mpr (.inl hlt)⟩)

omit [RandGen ρ] [RandGenFloat ρ R] [Floating R] in
theorem measure_work (hrest : st'.solver.counters = st.solver.counters)
    (heq : st'.phase.loops env.walkLen = st.phase.loops env.walkLen)
    (hlt : st'.phase.work env st'.solver < st.phase.work env st.solver) :
    measure env st' < measure env st := by
  rw [measure,measure,hrest,heq]
  exact Prod.Lex.toLex_lt_toLex.mpr (.inr ⟨rfl,Prod.Lex.toLex_lt_toLex.mpr (.inr ⟨rfl,hlt⟩)⟩)

omit [RandGen ρ] [RandGenFloat ρ R] [Floating R] in
/-- Entering step `l` leaves fewer loops than the step before had. -/
theorem enterStep_loops {l : Nat} (h : enterStep env l s = some st) :
    st.solver.counters = s.counters ∧ st.phase.loops env.walkLen ≤ 3 * (env.walkLen - l) + 2 := by
  rw [enterStep] at h
  split at h
  · obtain ⟨tasks,_,rfl⟩ := Option.map_eq_some_iff.mp h
    exact ⟨rfl,Nat.le_refl _⟩
  · cases h
    exact ⟨rfl,Nat.zero_le _⟩

theorem step_measure (hready : Ready ρ env) (h : Holds env tr st) (hs : Step env st o st') :
    measure env st' < measure env st := by
  obtain ⟨ha,hstage⟩ := h
  have hpool : ∀ {n : Nat} {pool pool' : WalkerManager.Pool} {call : Option (Nat × Nat)}
      {stale : Nat × Nat → WalkerManager.ThreadState}, n ≤ env.maxEpochWalkerNum →
      (∃ etr, Run (WalkerManager.WrapStep env.cfg env.maxEpochWalkerNum n)
        (WalkerManager.entry stale) etr pool) →
      WalkerManager.WrapStep env.cfg env.maxEpochWalkerNum n pool call pool' →
      WalkerManager.poolMeasure env.cfg env.maxEpochWalkerNum n pool' <
        WalkerManager.poolMeasure env.cfg env.maxEpochWalkerNum n pool :=
    fun hn ⟨_,hrun⟩ hs => WalkerManager.wrap_measure hready.valid hn (hready.room.mono hn) hrun hs
  have hregion : ∀ {tasks : Tasks} {progress progress' : WalkManager.Progress Item}
      {e : Option (Event Item)}, (∃ etr, Run (RegionStep (walkRegion env.cfg
        env.graph.partitionNum tasks)) WalkManager.entry etr progress) →
      RegionStep (walkRegion env.cfg env.graph.partitionNum tasks) progress e progress' →
      regionMeasure (walkRegion env.cfg env.graph.partitionNum tasks) progress' <
        regionMeasure (walkRegion env.cfg env.graph.partitionNum tasks) progress :=
    fun ⟨_,hrun⟩ ⟨_,ht,hs⟩ => action_measure hrun (fun _ ht => hready.valid.socketId_lt ht) ht hs
  cases hs with
  | begin hrest _ => exact measure_loops rfl (Nat.lt_succ_self _)
  | @draw s pool pool' call hs =>
    obtain ⟨etr,hrun,_⟩ := hstage.drawn
    have hlt := hpool hstage.epoch.size_le ⟨etr,hrun⟩ hs
    cases call with
    | none => exact measure_work rfl rfl hlt
    | some call => exact measure_work rfl rfl hlt
  | drawn hl => exact measure_loops rfl (Nat.lt_succ_self _)
  | copy hw =>
    refine measure_work rfl rfl ?_
    simp only [Phase.work,List.length_erase_of_mem hw]
    exact Nat.sub_lt (List.length_pos_of_mem hw) Nat.one_pos
  | copied henter =>
    obtain ⟨hcounters,hle⟩ := enterStep_loops henter
    have hlen := hready.len
    refine measure_loops hcounters (Nat.lt_of_le_of_lt hle ?_)
    simp only [Phase.loops]
    omega
  | shuffle ht =>
    refine measure_work rfl rfl ?_
    simp only [Phase.work,List.length_erase_of_mem ht]
    exact Nat.sub_lt (List.length_pos_of_mem ht) Nat.one_pos
  | shuffled => exact measure_loops rfl (Nat.lt_succ_self _)
  | schedule hs ho =>
    obtain ⟨etr,hrun,_⟩ := hstage.walked
    exact measure_work rfl rfl (hregion ⟨etr,hrun⟩ hs)
  | @message s l t fuel x m progress progress' hs hm =>
    obtain ⟨etr,hrun,_⟩ := hstage.walked
    have hsame : walkRegion env.cfg env.graph.partitionNum (s.put t x m).tasks =
        walkRegion env.cfg env.graph.partitionNum s.tasks := walkRegion_setMessages _ _ _ _ _
    refine measure_work rfl rfl ?_
    simp only [Phase.work]
    rw [hsame]
    exact hregion ⟨etr,hrun⟩ hs
  | walked hl => exact measure_loops rfl (Nat.lt_succ_self _)
  | update ht =>
    refine measure_work rfl rfl ?_
    simp only [Phase.work,List.length_erase_of_mem ht]
    exact Nat.sub_lt (List.length_pos_of_mem ht) Nat.one_pos
  | updated henter =>
    obtain ⟨hcounters,hle⟩ := enterStep_loops henter
    have hlen := hstage.inside
    refine measure_loops hcounters (Nat.lt_of_le_of_lt hle ?_)
    simp only [Phase.loops]
    omega
  | @write s pool pool' call hs =>
    obtain ⟨etr,hrun,_⟩ := hstage.written
    have hlt := hpool hstage.step.epoch.size_le ⟨etr,hrun⟩ hs
    cases call with
    | none => exact measure_work rfl rfl hlt
    | some call => exact measure_work rfl rfl hlt
  | @finish s pool counters hl hc =>
    have hsome : 0 < s.counters.restWalkerNum := hstage.step.epoch.some
    have hpos := hready.epoch
    obtain rfl := Option.some.inj (hc.symm.trans (ha.walkEpoch_eq hready))
    refine Prod.Lex.toLex_lt_toLex.mpr (.inl ?_)
    simp only
    omega
  | stop hrest _ => exact measure_loops rfl (Nat.succ_pos _)

/-- The walk of every message that a thread is about to walk returns. -/
def Returns (env : Setup R) (st : State ρ) : Prop :=
  ∀ l progress t x progress', st.phase = .walk l progress →
    RegionStep (walkRegion env.cfg env.graph.partitionNum st.solver.tasks) progress
      (some (.message t x)) progress' → ∃ fuel m, st.solver.walkItem env l t x fuel = some m

/-- The static walk has no rejection loop, but it may have edges to flush. -/
theorem Holds.returns_of_static (hready : Ready ρ env) (hstatic : env.node2vec = none)
    (hflush : Flushes env.graph) (h : Holds env tr st) : Returns env st := by
  obtain ⟨ha,hstage⟩ := h
  obtain ⟨s,phase⟩ := st
  intro l progress t x progress' hphase hs
  obtain rfl : phase = .walk l progress := hphase
  have hnone : env.node2vecWalk l = none := by
    rw [Setup.node2vecWalk,hstatic,ite_self]
  have hreturns := Walking.sampler_returns hready ha hstage hflush hs
  exact ⟨0,_,by rw [FMobSolver.walkItem,hnone]; exact if_pos hreturns⟩

/-- The driver loop is stuck at its end only, or in the walk of a message that does not return. -/
theorem exists_step (hready : Ready ρ env) (h : Holds env tr st) (hreturns : Returns env st)
    (hne : st.phase ≠ .done) : ∃ o st', Step env st o st' := by
  obtain ⟨ha,hstage⟩ := h
  obtain ⟨s,phase⟩ := st
  cases phase with
  | driver =>
    by_cases hrest : s.counters.restWalkerNum = 0
    · have := ha.rest
      exact ⟨_,_,.stop hrest (by simp only at this; omega)⟩
    · have hcap32 : EstimateArgs.walkerCap = 2 ^ 32 - 2 := rfl
      have := hready.cap
      exact ⟨_,_,.begin hrest (by rw [u32_of_lt (by omega)]; omega)⟩
  | start pool =>
    by_cases hl : WalkerManager.AllLeft env.cfg pool
    · exact ⟨_,_,.drawn hl⟩
    · obtain ⟨t,ht,⟨pool',call⟩,hs⟩ := WalkerManager.exists_threadStep env.maxEpochWalkerNum
        s.epochWalkerNum hl
      exact ⟨_,_,.draw ⟨t,ht,hs⟩⟩
  | copy todo =>
    cases todo with
    | nil =>
      obtain ⟨st,hst,_⟩ := (Copying.atStep hready hstage).enter hready hstage.spare ha
      exact ⟨_,_,.copied hst⟩
    | cons w todo => exact ⟨_,_,.copy List.mem_cons_self⟩
  | shuffle l todo =>
    cases todo with
    | nil => exact ⟨_,_,.shuffled⟩
    | cons t todo => exact ⟨_,_,.shuffle List.mem_cons_self⟩
  | walk l progress =>
    by_cases hl : WalkManager.AllLeft (walkRegion env.cfg env.graph.partitionNum s.tasks) progress
    · exact ⟨_,_,.walked hl⟩
    · simp only [WalkManager.AllLeft,not_forall] at hl
      obtain ⟨t,ht,hpc⟩ := hl
      obtain ⟨⟨progress',e⟩,hs⟩ := exists_threadStep hpc
      by_cases he : ∃ t x, e = some (.message t x)
      · obtain ⟨t',x,rfl⟩ := he
        obtain ⟨fuel,m,hm⟩ := hreturns l progress t' x progress' rfl ⟨t,ht,hs⟩
        exact ⟨_,_,.message ⟨t,ht,hs⟩ hm⟩
      · exact ⟨_,_,.schedule ⟨t,ht,hs⟩ (fun t x h => he ⟨t,x,h⟩)⟩
  | update l todo =>
    cases todo with
    | nil =>
      have hspare : Spare env s := hstage.step.epoch.spare hstage.ranged
      obtain ⟨st,hst,_⟩ := (Updating.atStep hstage).enter hready
        (hspare.congr rfl (fun _ => .refl _)) (ha.congr rfl rfl (fun _ => .refl _))
      exact ⟨_,_,.updated hst⟩
    | cons t todo => exact ⟨_,_,.update List.mem_cons_self⟩
  | paths pool =>
    by_cases hl : WalkerManager.AllLeft env.cfg pool
    · exact ⟨_,_,.finish hl (ha.walkEpoch_eq hready)⟩
    · obtain ⟨t,ht,⟨pool',call⟩,hs⟩ := WalkerManager.exists_threadStep env.maxEpochWalkerNum
        s.epochWalkerNum hl
      exact ⟨_,_,.write ⟨t,ht,hs⟩⟩
  | done => exact absurd rfl hne

end FlashMob.Solver
