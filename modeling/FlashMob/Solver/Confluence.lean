import FlashMob.Lib.Traces
import FlashMob.Solver.Stops
import FlashMob.Walk.Holders

namespace FlashMob.Solver
open FlashMob.Graph FlashMob.Message FlashMob.Sampling FlashMob.WalkManager Lib.Runs Lib.Traces

section
variable {ρ R : Type} [RandGen ρ] [RandGenFloat ρ R] [Floating R]

def Walks (env : Setup R) (l : Nat) (s : FMobSolver ρ) (e : Nat × Item) (s' : FMobSolver ρ) : Prop :=
  ∃ fuel m, s.walkItem env l e.1 e.2 fuel = some m ∧ s' = s.put e.1 e.2 m

/-- A step of a thread in the parallel region of `WalkManager::walk`. -/
def WalkStep (env : Setup R) (l : Nat) (st : State ρ) (o : Option (Action R)) (st' : State ρ) : Prop :=
  Step env st o st' ∧ ∃ progress progress', st.phase = .walk l progress ∧ st'.phase = .walk l progress'

def messages (tr : List (Action R)) : List (Nat × Item) :=
  tr.filterMap (fun
    | .message _ t x _ => some (t,x)
    | .epoch _ _ _ => none)

omit [RandGen ρ] [RandGenFloat ρ R] [Floating R] in
@[simp] theorem messages_append (tr tr' : List (Action R)) :
    messages (tr ++ tr') = messages tr ++ messages tr' := List.filterMap_append

omit [RandGen ρ] [RandGenFloat ρ R] [Floating R] in
@[simp] theorem messages_singleton (l t : Nat) (x : Item) (tests : List (Test R)) :
    messages [.message l t x tests] = [(t,x)] := rfl

/-- Two messages that have nothing in common: other threads, partitions and slots. -/
structure Apart (e e' : Nat × Item) : Prop where
  thread : e.1 ≠ e'.1
  partition : e.2.partition ≠ e'.2.partition
  slot : e.2.task = e'.2.task → e.2.slot ≠ e'.2.slot

variable {env : Setup R} {l t u : Nat} {s s' s₁ s₂ : FMobSolver ρ} {x y : Item} {m m' : Moved ρ R}

theorem walkItem_unique {fuel fuel' : Nat} (hm : s.walkItem env l t x fuel = some m)
    (hm' : s.walkItem env l t x fuel' = some m') : m = m' := by
  rw [FMobSolver.walkItem] at hm hm'
  split at hm
  · next hn =>
    simp only [hn] at hm'
    exact Option.some.inj (hm.symm.trans hm')
  · next hn =>
    simp only [hn] at hm'
    exact node2vecWalkMessage_unique hm hm'

theorem walks_unique {e : Nat × Item} (h : Walks env l s e s₁) (h' : Walks env l s e s₂) :
    s₁ = s₂ := by
  obtain ⟨fuel,m,hm,rfl⟩ := h
  obtain ⟨fuel',m',hm',rfl⟩ := h'
  rw [walkItem_unique hm hm']

/-- The walk of a message does not see that of one apart from it. -/
theorem walkItem_put (h : Apart (t,x) (u,y)) (m : Moved ρ R) (fuel : Nat) :
    (s.put t x m).walkItem env l u y fuel = s.walkItem env l u y fuel := by
  have hsampler : (s.put t x m).samplers y.partition = s.samplers y.partition :=
    Function.update_of_ne (Ne.symm h.partition) _ _
  have hrand : (s.put t x m).rands u = s.rands u := Function.update_of_ne (Ne.symm h.thread) _ _
  have hslot : ((s.put t x m).tasks y.task).shuffledMessages y.slot =
      (s.tasks y.task).shuffledMessages y.slot ∧
      ((s.put t x m).tasks y.task).shuffledStates = (s.tasks y.task).shuffledStates := by
    simp only [FMobSolver.put]
    by_cases htask : y.task = x.task
    · rw [htask,Function.update_self]
      exact ⟨Function.update_of_ne (Ne.symm (h.slot htask.symm)) _ _,rfl⟩
    · rw [Function.update_of_ne htask]
      exact ⟨rfl,rfl⟩
  rw [FMobSolver.walkItem,FMobSolver.walkItem]
  simp only [hsampler,hrand,hslot.1,hslot.2]

omit [RandGen ρ] [RandGenFloat ρ R] [Floating R] in
theorem put_comm (h : Apart (t,x) (u,y)) (s : FMobSolver ρ) (m m' : Moved ρ R) :
    (s.put t x m).put u y m' = (s.put u y m').put t x m := by
  have htasks : ((s.put t x m).put u y m').tasks = ((s.put u y m').put t x m).tasks := by
    simp only [FMobSolver.put]
    by_cases htask : x.task = y.task
    · rw [htask]
      simp only [Function.update_self,Function.update_idem,MessageTask.setMessages]
      rw [Function.update_comm (h.slot htask)]
    · rw [Function.update_of_ne htask,Function.update_of_ne (Ne.symm htask),
        Function.update_comm htask]
  simp only [FMobSolver.put] at htasks ⊢
  rw [htasks,Function.update_comm h.partition,Function.update_comm h.thread]

theorem walks_swap {e e' : Nat × Item} (h : Apart e e') :
    Swaps (Walks (ρ := ρ) env l) e e' := by
  rintro s s₁ s₂ ⟨fuel,m,hm,rfl⟩ ⟨fuel',m',hm',rfl⟩
  rw [walkItem_put h] at hm'
  refine ⟨s.put e'.1 e'.2 m',⟨fuel',m',hm',rfl⟩,fuel,m,?_,put_comm h s m m'⟩
  rwa [walkItem_put ⟨Ne.symm h.thread,Ne.symm h.partition,fun ht => Ne.symm (h.slot ht.symm)⟩]

theorem walk_run {tr : List (Action R)} {st : State ρ}
    (hr : Run (WalkStep env l) ⟨s,.walk l WalkManager.entry⟩ tr st) :
    ∃ etr progress, st.phase = .walk l progress ∧
      walkRegion env.cfg env.graph.partitionNum st.solver.tasks =
        walkRegion env.cfg env.graph.partitionNum s.tasks ∧
      Run (RegionStep (walkRegion env.cfg env.graph.partitionNum s.tasks)) WalkManager.entry etr
        progress ∧
      WalkManager.walked etr = messages tr ∧ Exec (Walks env l) s (messages tr) st.solver := by
  induction hr with
  | start => exact ⟨[],_,rfl,rfl,.start,rfl,.start⟩
  | next _ hs ih =>
    obtain ⟨etr,progress,hphase,hregion,hrun,hwalked,hexec⟩ := ih
    obtain ⟨hs,before,after,hbefore,hafter⟩ := hs
    cases hs with
    | @schedule _ _ _ _ o hs ho =>
      cases hphase
      rw [hregion] at hs
      rw [Option.toList_none,List.append_nil]
      exact ⟨_,_,rfl,hregion,hrun.next hs,(WalkManager.walked_silent ho).trans hwalked,hexec⟩
    | @message _ _ t fuel x m _ _ hs hm =>
      cases hphase
      rw [hregion] at hs
      have hone : WalkManager.walked (etr ++ [Event.message t x]) = WalkManager.walked etr ++ [(t,x)] := by
        simp [WalkManager.walked]
      rw [Option.toList_some,messages_append,messages_singleton]
      refine ⟨_,_,rfl,(walkRegion_setMessages _ _ _ _ _).trans hregion,hrun.next hs,?_,
        hexec.next ⟨fuel,m,hm,rfl⟩⟩
      rw [Option.toList_some,hone,hwalked]
    | walked => cases hafter
    | _ => cases hbefore

omit [RandGenFloat ρ R] [Floating R] in
/-- Messages of different partitions have different slots. -/
theorem Walking.apart {tr : List (Action R)} {progress : WalkManager.Progress Item}
    (hready : Ready ρ env) (ha : Always env tr s) (h : Walking env s l progress) {p q : Nat}
    (htu : t ≠ u) (hpq : p ≠ q) (hp : p < env.graph.partitionNum) (hq : q < env.graph.partitionNum)
    (hx : x ∈ (walkRegion env.cfg env.graph.partitionNum s.tasks).messages p)
    (hy : y ∈ (walkRegion env.cfg env.graph.partitionNum s.tasks).messages q) :
    Apart (t,x) (u,y) := by
  obtain ⟨rfl,htask,hlo,hhi⟩ := (mem_messages hready.valid).mp hx
  obtain ⟨rfl,htask',hlo',hhi'⟩ := (mem_messages hready.valid).mp hy
  refine ⟨htu,hpq,fun hsame hslot => hpq ?_⟩
  change x.task = y.task at hsame
  change x.slot = y.slot at hslot
  rw [← hsame] at hlo' hhi'
  have hnum := ha.parts _ htask
  obtain ⟨w,hw,hwp,hws⟩ := (h.sent _ htask).exists_walker (hnum ▸ hp) hlo hhi
  obtain ⟨w',hw',hwp',hws'⟩ := (h.sent _ htask).exists_walker (hnum ▸ hq) hlo' hhi'
  obtain rfl := MessageTask.slot_injOn hw hw' (by rw [hws,hws',hslot])
  exact hwp.symm.trans hwp'

/-- Two runs of the region in which every thread walks the same messages. -/
theorem Walking.confluent {tr tr₁ tr₂ : List (Action R)} {st₁ st₂ : State ρ} (hready : Ready ρ env)
    (ha : Always env tr s) (h : Walking env s l WalkManager.entry)
    (h₁ : Run (WalkStep env l) ⟨s,.walk l WalkManager.entry⟩ tr₁ st₁)
    (h₂ : Run (WalkStep env l) ⟨s,.walk l WalkManager.entry⟩ tr₂ st₂)
    (hsame : ∀ t, ownedBy Prod.fst t (messages tr₁) = ownedBy Prod.fst t (messages tr₂)) :
    st₁.solver = st₂.solver := by
  obtain ⟨etr,progress,_,_,hrun,hwalked,hexec⟩ := walk_run h₁
  obtain ⟨_,_,_,_,_,_,hexec'⟩ := walk_run h₂
  have hdet : ∀ d a d₁ d₂, Walks (ρ := ρ) env l d a d₁ → Walks env l d a d₂ → d₁ = d₂ :=
    fun _ _ _ _ => walks_unique
  refine exec_unique hdet (fun e he e' he' hne => ?_) hexec hexec' hsame
  rw [← hwalked] at he he'
  obtain ⟨p,q,hpq,hp,hq,hx,hy⟩ := walked_apart hrun hne he he'
  exact walks_swap (h.apart hready ha hne hpq hp hq hx hy)

/-- The phases up to the walk of step 1. -/
def Phase.early : Phase → Prop
  | .driver | .start _ | .copy _ => True
  | .shuffle l _ => l = 1
  | .walk l progress => l = 1 ∧ progress = WalkManager.entry
  | .update _ _ | .paths _ | .done => False

omit [RandGen ρ] [RandGenFloat ρ R] [Floating R] in
theorem enterStep_early (hlen : 1 < env.walkLen) {st : State ρ} (h : enterStep env 1 s = some st) :
    st.solver.counters = s.counters ∧ st.phase.early := by
  rw [enterStep,if_pos hlen] at h
  obtain ⟨tasks,_,rfl⟩ := Option.map_eq_some_iff.mp h
  exact ⟨rfl,rfl⟩

theorem early_step (hlen : 1 < env.walkLen) {st st' : State ρ} {o : Option (Action R)}
    (hrest : st.solver.counters.restWalkerNum ≠ 0) (hearly : st.phase.early)
    (hnot : st.phase ≠ .walk 1 WalkManager.entry) (hs : Step env st o st') :
    st'.solver.counters = st.solver.counters ∧ st'.phase.early := by
  cases hs with
  | draw => exact ⟨by cases ‹Option (Nat × Nat)› <;> rfl,trivial⟩
  | copied henter => exact enterStep_early hlen henter
  | shuffle => exact ⟨rfl,hearly⟩
  | shuffled => exact ⟨rfl,hearly,rfl⟩
  | schedule => exact absurd (by rw [hearly.1,hearly.2]) hnot
  | message => exact absurd (by rw [hearly.1,hearly.2]) hnot
  | walked => exact absurd (by rw [hearly.1,hearly.2]) hnot
  | update => exact hearly.elim
  | updated => exact hearly.elim
  | write => exact hearly.elim
  | finish => exact hearly.elim
  | stop hzero => exact absurd hzero hrest
  | _ => exact ⟨rfl,trivial⟩

theorem exists_walk (hready : Ready ρ env) (hstatic : env.node2vec = none)
    (hflush : Flushes env.graph) (hlen : 1 < env.walkLen) {st₀ : State ρ} (h₀ : Holds env [] st₀)
    (hphase : st₀.phase = .driver) (hrest : st₀.solver.counters.restWalkerNum ≠ 0) :
    ∃ tr s, Run (Step env) st₀ tr ⟨s,.walk 1 WalkManager.entry⟩ ∧
      s.counters = st₀.solver.counters := by
  have hreach : ∃ tr st, Run (Step env) st₀ tr st ∧ st.phase = .walk 1 WalkManager.entry ∧
      st.solver.counters = st₀.solver.counters := by
    refine exists_reached (fun st => (∃ tr, Holds env tr st) ∧
      st.solver.counters = st₀.solver.counters ∧ st.phase.early) _ (measure env)
      (fun st o st' hj hnot hs => ?_) (fun st hj _ => ?_) ⟨⟨[],h₀⟩,rfl,?_⟩
    · obtain ⟨⟨tr,hholds⟩,hcounters,hearly⟩ := hj
      obtain ⟨hsame,hearly'⟩ := early_step hlen (hcounters ▸ hrest) hearly
        (fun hphase => hnot ⟨hphase,hcounters⟩) hs
      exact ⟨⟨⟨_,step_holds hready hholds hs⟩,hsame.trans hcounters,hearly'⟩,
        step_measure hready hholds hs⟩
    · obtain ⟨⟨tr,hholds⟩,_,hearly⟩ := hj
      refine exists_step hready hholds (hholds.returns_of_static hready hstatic hflush) (fun hdone => ?_)
      rw [hdone] at hearly
      exact hearly
    · rw [hphase]
      trivial
  obtain ⟨tr,⟨s,phase⟩,hrun,htodo,hcounters⟩ := hreach
  obtain rfl : phase = _ := htodo
  exact ⟨tr,s,hrun,hcounters⟩

theorem exists_walked (hready : Ready ρ env) (hstatic : env.node2vec = none)
    (hflush : Flushes env.graph) {tr : List (Action R)}
    {progress : WalkManager.Progress Item} (h : Holds env tr ⟨s,.walk l progress⟩) :
    ∃ tr' s' progress', Run (WalkStep env l) ⟨s,.walk l progress⟩ tr' ⟨s',.walk l progress'⟩ ∧
      WalkManager.AllLeft (walkRegion env.cfg env.graph.partitionNum s'.tasks) progress' := by
  have hreach : ∃ tr' st, Run (WalkStep env l) ⟨s,.walk l progress⟩ tr' st ∧
      ∃ progress', st.phase = .walk l progress' ∧
        WalkManager.AllLeft (walkRegion env.cfg env.graph.partitionNum st.solver.tasks) progress' := by
    refine exists_reached (fun st => (∃ tr, Holds env tr st) ∧ ∃ progress, st.phase = .walk l progress)
      _ (measure env) (fun st o st' hj _ hs => ?_) (fun st hj hnot => ?_) ⟨⟨tr,h⟩,progress,rfl⟩
    · obtain ⟨⟨tr,hholds⟩,_⟩ := hj
      obtain ⟨hs,_,after,_,hafter⟩ := hs
      exact ⟨⟨⟨_,step_holds hready hholds hs⟩,after,hafter⟩,step_measure hready hholds hs⟩
    · obtain ⟨⟨tr,hholds⟩,progress,hphase⟩ := hj
      obtain ⟨o,st',hs⟩ := exists_step hready hholds
        (hholds.returns_of_static hready hstatic hflush) (by simp [hphase])
      have hwalk : ∃ after, st'.phase = .walk l after := by
        cases hs with
        | schedule => cases hphase; exact ⟨_,rfl⟩
        | message => cases hphase; exact ⟨_,rfl⟩
        | walked hl => exact absurd ⟨_,hphase,by cases hphase; exact hl⟩ hnot
        | _ => cases hphase
      obtain ⟨after,hafter⟩ := hwalk
      exact ⟨o,st',hs,progress,after,hphase,hafter⟩
  obtain ⟨tr',⟨s',phase⟩,hrun,progress',hphase,hl⟩ := hreach
  obtain rfl : phase = _ := hphase
  exact ⟨tr',s',progress',hrun,hl⟩

/-- The steps in the region are steps of the driver loop, and leave the counters. -/
theorem walk_steps {tr : List (Action R)} {st st' : State ρ} (hr : Run (WalkStep env l) st tr st') :
    Run (Step env) st tr st' ∧ st'.solver.counters = st.solver.counters := by
  induction hr with
  | start => exact ⟨.start,rfl⟩
  | next _ hs ih =>
    obtain ⟨hs,before,after,hbefore,hafter⟩ := hs
    refine ⟨ih.1.next hs,Eq.trans ?_ ih.2⟩
    cases hs with
    | schedule | message => rfl
    | walked => cases hafter
    | _ => cases hbefore

theorem exists_update (hready : Ready ρ env) (hstatic : env.node2vec = none)
    (hflush : Flushes env.graph) (hlen : 1 < env.walkLen) {st₀ : State ρ} (h₀ : Holds env [] st₀)
    (hphase : st₀.phase = .driver) (hrest : st₀.solver.counters.restWalkerNum ≠ 0) :
    ∃ tr s, Run (Step env) st₀ tr ⟨s,.update 1 (List.range env.cfg.threadNum)⟩ ∧
      s.counters = st₀.solver.counters := by
  obtain ⟨tr,s,hr,hcounters⟩ := exists_walk hready hstatic hflush hlen h₀ hphase hrest
  obtain ⟨tr',s',progress',hr',hl⟩ := exists_walked hready hstatic hflush (run_holds hready h₀ hr)
  obtain ⟨hsteps,hsame⟩ := walk_steps hr'
  exact ⟨_,s',(hr.trans hsteps).next (.walked hl),hsame.trans hcounters⟩

end

section
variable {ρ R : Type} {env : Setup R} {s : FMobSolver ρ} {st st' : State ρ} {l : Nat}

/-- Each task still has all walkers that its thread was given. -/
def Dealt (env : Setup R) (s : FMobSolver ρ) : Prop :=
  ∀ t < env.cfg.threadNum, SameRange
    (MessageManager.init env.cfg env.maxEpochWalkerNum env.graph.partitionNum t) (s.tasks t)

theorem Dealt.congr {s' : FMobSolver ρ} (h : Dealt env s)
    (hsame : ∀ t, SameRange (s.tasks t) (s'.tasks t)) : Dealt env s' :=
  fun t ht => (h t ht).trans (hsame t)

/-- The begin of a step cuts nothing off when the epoch is full. -/
theorem Dealt.enter (hvalid : env.cfg.Valid) (hspare : Spare env s) (hepoch : Epoch env s)
    (h : Dealt env s ∨ s.counters.restWalkerNum < env.maxEpochWalkerNum)
    (henter : enterStep env l s = some st) :
    Dealt env st.solver ∨ st.solver.counters.restWalkerNum < env.maxEpochWalkerNum := by
  rw [enterStep] at henter
  split_ifs at henter
  · obtain ⟨tasks,hclamp,rfl⟩ := Option.map_eq_some_iff.mp henter
    refine or_iff_not_imp_right.mpr (fun hfull => ?_)
    have hdealt := h.resolve_right hfull
    change ¬s.counters.restWalkerNum < env.maxEpochWalkerNum at hfull
    have hsize := hepoch.size
    obtain ⟨n,hn,hle⟩ := hspare
    obtain ⟨tasks',hclamp',hcut⟩ := MessageManager.clamp_spec hvalid hn (hsize ▸ hle)
    obtain rfl := Option.some.inj (hclamp.symm.trans hclamp')
    intro t ht
    have hbounds := (MessageManager.init_ranged hvalid env.maxEpochWalkerNum
      env.graph.partitionNum).bounds ht
    have hsame := hdealt t ht
    rw [← hsame.begins,← hsame.ends] at hbounds
    change SameRange _ (tasks t)
    rw [hcut t ht]
    refine hsame.trans ⟨rfl,rfl,Nat.min_eq_left ?_,Nat.min_eq_left ?_⟩ <;> omega
  · cases henter
    exact h

/-- The tasks lose no walkers before the last epoch. -/
theorem step_dealt [RandGen ρ] [RandGenFloat ρ R] [Floating R] {tr : List (Action R)}
    {o : Option (Action R)} (hready : Ready ρ env) (hholds : Holds env tr st)
    (h : Dealt env st.solver ∨ st.solver.counters.restWalkerNum < env.maxEpochWalkerNum)
    (hs : Step env st o st') :
    Dealt env st'.solver ∨ st'.solver.counters.restWalkerNum < env.maxEpochWalkerNum := by
  obtain ⟨ha,hstage⟩ := hholds
  cases hs with
  | draw => cases ‹Option (Nat × Nat)› <;> exact h
  | copied henter =>
    have hcopying : Copying env _ _ := hstage
    exact Dealt.enter hready.valid hcopying.spare hcopying.epoch h henter
  | shuffle => exact h.imp_left (fun hd => hd.congr shuffleTask_sameRange)
  | message => exact h.imp_left (fun hd => hd.congr put_sameRange)
  | update => exact h.imp_left (fun hd => hd.congr updateTask_sameRange)
  | updated henter =>
    have hupdating : Updating env _ _ _ := hstage
    have hspare := hupdating.step.epoch.spare hupdating.ranged
    refine Dealt.enter hready.valid ?_ hupdating.atStep.epoch h henter
    exact hspare.congr rfl (fun _ => .refl _)
  | write => cases ‹Option (Nat × Nat)› <;> exact h
  | finish hl hc =>
    refine h.imp_right (fun hlt => ?_)
    obtain rfl := Option.some.inj (hc.symm.trans (ha.walkEpoch_eq hready))
    exact Nat.lt_of_le_of_lt (Nat.sub_le _ _) hlt
  | _ => exact h

theorem run_dealt [RandGen ρ] [RandGenFloat ρ R] [Floating R] {tr : List (Action R)}
    (hready : Ready ρ env) {st₀ : State ρ} (h₀ : Holds env [] st₀) (hdealt : Dealt env st₀.solver)
    (hr : Run (Step env) st₀ tr st) :
    Dealt env st.solver ∨ st.solver.counters.restWalkerNum < env.maxEpochWalkerNum := by
  refine (hr.invariant (fun tr st => Holds env tr st ∧ (Dealt env st.solver ∨
    st.solver.counters.restWalkerNum < env.maxEpochWalkerNum)) ⟨h₀,.inl hdealt⟩ ?_).2
  rintro tr st o st' ⟨hholds,h⟩ hs
  exact ⟨step_holds hready hholds hs,step_dealt hready hholds h hs⟩

end

end FlashMob.Solver
