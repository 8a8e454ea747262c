import FlashMob.Solver.Legal

namespace FlashMob.Solver
open FlashMob.Graph FlashMob.Message FlashMob.Sampling FlashMob.WalkManager Lib.Runs
  Lib.Writes

section
variable {ρ R : Type} {env : Setup R} {s s' : FMobSolver ρ}

theorem Epoch.size_le (h : Epoch env s) : s.epochWalkerNum ≤ env.maxEpochWalkerNum := by
  have := h.size
  omega

theorem Epoch.spare (h : Epoch env s) (hr : Ranged env.cfg s.epochWalkerNum s.tasks) :
    Spare env s := ⟨_,hr,Nat.le_of_eq h.size.symm⟩

theorem Spare.congr (h : Spare env s) (hcounters : s'.counters = s.counters)
    (htasks : ∀ t, SameRange (s.tasks t) (s'.tasks t)) : Spare env s' := by
  obtain ⟨n,hn,hle⟩ := h
  exact ⟨n,hn.congr htasks,by rwa [hcounters]⟩

/-- The step does not see the tasks, nor the vertices to come. -/
theorem AtStep.congr {l : Nat} (h : AtStep env s l) (hcounters : s'.counters = s.counters)
    (hnum : s'.epochWalkerNum = s.epochWalkerNum)
    (hstart : s'.walkerStartVertices = s.walkerStartVertices)
    (hwalks : ∀ i < l, s'.walks i = s.walks i) (hcurrent : s'.currentVertices = s.currentVertices)
    (hprevious : s'.previousVertices = s.previousVertices) : AtStep env s' l := by
  refine ⟨⟨?_,?_⟩,h.first,h.last,?_,hcurrent.trans h.current,hprevious.trans h.previous⟩
  · rw [hcounters]
    exact h.epoch.some
  · rw [hcounters,hnum]
    exact h.epoch.size
  · rw [hnum,hstart]
    exact h.legal.congr h.first (fun w _ i hi => congrFun (hwalks i hi) w)

theorem row_injective {walkLen w w' i i' : Nat} (hi : i < walkLen) (hi' : i' < walkLen)
    (h : w * walkLen + i = w' * walkLen + i') : w = w' := by
  have hdiv : ∀ {w i}, i < walkLen → (w * walkLen + i) / walkLen = w := fun {w i} hi => by
    rw [Nat.mul_comm,Nat.mul_add_div (Nat.zero_lt_of_lt hi),Nat.div_eq_of_lt hi,Nat.add_zero]
  rw [← hdiv (w := w) hi,h,hdiv hi']

/-- The copy of a path changes the row of its walker only. -/
theorem writePath_output (walkLen t w w' : Nat) {i : Nat} (hi : i < walkLen) :
    (s.writePath walkLen (some (t,w))).output (w' * walkLen + i) =
      if w' = w then s.walks i w else s.output (w' * walkLen + i) := by
  simp only [FMobSolver.writePath]
  rw [foldl_update (fun i => w * walkLen + i) (fun i => s.walks i w)]
  by_cases he : w' = w
  · subst he
    rw [if_pos rfl]
    refine writes_of_mem _ ?_ (List.mem_map.mpr ⟨i,List.mem_range'_1.mpr (by omega),rfl⟩)
    rw [List.map_map]
    refine List.Nodup.map (fun a b hab => ?_) List.nodup_range'
    exact Nat.add_left_cancel hab
  · rw [if_neg he]
    refine writes_of_notMem _ (fun hm => he ?_)
    obtain ⟨_,hq,heq⟩ := List.mem_map.mp hm
    obtain ⟨j,hj,rfl⟩ := List.mem_map.mp hq
    have hlt := (List.mem_range'_1.mp hj).2
    exact (row_injective (by omega) hi heq).symm

theorem Writing.write {pool pool' : WalkerManager.Pool} {o : Option (Nat × Nat)}
    (h : Writing env s pool)
    (hs : WalkerManager.WrapStep env.cfg env.maxEpochWalkerNum s.epochWalkerNum pool o pool') :
    Writing env (s.writePath env.walkLen o) pool' := by
  obtain ⟨tr,hrun,hwritten⟩ := h.written
  have hnext := hrun.next hs
  cases o with
  | none =>
    rw [Option.toList_none,List.append_nil] at hnext
    exact ⟨h.step,h.spare,tr,hnext,hwritten⟩
  | some call =>
    obtain ⟨t,w⟩ := call
    refine ⟨h.step.congr rfl rfl rfl (fun _ _ => rfl) rfl rfl,h.spare,_,hnext,fun w' hw' i hi => ?_⟩
    rw [writePath_output _ _ _ _ hi]
    by_cases he : w' = w
    · subst he
      exact if_pos rfl
    · rw [if_neg he]
      refine hwritten w' ?_ i hi
      simpa [he] using hw'

end

section
variable {ρ R : Type} [RandGen ρ] {env : Setup R} {tr : List (Action R)} {s s' : FMobSolver ρ}

theorem AtStep.vertex_lt (hready : Ready ρ env) {l : Nat} (h : AtStep env s l) {w i : Nat}
    (hw : w < s.epochWalkerNum) (hi : i < l) : s.walks i w < env.graph.vNum :=
  h.legal.vertex_lt hready.graph.neighbor_lt hw hi

/-- The invariant does not see the arrays and the phase. -/
theorem Always.congr (h : Always env tr s) (hsamplers : s'.samplers = s.samplers)
    (hcounters : s'.counters = s.counters) (htasks : ∀ t, SameRange (s.tasks t) (s'.tasks t)) :
    Always env tr s' := by
  refine ⟨?_,fun t ht => (htasks t).partitionNum.trans (h.parts t ht),?_,?_,?_,h.paths⟩
  · rw [hsamplers]
    exact h.served
  · rw [hcounters]
    exact h.rest
  · rw [hcounters]
    exact h.terminated
  · rw [hcounters]
    exact h.sizes

/-- The begin of an epoch. -/
theorem begin_starting (hready : Ready ρ env) (hspare : Spare env s)
    (hrest : s.counters.restWalkerNum ≠ 0) :
    Starting env { s with
      epochWalkerNum := u32 (min env.maxEpochWalkerNum s.counters.restWalkerNum)
      currentVertices := 0
      previousVertices := none } (WalkerManager.entry s.threadStates) := by
  have hcap32 : EstimateArgs.walkerCap = 2 ^ 32 - 2 := rfl
  have := hready.cap
  refine ⟨⟨Nat.pos_of_ne_zero hrest,u32_of_lt (by omega)⟩,hspare,rfl,rfl,[],.start,?_⟩
  intro w hw
  cases hw

theorem Starting.draw [RandGenFloat ρ R] [Floating R] (hready : Ready ρ env)
    {pool pool' : WalkerManager.Pool} {o : Option (Nat × Nat)}
    (h : Starting env s pool)
    (hs : WalkerManager.WrapStep env.cfg env.maxEpochWalkerNum s.epochWalkerNum pool o pool') :
    Starting env (s.drawStart env o) pool' := by
  obtain ⟨tr,hrun,hdrawn⟩ := h.drawn
  have hnext := hrun.next hs
  cases o with
  | none =>
    rw [Option.toList_none,List.append_nil] at hnext
    exact ⟨h.epoch,h.spare,h.current,h.previous,tr,hnext,hdrawn⟩
  | some call =>
    obtain ⟨t,w⟩ := call
    refine ⟨⟨h.epoch.some,h.epoch.size⟩,h.spare,h.current,h.previous,_,hnext,?_⟩
    intro w' hw'
    simp only [FMobSolver.drawStart]
    by_cases he : w' = w
    · subst he
      rw [Function.update_self]
      exact RandGen.gen_lt _ _ hready.graph.vertices
    · rw [Function.update_of_ne he]
      refine hdrawn w' ?_
      simpa [he] using hw'

theorem Starting.drawn_all (hready : Ready ρ env) {pool : WalkerManager.Pool}
    (h : Starting env s pool) (hl : WalkerManager.AllLeft env.cfg pool) :
    Copying env { s with threadStates := pool.threadStates } (List.range s.epochWalkerNum) := by
  obtain ⟨tr,hrun,hdrawn⟩ := h.drawn
  have hsize := h.epoch.size_le
  refine ⟨⟨h.epoch.some,h.epoch.size⟩,h.spare,h.current,h.previous,?_,?_⟩
  · intro w hw
    exact hdrawn w (WalkerManager.mem_processed hready.valid hsize (hready.room.mono hsize) hrun hl hw)
  · intro w hw hnot
    exact absurd (List.mem_range.mpr hw) hnot

omit [RandGen ρ] in
theorem Copying.copy {w : Nat} {todo : List Nat} (h : Copying env s todo) :
    Copying env (s.copyStart w) (todo.erase w) := by
  refine ⟨⟨h.epoch.some,h.epoch.size⟩,h.spare,h.current,h.previous,h.drawn,?_⟩
  intro w' hw' hnot
  simp only [FMobSolver.copyStart,h.current,Function.update_self]
  by_cases he : w' = w
  · subst he
    exact Function.update_self _ _ _
  · rw [Function.update_of_ne he]
    exact h.copied w' hw' (fun hm => hnot ((List.mem_erase_of_ne he).mpr hm))

theorem Copying.atStep (hready : Ready ρ env) (h : Copying env s []) : AtStep env s 1 := by
  refine ⟨h.epoch,Nat.le_refl _,hready.len,⟨h.drawn,?_,?_⟩,h.current,h.previous⟩
  · exact fun w hw => h.copied w hw List.not_mem_nil
  · intro w _ i hi
    omega

/-- The begin of a step, or of the last loop. -/
theorem AtStep.enter (hready : Ready ρ env) {l : Nat} (h : AtStep env s l) (hspare : Spare env s)
    (ha : Always env tr s) : ∃ st, enterStep env l s = some st ∧ Holds env tr st := by
  rw [enterStep]
  by_cases hl : l < env.walkLen
  · rw [if_pos hl]
    obtain ⟨n,hn,hle⟩ := hspare
    have hactive : s.epochWalkerNum ≤ n := h.epoch.size ▸ hle
    obtain ⟨tasks,hclamp,hcut⟩ := MessageManager.clamp_spec hready.valid hn hactive
    refine ⟨_,by rw [hclamp,Option.map_some],⟨ha.served,?_,ha.rest,ha.terminated,ha.sizes,ha.paths⟩,?_⟩
    · intro t ht
      exact (congrArg MessageTask.partitionNum (hcut t ht)).trans (ha.parts t ht)
    · refine ⟨⟨⟨h.epoch.some,h.epoch.size⟩,h.first,h.last,h.legal,h.current,h.previous⟩,hl,
        MessageManager.cut_ranged hn hactive hcut,?_⟩
      intro t ht hnot
      exact absurd (List.mem_range.mpr ht) hnot
  · obtain rfl : l = env.walkLen := Nat.le_antisymm h.last (Nat.le_of_not_lt hl)
    rw [if_neg hl]
    refine ⟨_,rfl,ha,h,hspare,[],.start,?_⟩
    intro w hw
    cases hw

/-- The checks at the end of an epoch pass. -/
theorem Always.walkEpoch_eq (hready : Ready ρ env) (h : Always env tr s) :
    walkEpoch env.maxEpochWalkerNum s.counters =
      some ⟨s.counters.restWalkerNum - min env.maxEpochWalkerNum s.counters.restWalkerNum,
        s.counters.terminatedWalkerNum + min env.maxEpochWalkerNum s.counters.restWalkerNum,
        s.counters.counted + min env.maxEpochWalkerNum s.counters.restWalkerNum⟩ := by
  have hrest := h.rest
  have hterminated := h.terminated
  have hwalkers := hready.walkers
  exact Solver.walkEpoch_eq hready.cap (by omega) (by omega)

/-- An epoch ends with the paths of its walkers in the output. -/
theorem Writing.finish (hready : Ready ρ env) (ha : Always env tr s) {pool : WalkerManager.Pool}
    {counters : Solver.Progress} (h : Writing env s pool)
    (hl : WalkerManager.AllLeft env.cfg pool)
    (hc : walkEpoch env.maxEpochWalkerNum s.counters = some counters) :
    Holds env (tr ++ [.epoch s.epochWalkerNum s.walkerStartVertices s.output])
      ⟨{ s with counters := counters, threadStates := pool.threadStates },.driver⟩ := by
  obtain ⟨etr,hrun,hwritten⟩ := h.written
  have hsize := h.step.epoch.size_le
  have heq := h.step.epoch.size
  have hrest := ha.rest
  have hterminated := ha.terminated
  obtain rfl := Option.some.inj (hc.symm.trans (ha.walkEpoch_eq hready))
  have hrows : ∀ w < s.epochWalkerNum, ∀ i < env.walkLen,
      s.output (w * env.walkLen + i) = s.walks i w := fun w hw =>
    hwritten w (WalkerManager.mem_processed hready.valid hsize (hready.room.mono hsize) hrun hl hw)
  refine ⟨⟨ha.served,ha.parts,?_,?_,?_,fun n start output hm => ?_⟩,?_⟩
  · simp only
    omega
  · simp only
    omega
  · rw [epochSizes_append,List.sum_append,ha.sizes]
    simp [epochSizes,heq]
  · rcases List.mem_append.mp hm with hm | hm
    · exact ha.paths n start output hm
    · obtain ⟨rfl,rfl,rfl⟩ := Action.epoch.inj (List.mem_singleton.mp hm)
      exact h.step.legal.congr hready.len hrows
  · obtain ⟨n,hn,hle⟩ := h.spare
    refine ⟨n,hn,?_⟩
    simp only
    omega

end

end FlashMob.Solver
