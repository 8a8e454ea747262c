import FlashMob.Sampler.Counted
import FlashMob.Solver.Record
import FlashMob.Solver.Stops
import FlashMob.Walk.Draws

namespace FlashMob.Solver
open FlashMob.Graph FlashMob.Message FlashMob.Sampling FlashMob.WalkManager Lib.Prefetch
  Lib.Remainders Lib.Runs

section
variable {ρ R : Type} [RandGen ρ] [WordGen ρ] {env : Setup R} {rands : Nat → ρ} {r : Record}
  {tr : List (Action R)} {st : State ρ} {s' : FMobSolver ρ} {phase' : Phase}

theorem Accounts.same (h : Accounts env rands r tr st) (hrands : s'.rands = st.solver.rands)
    (hsamplers : s'.samplers = st.solver.samplers)
    (hphase : phase'.Decides env rands r (epochs tr).length s') :
    Accounts env rands r (tr ++ (none : Option (Action R)).toList) ⟨s',phase'⟩ := by
  rw [Option.toList_none,List.append_nil]
  refine ⟨h.sound,fun t => ?_,fun p hp => ?_,h.ended,hphase⟩
  · exact (congrFun hrands t).trans (h.drawn t)
  · exact hsamplers ▸ h.follows p hp

/-- The vertices of earlier epochs stay decided. -/
theorem Accounts.ended_decide (h : Accounts env rands r tr st) (w i : Nat) (o : Nat × Nat)
    (ledger : Ledger Nat (Nat × Nat)) (served : List (Nat × Nat)) {k n : Nat}
    {start output : Nat → Nat} (hk : (epochs tr)[k]? = some (n,start,output)) {w' : Nat}
    (hw' : w' < n) {i' : Nat} (hi' : i' < env.walkLen) :
    (r.decide ((epochs tr).length,w,i) o ledger served).Decides env.graph rands (k,w',i')
      (output (w' * env.walkLen + i'))
      (if i' = 0 then none else some (output (w' * env.walkLen + (i' - 1)))) := by
  refine (h.ended k n start output hk w' hw' i' hi').other (fun he => ?_)
  have hlt := (List.getElem?_eq_some_iff.mp hk).1
  exact Nat.ne_of_lt hlt (congrArg Prod.fst he)

end

section
variable {ρ R : Type} [RandGen ρ] [WordGen ρ] {env : Setup R} {rands : Nat → ρ} {r : Record}
  {tr : List (Action R)} {s : FMobSolver ρ} {l t : Nat} {todo : List Nat}
  {progress progress' : WalkManager.Progress Item}

theorem Accounts.draw {pool pool' : WalkerManager.Pool} {o : Option (Nat × Nat)}
    (h : Accounts env rands r tr ⟨s,.start pool⟩)
    (hs : WalkerManager.WrapStep env.cfg env.maxEpochWalkerNum s.epochWalkerNum pool o pool') :
    ∃ r', Accounts env rands r' (tr ++ (none : Option (Action R)).toList)
      ⟨s.drawStart env o,.start pool'⟩ := by
  obtain ⟨ptr,hrun,hdrawn⟩ := h.phase
  have hnext := hrun.next hs
  rw [Option.toList_none,List.append_nil]
  cases o with
  | none =>
    rw [Option.toList_none,List.append_nil] at hnext
    exact ⟨r,h.sound,h.drawn,h.follows,h.ended,ptr,hnext,hdrawn⟩
  | some call =>
    obtain ⟨t,w⟩ := call
    have hnew : (t,r.ledger.used t) ∈ r.ledger.batch t 1 :=
      Ledger.mem_batch.mpr ⟨rfl,Nat.le_refl _,Nat.lt_succ_self _⟩
    refine ⟨r.decide ((epochs tr).length,w,0) (t,r.ledger.used t) (r.ledger.make t 1)
      (r.served ++ r.ledger.batch t 1),?_,fun u => ?_,fun p hp => ?_,
      fun k n start output hk w' hw' i hi => h.ended_decide w 0 _ _ _ hk hw' hi,_,hnext,
      fun w' hw' => ?_⟩
    · exact h.sound.decide (h.sound.ledger.make t 1) (fun q hq => List.mem_append_left _ hq)
        (List.mem_append_right _ hnew) (h.sound.ledger.batch_fresh hnew).1 _
    · simp only [FMobSolver.drawStart,Record.decide]
      by_cases he : u = t
      · subst he
        rw [Function.update_self,Ledger.used_make_self,← drawnWith_succ,← h.drawn,WordGen.gen_eq]
      · rw [Function.update_of_ne he,Ledger.used_make_of_ne _ _ he]
        exact h.drawn u
    · exact (h.follows p hp).congr (fun _ => rfl)
    · simp only [FMobSolver.drawStart]
      by_cases he : w' = w
      · subst he
        rw [Function.update_self,WordGen.gen_eq,h.drawn]
        exact Record.Decides.self rfl
      · rw [Function.update_of_ne he]
        refine (hdrawn w' ?_).other (fun hq => he (congrArg (fun q => q.2.1) hq))
        simpa [he] using hw'

theorem Accounts.enter {st : State ρ} {phase : Phase} {s₀ : FMobSolver ρ}
    (h : Accounts env rands r tr ⟨s₀,phase⟩) (hrands : s.rands = s₀.rands)
    (hsamplers : s.samplers = s₀.samplers) (hl : l ≤ env.walkLen)
    (hdecided : Decided env rands r (epochs tr).length s l) (henter : enterStep env l s = some st) :
    Accounts env rands r (tr ++ (none : Option (Action R)).toList) st := by
  rw [enterStep] at henter
  split_ifs at henter with hlt
  · obtain ⟨tasks,_,rfl⟩ := Option.map_eq_some_iff.mp henter
    exact h.same hrands hsamplers (hdecided.congr rfl rfl (fun _ _ => rfl))
  · cases henter
    obtain rfl : l = env.walkLen := Nat.le_antisymm hl (Nat.le_of_not_lt hlt)
    exact h.same hrands hsamplers hdecided

omit [WordGen ρ] [RandGen ρ] in
theorem put_slot {x : Item} {m : Moved ρ R} {w k w' : Nat}
    (hw' : w' ∈ (s.tasks k).range) (hw : w ∈ (s.tasks x.task).range)
    (hitem : x = itemOf env.graph.toGroups s.tasks (s.walks (l - 1)) x.task w) :
    ((s.put t x m).tasks k).shuffledMessages
        ((s.tasks k).slot env.graph.toGroups (s.walks (l - 1)) w') =
      if k = x.task ∧ w' = w then m.nextVertex
      else (s.tasks k).shuffledMessages
        ((s.tasks k).slot env.graph.toGroups (s.walks (l - 1)) w') := by
  have hslot : (s.tasks x.task).slot env.graph.toGroups (s.walks (l - 1)) w = x.slot :=
    (congrArg Item.slot hitem).symm
  simp only [FMobSolver.put]
  by_cases hk : k = x.task
  · subst hk
    rw [Function.update_self]
    by_cases he : w' = w
    · subst he
      rw [if_pos ⟨rfl,rfl⟩,hslot]
      exact Function.update_self _ _ _
    · rw [if_neg (fun hc => he hc.2)]
      exact Function.update_of_ne
        (fun hs => he (MessageTask.slot_injOn hw' hw (hs.trans hslot.symm))) _ _
  · rw [if_neg (fun hc => hk hc.1),Function.update_of_ne hk]

theorem Accounts.walkItem_drew [Floating R] [RandGenFloat ρ R] [WordGenFloat ρ R] (hready : Ready ρ env) (htable : OneTable env.graph)
    (h : Accounts env rands r tr ⟨s,.walk l progress⟩) {x : Item} {socket v fuel : Nat}
    {m : Moved ρ R} (hv : v < env.graph.vNum)
    (hp : x.partition = env.graph.partitionId socket v)
    (hcontent : (s.tasks x.task).shuffledMessages x.slot = v)
    (hm : s.walkItem env l t x fuel = some m) : x.partition < env.graph.partitionNum ∧
      ∃ ledger served o, Drew env.graph.edges (env.graph.adjlists 0)
        (env.graph.partitionBegin x.partition) (env.graph.partitionEnd x.partition) rands
        x.partition t v r.ledger ledger r.served served o m := by
  obtain ⟨hpart,hlo,hhi⟩ := hready.graph.lookup socket v hv
  rw [← hp] at hpart hlo hhi
  obtain ⟨hpos,hdegree⟩ := htable.degrees _ hpart v hlo hhi
  refine ⟨hpart,?_⟩
  rw [FMobSolver.walkItem,hcontent,h.drawn] at hm
  split at hm
  · exact walkMessage_drew hlo hhi hpos hdegree t h.sound.ledger (h.follows _ hpart) hm
  · exact node2vecWalkMessage_drew hlo hhi hpos hdegree t h.sound.ledger (h.follows _ hpart) hm

/-- The next vertex of a walker is decided by a draw that its message was walked with. -/
theorem Accounts.message [Floating R] [RandGenFloat ρ R] [WordGenFloat ρ R] (hready : Ready ρ env) (htable : OneTable env.graph)
    (hholds : Holds env tr ⟨s,.walk l progress⟩)
    (h : Accounts env rands r tr ⟨s,.walk l progress⟩) {x : Item} {fuel : Nat}
    {m : Moved ρ R}
    (hs : RegionStep (walkRegion env.cfg env.graph.partitionNum s.tasks) progress
      (some (.message t x)) progress') (hm : s.walkItem env l t x fuel = some m) :
    ∃ r', Accounts env rands r' (tr ++ [.message l t x m.tests]) ⟨s.put t x m,.walk l progress'⟩ := by
  obtain ⟨ha,hwalking⟩ := hholds
  have hwalking : Walking env s l progress := hwalking
  obtain ⟨htask,w,hw,hlt,hitem,hcontent⟩ := hwalking.exists_walker hready ha hs
  have hfirst := hwalking.step.first
  have hv := hwalking.step.vertex_lt hready hlt (Nat.sub_lt hfirst Nat.one_pos)
  obtain ⟨hpart,ledger,served,o,hdrew⟩ := h.walkItem_drew hready htable hv
    (congrArg Item.partition hitem) hcontent hm
  obtain ⟨hdecided,etr,hrun,hmoved⟩ := h.phase
  have hsize : epochs (tr ++ [.message l t x m.tests]) = epochs tr := by
    rw [epochs_append]
    exact List.append_nil _
  refine ⟨r.decide ((epochs tr).length,w,l) o ledger served,?_,fun u => ?_,fun p hp => ?_,?_,?_⟩
  · exact h.sound.decide hdrew.sound hdrew.grows hdrew.fresh.1 hdrew.fresh.2 _
  · simp only [FMobSolver.put,Record.decide]
    by_cases he : u = t
    · subst he
      rw [Function.update_self]
      exact hdrew.rand
    · rw [Function.update_of_ne he,hdrew.used u he]
      exact h.drawn u
  · simp only [FMobSolver.put,Record.decide]
    by_cases he : p = x.partition
    · subst he
      rw [Function.update_self]
      exact hdrew.follows
    · rw [Function.update_of_ne he]
      exact (h.follows p hp).congr (fun v => hdrew.pending _ he)
  · rw [hsize]
    exact fun k n start output hk w' hw' i hi => h.ended_decide w l _ _ _ hk hw' hi
  · rw [hsize]
    refine ⟨(hdecided.decide hfirst w o ledger served).congr rfl rfl (fun _ _ => rfl),
      etr ++ [.message t x],?_,fun k hk w' hw' hin => ?_⟩
    · have hregion : walkRegion env.cfg env.graph.partitionNum (s.put t x m).tasks =
          walkRegion env.cfg env.graph.partitionNum s.tasks := walkRegion_setMessages _ _ _ _ _
      rw [hregion]
      exact hrun.next hs
    · rw [(put_sameRange k).range] at hw'
      have hslot : ((s.put t x m).tasks k).slot env.graph.toGroups (s.walks (l - 1)) =
          (s.tasks k).slot env.graph.toGroups (s.walks (l - 1)) := (put_sameRange k).slot _ _
      change (r.decide _ _ _ _).Decides env.graph rands _ (((s.put t x m).tasks k).shuffledMessages
        (((s.put t x m).tasks k).slot env.graph.toGroups (s.walks (l - 1)) w'))
        (some (s.walks (l - 1) w'))
      rw [hslot,put_slot hw' hw hitem]
      by_cases he : w' = w
      · subst he
        obtain rfl := hwalking.ranged.task_unique hk htask hw' hw
        rw [if_pos ⟨rfl,rfl⟩]
        exact Record.Decides.self hdrew.value
      · rw [if_neg (fun hc => he hc.2)]
        refine (hmoved k hk w' hw' ?_).other (fun hq => he (congrArg (fun q => q.2.1) hq))
        -- The message of another walker is another message.
        have hsame : itemOf env.graph.toGroups (s.put t x m).tasks (s.walks (l - 1)) k w' =
            itemOf env.graph.toGroups s.tasks (s.walks (l - 1)) k w' := by
          rw [itemOf,itemOf,hslot,(put_sameRange k).socket]
        change itemOf env.graph.toGroups (s.put t x m).tasks (s.walks (l - 1)) k w' ∈ _ at hin
        rw [hsame,walked_append,List.map_append,List.mem_append] at hin
        refine hin.resolve_right (fun hx => he ?_)
        have hx' : itemOf env.graph.toGroups s.tasks (s.walks (l - 1)) k w' = x := by
          simpa [WalkManager.walked] using hx
        obtain rfl : k = x.task := congrArg Item.task hx'
        exact MessageTask.slot_injOn hw' hw
          ((congrArg Item.slot hx').trans (congrArg Item.slot hitem))

theorem Accounts.schedule {o : Option (Event Item)}
    (h : Accounts env rands r tr ⟨s,.walk l progress⟩)
    (hs : RegionStep (walkRegion env.cfg env.graph.partitionNum s.tasks) progress o progress')
    (ho : ∀ t x, o ≠ some (.message t x)) :
    Accounts env rands r (tr ++ (none : Option (Action R)).toList) ⟨s,.walk l progress'⟩ := by
  obtain ⟨hdecided,etr,hrun,hmoved⟩ := h.phase
  refine h.same rfl rfl ⟨hdecided,_,hrun.next hs,?_⟩
  rw [WalkManager.walked_silent ho]
  exact hmoved

theorem Accounts.walked (hready : Ready ρ env)
    (hholds : Holds env tr ⟨s,.walk l progress⟩) (h : Accounts env rands r tr ⟨s,.walk l progress⟩)
    (hl : WalkManager.AllLeft (walkRegion env.cfg env.graph.partitionNum s.tasks) progress) :
    Accounts env rands r (tr ++ (none : Option (Action R)).toList)
      ⟨s,.update l (List.range env.cfg.threadNum)⟩ := by
  obtain ⟨ha,hwalking⟩ := hholds
  obtain ⟨hdecided,etr,hrun,hmoved⟩ := h.phase
  have hperm := walked_perm hrun hl hready.valid.sockets (fun p hp => exists_thread hready.valid hp)
  refine h.same rfl rfl ⟨hdecided,fun k hk _ m hm => ?_,fun k hk hnot => ?_⟩
  · exact hmoved k hk m hm (hperm.mem_iff.mpr (Walking.itemOf_mem hready ha hwalking hk hm))
  · exact absurd (List.mem_range.mpr hk) hnot

theorem Accounts.update (hholds : Holds env tr ⟨s,.update l todo⟩)
    (h : Accounts env rands r tr ⟨s,.update l todo⟩) (ht : t ∈ todo) :
    Accounts env rands r (tr ++ (none : Option (Action R)).toList)
      ⟨s.updateTask l t,.update l (todo.erase t)⟩ := by
  have hupdating : Updating env s l todo := hholds.stage
  obtain ⟨hdecided,hpending,hupdated⟩ := h.phase
  have hlast : l - 1 ≠ l := by
    have := hupdating.step.first
    omega
  refine h.same rfl rfl ⟨hdecided.congr rfl rfl (fun i hi => updateTask_walks (Nat.ne_of_lt hi)),
    fun k hk hmem => ?_,fun k hk hnot m hm => ?_⟩
  · obtain ⟨hne,hin⟩ := hupdating.nodup.mem_erase_iff.mp hmem
    have hsame := hpending k hk hin
    simp only [Moves] at hsame ⊢
    rw [updateTask_tasks hne,updateTask_walks hlast]
    exact hsame
  · rw [hupdating.vertices ht,updateTask_walks hlast]
    rw [(updateTask_sameRange k).range] at hm
    by_cases he : k = t
    · subst he
      rw [if_pos hm]
      exact hpending k hk ht m hm
    · rw [if_neg (fun hm' => he (hupdating.ranged.task_unique hk (hupdating.below t ht) hm hm'))]
      exact hupdated k hk (fun hin => hnot ((List.mem_erase_of_ne he).mpr hin)) m hm

theorem Accounts.finish (hready : Ready ρ env) {pool : WalkerManager.Pool}
    {counters : Solver.Progress} (hholds : Holds env tr ⟨s,.paths pool⟩)
    (h : Accounts env rands r tr ⟨s,.paths pool⟩) (hl : WalkerManager.AllLeft env.cfg pool) :
    Accounts env rands r (tr ++ [.epoch s.epochWalkerNum s.walkerStartVertices s.output])
      ⟨{ s with counters := counters, threadStates := pool.threadStates },.driver⟩ := by
  have hwriting : Writing env s pool := hholds.stage
  have hdecided : Decided env rands r (epochs tr).length s env.walkLen := h.phase
  obtain ⟨etr,hrun,hwritten⟩ := hwriting.written
  have hsize := hwriting.step.epoch.size_le
  have hrows : ∀ w < s.epochWalkerNum, ∀ i < env.walkLen,
      s.output (w * env.walkLen + i) = s.walks i w := fun w hw =>
    hwritten w (WalkerManager.mem_processed hready.valid hsize (hready.room.mono hsize) hrun hl hw)
  refine ⟨h.sound,h.drawn,h.follows,fun k n start output hk w hw i hi => ?_,trivial⟩
  rw [epochs_append] at hk
  rcases Nat.lt_or_ge k (epochs tr).length with hold | hnew
  · rw [List.getElem?_append_left hold] at hk
    exact h.ended k n start output hk w hw i hi
  · -- It is the epoch that has just ended.
    rw [List.getElem?_append_right hnew] at hk
    have hlast : [(s.epochWalkerNum,s.walkerStartVertices,s.output)][k - (epochs tr).length]? =
        some (n,start,output) := hk
    obtain ⟨hlt,hlast⟩ := List.getElem?_eq_some_iff.mp hlast
    rw [List.length_singleton] at hlt
    obtain rfl : k = (epochs tr).length := by omega
    simp only [Nat.sub_self,List.getElem_cons_zero,Prod.mk.injEq] at hlast
    obtain ⟨rfl,rfl,rfl⟩ := hlast
    rw [hrows w hw i hi]
    cases i with
    | zero =>
      rw [if_pos rfl,hwriting.step.legal.starts w hw]
      exact hdecided.starts w hw
    | succ i =>
      rw [if_neg (Nat.succ_ne_zero i),Nat.add_sub_cancel,hrows w hw i (by omega)]
      exact hdecided.steps w hw i hi

end

section
variable {ρ R : Type} [RandGen ρ] [WordGen ρ] [Floating R] [RandGenFloat ρ R] [WordGenFloat ρ R] {env : Setup R} {rands : Nat → ρ} {r : Record}
  {tr : List (Action R)} {st st' : State ρ} {o : Option (Action R)}

end

end FlashMob.Solver
