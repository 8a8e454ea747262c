import FlashMob.Solver.Keeps

namespace FlashMob.Solver
open FlashMob.Graph FlashMob.Message FlashMob.Sampling FlashMob.WalkManager Lib.Runs

section
variable {ρ R : Type} {env : Setup R} {s : FMobSolver ρ} {l t : Nat} {todo : List Nat}
  {progress progress' : WalkManager.Progress Item}

theorem shuffleTask_sameRange (t' : Nat) :
    SameRange (s.tasks t') ((s.shuffleTask env l t).tasks t') :=
  (MessageTask.shuffle_sameRange _ _ _ _).update rfl t'

theorem put_sameRange {x : Item} {m : Moved ρ R} (t' : Nat) :
    SameRange (s.tasks t') ((s.put t x m).tasks t') := by
  have hself : SameRange (s.tasks x.task) ((s.tasks x.task).setMessages (Function.update
      (s.tasks x.task).shuffledMessages x.slot m.nextVertex)) := ⟨rfl,rfl,rfl,rfl⟩
  exact hself.update rfl t'

/-- A walked message leaves a neighbour in its slot, and the other slots as they were. -/
theorem Carries.put {x : Item} {m : Moved ρ R} {w k w' : Nat} {done : List Item}
    (h : Carries env s l done k w') (hw' : w' ∈ (s.tasks k).range)
    (hw : w ∈ (s.tasks x.task).range)
    (hitem : x = itemOf env.graph.toGroups s.tasks (s.walks (l - 1)) x.task w)
    (hmoved : m.nextVertex ∈ env.graph.neighbors 0 (s.walks (l - 1) w)) :
    Carries env (s.put t x m) l (done ++ [x]) k w' := by
  have hslotx : (s.tasks x.task).slot env.graph.toGroups (s.walks (l - 1)) w = x.slot :=
    (congrArg Item.slot hitem).symm
  have hslot : ((s.put t x m).tasks k).slot env.graph.toGroups (s.walks (l - 1)) =
      (s.tasks k).slot env.graph.toGroups (s.walks (l - 1)) := (put_sameRange k).slot _ _
  have hsame : itemOf env.graph.toGroups (s.put t x m).tasks (s.walks (l - 1)) k w' =
      itemOf env.graph.toGroups s.tasks (s.walks (l - 1)) k w' := by
    rw [itemOf,itemOf,hslot,(put_sameRange k).socket]
  have hhere : ((s.put t x m).tasks x.task).shuffledMessages x.slot = m.nextVertex := by
    simp only [FMobSolver.put,Function.update_self,MessageTask.setMessages]
  have hother : itemOf env.graph.toGroups s.tasks (s.walks (l - 1)) k w' ≠ x →
      ((s.put t x m).tasks k).shuffledMessages
        ((s.tasks k).slot env.graph.toGroups (s.walks (l - 1)) w') =
      (s.tasks k).shuffledMessages
        ((s.tasks k).slot env.graph.toGroups (s.walks (l - 1)) w') := by
    intro hne
    simp only [FMobSolver.put]
    by_cases he : k = x.task
    · subst he
      rw [Function.update_self]
      refine Function.update_of_ne (fun hs => hne ?_) _ _
      rw [MessageTask.slot_injOn hw' hw (hs.trans hslotx.symm)]
      exact hitem.symm
    · rw [Function.update_of_ne he]
  refine ⟨fun hnot => ?_,fun hin => ?_⟩
  · change itemOf _ _ (s.walks (l - 1)) k w' ∉ _ at hnot
    change ((s.put t x m).tasks k).shuffledMessages (MessageTask.slot _ (s.walks (l - 1)) _ w') = _
    rw [hsame,List.mem_append,List.mem_singleton,not_or] at hnot
    rw [hslot,hother hnot.2]
    exact h.before hnot.1
  · change itemOf _ _ (s.walks (l - 1)) k w' ∈ _ at hin
    change ((s.put t x m).tasks k).shuffledMessages (MessageTask.slot _ (s.walks (l - 1)) _ w') ∈ _
    rw [hsame] at hin
    rw [hslot]
    by_cases he : itemOf env.graph.toGroups s.tasks (s.walks (l - 1)) k w' = x
    · -- It is the message that has just been walked.
      obtain rfl : k = x.task := congrArg Item.task he
      have hwalker : w' = w := MessageTask.slot_injOn hw' hw
        ((congrArg Item.slot he).trans hslotx.symm)
      rw [hwalker,hslotx,hhere]
      exact hmoved
    · rw [hother he]
      rw [List.mem_append,List.mem_singleton] at hin
      exact h.after (hin.resolve_right he)

theorem Shuffling.walking (h : Shuffling env s l []) : Walking env s l WalkManager.entry := by
  have hall := fun t ht => h.shuffled t ht List.not_mem_nil
  refine ⟨h.step,h.inside,h.ranged,fun t ht => (hall t ht).sent,[],.start,fun t ht m hm => ?_⟩
  exact ⟨fun _ => (hall t ht).messages m hm,fun hdone => by cases hdone⟩

theorem Walking.schedule {o : Option (Event Item)} (h : Walking env s l progress)
    (hs : RegionStep (walkRegion env.cfg env.graph.partitionNum s.tasks) progress o progress')
    (ho : ∀ t x, o ≠ some (.message t x)) : Walking env s l progress' := by
  obtain ⟨etr,hrun,hwalked⟩ := h.walked
  refine ⟨h.step,h.inside,h.ranged,h.sent,_,hrun.next hs,?_⟩
  rwa [WalkManager.walked_silent ho]

theorem updateTask_sameRange (t' : Nat) : SameRange (s.tasks t') ((s.updateTask l t).tasks t') :=
  (MessageTask.update_sameRange _ _).update rfl t'

theorem updateTask_walks {i : Nat} (hne : i ≠ l) : (s.updateTask l t).walks i = s.walks i :=
  Function.update_of_ne hne _ _

theorem updateTask_tasks {k : Nat} (hne : k ≠ t) : (s.updateTask l t).tasks k = s.tasks k :=
  Function.update_of_ne hne _ _

/-- The update of a task gives its walkers what their slots hold. -/
theorem Updating.vertices (h : Updating env s l todo) (ht : t ∈ todo) (m : Nat) :
    (s.updateTask l t).walks l m = if m ∈ (s.tasks t).range then
      (s.tasks t).shuffledMessages
        ((s.tasks t).slot env.graph.toGroups (s.walks (l - 1)) m) else s.walks l m := by
  obtain ⟨⟨states,hsent⟩,_⟩ := h.pending t (h.below t ht) ht
  rw [← hsent.update_target (s.walks l) m]
  exact congrFun (Function.update_self _ _ _) m

theorem Updating.update (h : Updating env s l todo) (ht : t ∈ todo) :
    Updating env (s.updateTask l t) l (todo.erase t) := by
  have hlast : l - 1 ≠ l := by
    have := h.step.first
    omega
  obtain ⟨_,hnext⟩ := h.pending t (h.below t ht) ht
  refine ⟨h.step.congr rfl rfl rfl (fun i hi => updateTask_walks (Nat.ne_of_lt hi)) rfl rfl,
    h.inside,h.ranged.congr updateTask_sameRange,h.nodup.erase t,
    fun k hk => h.below k (List.mem_of_mem_erase hk),fun k hk hmem => ?_,fun k hk hnot m hm => ?_⟩
  · obtain ⟨hne,hin⟩ := h.nodup.mem_erase_iff.mp hmem
    rw [updateTask_tasks hne,updateTask_walks hlast]
    exact h.pending k hk hin
  · rw [h.vertices ht,updateTask_walks hlast]
    rw [(updateTask_sameRange k).range] at hm
    by_cases he : k = t
    · subst he
      rw [if_pos hm]
      exact hnext m hm
    · rw [if_neg (fun hm' => he (h.ranged.task_unique hk (h.below t ht) hm hm'))]
      exact h.updated k hk (fun hin => hnot ((List.mem_erase_of_ne he).mpr hin)) m hm

/-- The next vertices of all walkers are there. -/
theorem Updating.atStep (h : Updating env s l []) : AtStep env (s.advance l) (l + 1) := by
  have hfirst := h.step.first
  refine ⟨⟨h.step.epoch.some,h.step.epoch.size⟩,by omega,h.inside,
    h.step.legal.extend (fun w hw => ?_),rfl,?_⟩
  · obtain ⟨t,ht,hm⟩ := h.ranged.exists_task hw
    exact h.updated t ht List.not_mem_nil w hm
  · rw [if_neg (by omega)]
    exact congrArg some h.step.current

end

section
variable {ρ R : Type} [RandGen ρ] {env : Setup R} {tr : List (Action R)} {s : FMobSolver ρ}
  {l t : Nat} {todo : List Nat} {progress progress' : WalkManager.Progress Item}

theorem Shuffling.shuffle (hready : Ready ρ env) (ha : Always env tr s)
    (h : Shuffling env s l todo) : Shuffling env (s.shuffleTask env l t) l (todo.erase t) := by
  refine ⟨h.step.congr rfl rfl rfl (fun _ _ => rfl) rfl rfl,h.inside,
    h.ranged.congr shuffleTask_sameRange,fun t' ht' hnot => ?_⟩
  by_cases he : t' = t
  · subst he
    have hnum := ha.parts t' ht'
    have hfew := hready.graph.few
    have hin : ∀ m ∈ (s.tasks t').range, env.graph.partitionId (s.tasks t').socket
        (s.walks (l - 1) m) < (s.tasks t').partitionNum := by
      intro m hm
      have hlt := h.step.vertex_lt hready (h.ranged.mem_lt ht' hm)
        (Nat.sub_lt h.step.first Nat.one_pos)
      rw [hnum]
      exact (hready.graph.lookup _ _ hlt).1
    have htask : (s.shuffleTask env l t').tasks t' =
        ((s.tasks t').prepare env.graph.toGroups (s.walks (l - 1))).shuffle (s.walks (l - 1))
          (s.states env l) := by
      simp only [FMobSolver.shuffleTask,Function.update_self,h.step.current]
    obtain ⟨hsent,hmessages⟩ := MessageTask.shuffle_sent (by omega) hin _ htask
    exact ⟨hsent,hmessages⟩
  · have hold := h.shuffled t' ht' (fun hm => hnot ((List.mem_erase_of_ne he).mpr hm))
    have htask : (s.shuffleTask env l t).tasks t' = s.tasks t' := Function.update_of_ne he _ _
    refine ⟨?_,?_⟩
    · rw [htask]
      exact hold.sent
    · rw [htask]
      exact hold.messages

/-- A message that is about to be walked is that of a walker, and still its vertex. -/
theorem Walking.exists_walker (hready : Ready ρ env) (ha : Always env tr s)
    (h : Walking env s l progress) {x : Item}
    (hs : RegionStep (walkRegion env.cfg env.graph.partitionNum s.tasks) progress
      (some (.message t x)) progress') : x.task < env.cfg.threadNum ∧
      ∃ w ∈ (s.tasks x.task).range, w < s.epochWalkerNum ∧
        x = itemOf env.graph.toGroups s.tasks (s.walks (l - 1)) x.task w ∧
        (s.tasks x.task).shuffledMessages x.slot = s.walks (l - 1) w := by
  obtain ⟨etr,hrun,hwalked⟩ := h.walked
  obtain ⟨hfresh,hmem⟩ := message_fresh hrun (nodup_messages hready.valid) hs
  obtain ⟨p,hp,hx⟩ := List.mem_flatMap.mp hmem
  obtain ⟨rfl,htask,hlo,hhi⟩ := (mem_messages hready.valid).mp hx
  have hpart : x.partition < (s.tasks x.task).partitionNum := by
    rw [ha.parts _ htask]
    exact List.mem_range.mp hp
  obtain ⟨w,hw,hpid,hslot⟩ := (h.sent _ htask).exists_walker hpart hlo hhi
  have hitem : x = itemOf env.graph.toGroups s.tasks (s.walks (l - 1)) x.task w := by
    rw [itemOf,hpid,hslot]
  refine ⟨htask,w,hw,h.ranged.mem_lt htask hw,hitem,?_⟩
  have hcontent := (hwalked _ htask w hw).before (hitem ▸ hfresh)
  rwa [hslot] at hcontent

theorem Walking.exists_vertex (hready : Ready ρ env) (ha : Always env tr s)
    (h : Walking env s l progress) {x : Item}
    (hs : RegionStep (walkRegion env.cfg env.graph.partitionNum s.tasks) progress
      (some (.message t x)) progress') : ∃ v socket, v < env.graph.vNum ∧
      x.partition = env.graph.partitionId socket v ∧
      (s.tasks x.task).shuffledMessages x.slot = v := by
  obtain ⟨_,w,_,hlt,hitem,hcontent⟩ := h.exists_walker hready ha hs
  exact ⟨_,_,h.step.vertex_lt hready hlt (Nat.sub_lt h.step.first Nat.one_pos),
    congrArg Item.partition hitem,hcontent⟩

theorem Walking.sampler_returns (hready : Ready ρ env) (ha : Always env tr s)
    (h : Walking env s l progress) (hflush : Flushes env.graph) {x : Item}
    (hs : RegionStep (walkRegion env.cfg env.graph.partitionNum s.tasks) progress
      (some (.message t x)) progress') :
    (s.samplers x.partition).returns ((s.tasks x.task).shuffledMessages x.slot) = true := by
  obtain ⟨v,socket,hv,hp,hcontent⟩ := h.exists_vertex hready ha hs
  obtain ⟨hpart,hlo,hhi⟩ := hready.graph.lookup socket v hv
  rw [← hp] at hpart hlo hhi
  rw [hcontent]
  exact (ha.served _ hpart).returns (hflush _ hpart v hlo hhi)

/-- The messages of all walkers are there to be walked. -/
theorem Walking.itemOf_mem (hready : Ready ρ env) (ha : Always env tr s)
    (h : Walking env s l progress) {k m : Nat} (hk : k < env.cfg.threadNum)
    (hm : m ∈ (s.tasks k).range) : itemOf env.graph.toGroups s.tasks (s.walks (l - 1)) k m ∈
      (List.range env.graph.partitionNum).flatMap
        (walkRegion env.cfg env.graph.partitionNum s.tasks).messages := by
  obtain ⟨hp,hlo,hhi⟩ := (h.sent k hk).slot_bounds hm
  rw [ha.parts k hk] at hp
  exact List.mem_flatMap.mpr ⟨_,List.mem_range.mpr hp,
    (mem_messages hready.valid).mpr ⟨rfl,hk,hlo,hhi⟩⟩

/-- When all threads have left the region, every slot holds a neighbour. -/
theorem Walking.updating (hready : Ready ρ env) (h : Walking env s l progress)
    (hl : WalkManager.AllLeft (walkRegion env.cfg env.graph.partitionNum s.tasks) progress)
    (ha : Always env tr s) : Updating env s l (List.range env.cfg.threadNum) := by
  obtain ⟨etr,hrun,hwalked⟩ := h.walked
  have hperm := walked_perm hrun hl hready.valid.sockets (fun p hp => exists_thread hready.valid hp)
  refine ⟨h.step,h.inside,h.ranged,List.nodup_range,fun k hk => List.mem_range.mp hk,fun k hk _ => ⟨⟨_,h.sent k hk⟩,fun m hm => ?_⟩,
    fun k hk hnot => absurd (List.mem_range.mpr hk) hnot⟩
  exact (hwalked k hk m hm).after (hperm.mem_iff.mpr (h.itemOf_mem hready ha hk hm))

theorem Always.put (h : Always env tr s) {x : Item} {m : Moved ρ R} {v : Nat}
    (hmoved : WellMoved env.graph x.partition v m) :
    Always env (tr ++ [.message l t x m.tests]) (s.put t x m) := by
  refine ⟨fun p hp => ?_,fun k hk => (put_sameRange k).partitionNum.trans (h.parts k hk),h.rest,
    h.terminated,?_,fun n start output hm => ?_⟩
  · simp only [FMobSolver.put]
    by_cases he : p = x.partition
    · subst he
      rw [Function.update_self]
      exact hmoved.served
    · rw [Function.update_of_ne he]
      exact h.served p hp
  · have hnone : epochSizes [Action.message l t x m.tests] = [] := rfl
    rw [epochSizes_append,hnone,List.append_nil]
    exact h.sizes
  · exact h.paths n start output (by simpa using hm)

variable [RandGenFloat ρ R] [Floating R]

/-- The walk of a message leads to a neighbour, in the static walk and in node2vec. -/
theorem walkItem_wellMoved (hready : Ready ρ env) (ha : Always env tr s) {x : Item} {fuel v : Nat}
    {m : Moved ρ R} (hv : v < env.graph.vNum) {socket : Nat}
    (hp : x.partition = env.graph.partitionId socket v)
    (hcontent : (s.tasks x.task).shuffledMessages x.slot = v)
    (hm : s.walkItem env l t x fuel = some m) : WellMoved env.graph x.partition v m := by
  obtain ⟨hpart,hlo,hhi⟩ := hready.graph.lookup socket v hv
  rw [← hp] at hpart hlo hhi
  have hserved := ha.served _ hpart
  rw [FMobSolver.walkItem] at hm
  cases hn : env.node2vecWalk l with
  | none =>
    rw [hn,hcontent] at hm
    exact walkMessage_wellMoved hready.graph hpart hv hlo hhi hserved hm
  | some wm =>
    rw [hn,hcontent] at hm
    exact node2vecWalkMessage_wellMoved hready.graph hpart hv hlo hhi hserved hm

theorem Walking.message (hready : Ready ρ env) (ha : Always env tr s)
    (h : Walking env s l progress) {x : Item} {fuel : Nat} {m : Moved ρ R}
    (hs : RegionStep (walkRegion env.cfg env.graph.partitionNum s.tasks) progress
      (some (.message t x)) progress') (hm : s.walkItem env l t x fuel = some m) :
    Always env (tr ++ [.message l t x m.tests]) (s.put t x m) ∧
      Walking env (s.put t x m) l progress' := by
  obtain ⟨htask,w,hw,hlt,hitem,hcontent⟩ := h.exists_walker hready ha hs
  obtain ⟨etr,hrun,hwalked⟩ := h.walked
  have hv := h.step.vertex_lt hready hlt (Nat.sub_lt h.step.first Nat.one_pos)
  have hmoved := walkItem_wellMoved hready ha hv (congrArg Item.partition hitem) hcontent hm
  have htrace : (WalkManager.walked (etr ++ [Event.message t x])).map Prod.snd =
      (WalkManager.walked etr).map Prod.snd ++ [x] := by
    rw [walked_append,List.map_append]
    rfl
  refine ⟨ha.put hmoved,h.step.congr rfl rfl rfl (fun _ _ => rfl) rfl rfl,h.inside,
    h.ranged.congr put_sameRange,fun k hk => ?_,etr ++ [.message t x],?_,fun k hk w' hw' => ?_⟩
  · simp only [FMobSolver.put]
    by_cases he : k = x.task
    · subst he
      rw [Function.update_self]
      exact (h.sent _ hk).setMessages _
    · rw [Function.update_of_ne he]
      exact h.sent k hk
  · have hregion : walkRegion env.cfg env.graph.partitionNum (s.put t x m).tasks =
        walkRegion env.cfg env.graph.partitionNum s.tasks := walkRegion_setMessages _ _ _ _ _
    rw [hregion]
    exact hrun.next hs
  · rw [(put_sameRange k).range] at hw'
    rw [htrace]
    exact (hwalked k hk w' hw').put hw' hw hitem hmoved.neighbor

end

end FlashMob.Solver
