import FlashMob.Message.Sent
import FlashMob.Solver.Machine

namespace FlashMob.Solver
open FlashMob.Graph FlashMob.Message FlashMob.WalkManager Lib.Loops

/-- The message of walker `m` of task `k`. -/
def itemOf (g : Groups) (tasks : Tasks) (origin : Nat → Nat) (k m : Nat) : Item :=
  ⟨g.partitionId (tasks k).socket (origin m),k,(tasks k).slot g origin m⟩

theorem mem_items {p k : Nat} {mt : MessageTask} {x : Item} : x ∈ items p k mt ↔
    x.partition = p ∧ x.task = k ∧ mt.shuffledMessageBegin p ≤ x.slot ∧
      x.slot < mt.shuffledMessageEnd p := by
  rw [items,List.mem_map]
  constructor
  · rintro ⟨i,hi,rfl⟩
    have hb := List.mem_range'_1.mp hi
    refine ⟨rfl,rfl,hb.1,?_⟩
    simp only
    omega
  · rintro ⟨rfl,rfl,hlo,hhi⟩
    exact ⟨x.slot,List.mem_range'_1.mpr (by omega),rfl⟩

theorem nodup_items (p k : Nat) (mt : MessageTask) : (items p k mt).Nodup := by
  refine List.Nodup.map (fun i j he => ?_) List.nodup_range'
  exact congrArg Item.slot he

section
variable {cfg : MultiThreadConfig} (hc : cfg.Valid) {partitionNum : Nat} {tasks : Tasks}
include hc

/-- A partition has the messages of all tasks in it, each once. -/
theorem mem_messages {p : Nat} {x : Item} :
    x ∈ (walkRegion cfg partitionNum tasks).messages p ↔
      x.partition = p ∧ x.task < cfg.threadNum ∧
        (tasks x.task).shuffledMessageBegin p ≤ x.slot ∧
        x.slot < (tasks x.task).shuffledMessageEnd p := by
  simp only [walkRegion,List.mem_flatMap,List.mem_range,mem_items]
  constructor
  · rintro ⟨s,hs,i,hi,hp,htask,hb⟩
    rw [htask]
    exact ⟨hp,hc.threadAt_lt hs hi,hb⟩
  · rintro ⟨hp,ht,hb⟩
    refine ⟨cfg.socketId x.task,hc.socketId_lt ht,cfg.socketOffset x.task,hc.socketOffset_lt _,?_⟩
    rw [cfg.threadAt_socket]
    exact ⟨hp,rfl,hb⟩

theorem nodup_messages :
    ((List.range partitionNum).flatMap (walkRegion cfg partitionNum tasks).messages).Nodup := by
  refine nodup_flatMap Item.partition List.nodup_range (fun p _ => ?_)
    (fun p _ x hx => ((mem_messages hc).mp hx).1)
  refine nodup_flatMap (fun x => cfg.socketId x.task) List.nodup_range (fun s _ => ?_) ?_
  · refine nodup_flatMap (fun x => cfg.socketOffset x.task) List.nodup_range
      (fun i _ => nodup_items _ _ _) (fun i hi x hx => ?_)
    rw [(mem_items.mp hx).2.1]
    exact MultiThreadConfig.Valid.socketOffset_threadAt (List.mem_range.mp hi)
  · intro s _ x hx
    obtain ⟨i,hi,hx⟩ := List.mem_flatMap.mp hx
    rw [(mem_items.mp hx).2.1]
    exact hc.socketId_threadAt (List.mem_range.mp hi)

/-- Every socket has a thread. -/
theorem exists_thread {s : Nat} (hs : s < cfg.socketNum) : ∃ t < cfg.threadNum, cfg.socketId t = s :=
  ⟨cfg.threadAt s 0,hc.threadAt_lt hs hc.socketThreadNum_pos,
    hc.socketId_threadAt hc.socketThreadNum_pos⟩

end

/-- The region does not depend on what the slots hold. -/
theorem walkRegion_setMessages (cfg : MultiThreadConfig) (partitionNum : Nat) (tasks : Tasks)
    (k : Nat) (contents : Nat → Nat) :
    walkRegion cfg partitionNum (Function.update tasks k ((tasks k).setMessages contents)) =
      walkRegion cfg partitionNum tasks := by
  have hitems : ∀ p t, items p t (Function.update tasks k ((tasks k).setMessages contents) t) =
      items p t (tasks t) := by
    intro p t
    by_cases he : t = k
    · subst he
      rw [Function.update_self]
      rfl
    · rw [Function.update_of_ne he]
  simp only [walkRegion,hitems]

end FlashMob.Solver
