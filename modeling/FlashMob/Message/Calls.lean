import FlashMob.Message.Sent

namespace FlashMob.Message
open Lib.Tiling FlashMob.Graph FlashMob.WalkerManager

/-- What happens to the tasks between two calls of `init`: the calls of `shuffle` and `update`, and
the walks in between, which overwrite messages. -/
inductive Call
  | shuffle (messages : Nat → Nat) (states : Option (Nat → Nat)) (activeMessageNum : Nat)
  | walk (contents : Nat → Nat → Nat)
  | update (targetMessages : Nat → Nat)

def Call.active : Call → Option Nat
  | shuffle _ _ activeMessageNum => some activeMessageNum
  | walk _ => none
  | update _ => none

namespace MessageManager

/-- `shuffle`: every thread sends the messages of its task. -/
def shuffle (cfg : MultiThreadConfig) (g : Groups) (messages : Nat → Nat)
    (states : Option (Nat → Nat)) (activeMessageNum : Nat) (tasks : Tasks) : Option Tasks :=
  (clamp cfg activeMessageNum tasks).map (fun tasks t =>
    if t < cfg.threadNum then ((tasks t).prepare g messages).shuffle messages states else tasks t)

def call (cfg : MultiThreadConfig) (g : Groups) (tasks : Tasks) : Call → Option Tasks
  | .shuffle messages states activeMessageNum => shuffle cfg g messages states activeMessageNum tasks
  | .walk contents => some (fun t => (tasks t).setMessages (contents t))
  | .update targetMessages => some (fun t =>
      if t < cfg.threadNum then ((tasks t).update targetMessages).1 else tasks t)

variable {cfg : MultiThreadConfig} (hc : cfg.Valid)
include hc

theorem call_ranged (g : Groups) {n : Nat} {tasks : Tasks} (h : Ranged cfg n tasks) (c : Call)
    (hactive : ∀ a ∈ c.active, a ≤ n) :
    ∃ tasks', call cfg g tasks c = some tasks' ∧ Ranged cfg (c.active.getD n) tasks' := by
  cases c with
  | shuffle messages states a =>
    obtain ⟨clamped,hclamp,hcut⟩ := clamp_spec hc h (hactive a rfl)
    refine ⟨_,by rw [call,shuffle,hclamp,Option.map_some],?_⟩
    refine (cut_ranged h (hactive a rfl) hcut).congr (fun t => ?_)
    split_ifs
    · exact MessageTask.shuffle_sameRange g messages states _
    · exact .refl _
  | walk contents => exact ⟨_,rfl,h.congr (fun t => ⟨rfl,rfl,rfl,rfl⟩)⟩
  | update targetMessages =>
    refine ⟨_,rfl,h.congr (fun t => ?_)⟩
    split_ifs
    · exact MessageTask.update_sameRange _ targetMessages
    · exact .refl _

/-- In calls with fewer and fewer active messages, every check passes, and the ranges end at the
active messages of the last shuffle. -/
theorem calls_ranged (g : Groups) {n : Nat} {tasks : Tasks} (h : Ranged cfg n tasks)
    (calls : List Call) (hactive : (n :: calls.filterMap Call.active).Pairwise (· ≥ ·)) :
    ∃ tasks', calls.foldlM (call cfg g) tasks = some tasks' ∧
      Ranged cfg ((calls.filterMap Call.active).getLastD n) tasks' := by
  induction calls generalizing n tasks with
  | nil => exact ⟨tasks,rfl,h⟩
  | cons c calls ih =>
    obtain ⟨hfirst,hrest⟩ := List.pairwise_cons.mp hactive
    have hle : ∀ a ∈ c.active, a ≤ n := fun a ha =>
      hfirst a (List.mem_filterMap.mpr ⟨c,List.mem_cons_self,ha⟩)
    obtain ⟨tasks',hcall,hranged⟩ := call_ranged hc g h c hle
    have hnext : (c.active.getD n :: calls.filterMap Call.active).Pairwise (· ≥ ·) := by
      cases hc' : c.active with
      | none =>
        rw [List.filterMap_cons_none hc'] at hactive
        exact hactive
      | some a =>
        rw [List.filterMap_cons_some hc'] at hrest
        exact hrest
    obtain ⟨last,hlast,htiles⟩ := ih hranged hnext
    refine ⟨last,?_,?_⟩
    · rw [List.foldlM_cons,hcall]
      exact hlast
    · cases hc' : c.active with
      | none =>
        rw [List.filterMap_cons_none hc']
        rwa [hc'] at htiles
      | some a =>
        rw [List.filterMap_cons_some hc',List.getLastD_cons]
        rwa [hc'] at htiles

end MessageManager

/-- The ranges of sockets and threads are consecutive and hold every walker, every array begins on a
page on every socket, and each `shuffle` leaves ranges that hold the active messages. -/
theorem walker_ranges_tile {cfg : MultiThreadConfig} (hc : cfg.Valid) (maxEpochWalkerNum : Nat) :
    Tiles 0 (socketWalkers cfg maxEpochWalkerNum) maxEpochWalkerNum ∧
    List.Forall₂ (fun r row => Tiles r.1 row r.2) (socketWalkers cfg maxEpochWalkerNum)
      (threadWalkers cfg maxEpochWalkerNum) ∧
    Tiles 0 (threadWalkers cfg maxEpochWalkerNum).flatten maxEpochWalkerNum ∧
    (∀ sizeofT ∈ [sizeofPartitionId,sizeofVertexId], ∀ len,
      allocWalkerArrayChecks cfg maxEpochWalkerNum sizeofT len = true) ∧
    ∀ (g : Groups) (partitionNum : Nat) (calls : List Call) (messages : Nat → Nat)
      (states : Option (Nat → Nat)) (activeMessageNum : Nat),
      (maxEpochWalkerNum ::
        (calls ++ [Call.shuffle messages states activeMessageNum]).filterMap Call.active).Pairwise
          (· ≥ ·) →
      ∃ tasks, (calls ++ [Call.shuffle messages states activeMessageNum]).foldlM
          (MessageManager.call cfg g)
          (MessageManager.init cfg maxEpochWalkerNum partitionNum) = some tasks ∧
        Ranged cfg activeMessageNum tasks := by
  refine ⟨socketWalkers_tiles hc _,?_,threadWalkers_tiles hc _,?_,?_⟩
  · exact threadWalkers_rows hc _
  · intro sizeofT hsize len
    refine allocWalkerArray_checks _ ?_ len
    rcases List.mem_pair.mp hsize with rfl | rfl <;> decide
  · intro g partitionNum calls messages states activeMessageNum hactive
    obtain ⟨tasks,hrun,hranged⟩ := MessageManager.calls_ranged hc g
      (MessageManager.init_ranged hc maxEpochWalkerNum partitionNum) _ hactive
    have hlast : [Call.shuffle messages states activeMessageNum].filterMap Call.active =
      [activeMessageNum] := rfl
    refine ⟨tasks,hrun,?_⟩
    rwa [List.filterMap_append,hlast,List.getLastD_concat] at hranged

theorem walker_ranges_tile_two_epochs :
    let cfg : MultiThreadConfig := ⟨4,2,0⟩
    let g : Groups := ⟨0,0,fun _ => []⟩
    allocWalkerArrayChecks cfg 10000 sizeofVertexId 80 = true ∧
    ∃ tasks, [Call.shuffle id none 10000,Call.walk (fun _ => id),Call.update id,
        Call.shuffle id none 4500].foldlM (MessageManager.call cfg g)
          (MessageManager.init cfg 10000 3) = some tasks ∧ Ranged cfg 4500 tasks := by
  intro cfg g
  have hc : cfg.Valid := ⟨by decide,by decide,by decide⟩
  obtain ⟨_,_,_,halloc,hcalls⟩ := walker_ranges_tile hc 10000
  exact ⟨halloc _ (by decide) 80,hcalls g 3 [.shuffle id none 10000,.walk (fun _ => id),.update id]
    id none 4500 (by decide)⟩

end FlashMob.Message
