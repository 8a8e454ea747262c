import FlashMob.Lib.Loops
import FlashMob.Message.Shuffle
import FlashMob.Walker.Process

namespace FlashMob.Message
open Lib.Loops Lib.Tiling FlashMob.Graph FlashMob.WalkerManager

/-- The task `mtasks[s][t_i]` has the number of the thread at offset `t_i` of socket `s`. -/
abbrev Tasks := Nat → MessageTask

namespace MessageManager

/-- The tasks after `init`; the pool hands out memory that is set to zero. -/
def init (cfg : MultiThreadConfig) (maxEpochWalkerNum partitionNum : Nat) : Tasks := fun t =>
  { socket := cfg.socketId t
    partitionNum := partitionNum
    originMessageBegin := threadWalkerBegin cfg maxEpochWalkerNum (localRange cfg t)
    originMessageEnd := threadWalkerEnd cfg maxEpochWalkerNum (localRange cfg t)
    shuffledMessageBegin := fun _ => 0
    shuffledMessageEnd := fun _ => 0
    shuffledMessages := fun _ => 0
    shuffledStates := fun _ => 0
    partitionIds := fun _ => 0 }

/-- The loop over the tasks of socket `s`, the last first: it stops at the first task that
needs no change. -/
def clampSocket (cfg : MultiThreadConfig) (active s : Nat) : Nat → Tasks → Tasks
  | 0, tasks => tasks
  | i+1, tasks =>
    let mt := tasks (cfg.threadAt s i)
    if active < mt.originMessageEnd then
      clampSocket cfg active s i (Function.update tasks (cfg.threadAt s i) { mt with
        originMessageBegin := min mt.originMessageBegin active
        originMessageEnd := active })
    else tasks

/-- The begin of `shuffle`, up to its parallel loop: the `CHECK` and the new ranges. -/
def clamp (cfg : MultiThreadConfig) (active : Nat) (tasks : Tasks) : Option Tasks :=
  if active ≤ (tasks (cfg.threadAt (cfg.socketNum - 1) (cfg.socketThreadNum - 1))).originMessageEnd
    then some ((List.range cfg.socketNum).foldl
      (fun tasks s => clampSocket cfg active s cfg.socketThreadNum tasks) tasks)
  else none

end MessageManager

def MessageTask.cut (active : Nat) (mt : MessageTask) : MessageTask :=
  { mt with
    originMessageBegin := min mt.originMessageBegin active
    originMessageEnd := min mt.originMessageEnd active }

/-- The ranges of the tasks follow each other and end at `n`. -/
def Ranged (cfg : MultiThreadConfig) (n : Nat) (tasks : Tasks) : Prop :=
  Tiles 0 ((List.range cfg.threadNum).map
    (fun t => ((tasks t).originMessageBegin,(tasks t).originMessageEnd))) n

namespace Ranged
variable {cfg : MultiThreadConfig} {n : Nat} {tasks : Tasks} (h : Ranged cfg n tasks)
include h

theorem bounds {t : Nat} (ht : t < cfg.threadNum) :
    (tasks t).originMessageBegin ≤ (tasks t).originMessageEnd ∧ (tasks t).originMessageEnd ≤ n :=
  (h.mem_bounds (List.mem_map_of_mem (List.mem_range.mpr ht))).2

theorem ordered {t t' : Nat} (hlt : t < t') (ht' : t' < cfg.threadNum) :
    (tasks t).originMessageEnd ≤ (tasks t').originMessageBegin := by
  have hp := List.pairwise_map.mp h.pairwise
  have hget := List.pairwise_iff_getElem.mp hp t t' (by rw [List.length_range]; omega)
    (by rw [List.length_range]; exact ht') hlt
  simpa using hget

theorem exists_task {m : Nat} (hm : m < n) : ∃ t < cfg.threadNum, m ∈ (tasks t).range := by
  obtain ⟨t,⟨r,hr,hb⟩,_⟩ := h.existsUnique_index (Nat.zero_le m) hm
  obtain ⟨ht,rfl⟩ := List.getElem?_eq_some_iff.mp hr
  rw [List.length_map,List.length_range] at ht
  refine ⟨t,ht,MessageTask.mem_range.mpr ?_⟩
  simpa using hb

theorem task_unique {m t t' : Nat} (ht : t < cfg.threadNum) (ht' : t' < cfg.threadNum)
    (hm : m ∈ (tasks t).range) (hm' : m ∈ (tasks t').range) : t = t' := by
  have hb := MessageTask.mem_range.mp hm
  have hb' := MessageTask.mem_range.mp hm'
  rcases Nat.lt_trichotomy t t' with hlt | rfl | hgt
  · have := h.ordered hlt ht'
    omega
  · rfl
  · have := h.ordered hgt ht
    omega

theorem mem_lt {m t : Nat} (ht : t < cfg.threadNum) (hm : m ∈ (tasks t).range) : m < n :=
  Nat.lt_of_lt_of_le (MessageTask.mem_range.mp hm).2 (h.bounds ht).2

end Ranged

theorem threadAt_inj {cfg : MultiThreadConfig} {s s' i i' : Nat} (hi : i < cfg.socketThreadNum)
    (hi' : i' < cfg.socketThreadNum) (hc : cfg.Valid)
    (he : cfg.threadAt s i = cfg.threadAt s' i') : s = s' ∧ i = i' := by
  have hsocket := congrArg cfg.socketId he
  have hoffset := congrArg cfg.socketOffset he
  rw [hc.socketId_threadAt hi,hc.socketId_threadAt hi'] at hsocket
  rw [MultiThreadConfig.Valid.socketOffset_threadAt hi,
    MultiThreadConfig.Valid.socketOffset_threadAt hi'] at hoffset
  exact ⟨hsocket,hoffset⟩

theorem flatten_threadWalkers {cfg : MultiThreadConfig} (hc : cfg.Valid) (m : Nat) :
    (threadWalkers cfg m).flatten =
      (List.range cfg.threadNum).map (fun t => threadWalker cfg m (localRange cfg t)) := by
  have hrows := length_threadWalkers_row cfg m
  have hnum := length_threadWalkers cfg m
  have hlen : ∀ rows : List (List (Nat × Nat)), (∀ row ∈ rows, row.length = cfg.socketThreadNum) →
      rows.flatten.length = rows.length * cfg.socketThreadNum := by
    intro rows h
    rw [List.length_flatten,List.map_congr_left h,List.map_const',List.sum_replicate,smul_eq_mul]
  have htotal : (threadWalkers cfg m).flatten.length = cfg.threadNum := by
    rw [hlen _ hrows,hnum,hc.threadNum_eq]
  refine List.ext_getElem (by rw [htotal,List.length_map,List.length_range]) (fun t h h' => ?_)
  have ht : t < cfg.threadNum := htotal ▸ h
  have hs : cfg.socketId t < (threadWalkers cfg m).length := hnum ▸ hc.socketId_lt ht
  have hi : cfg.socketOffset t < ((threadWalkers cfg m)[cfg.socketId t]).length := by
    rw [hrows _ (List.getElem_mem hs)]
    exact hc.socketOffset_lt t
  have hrow := getElem?_flatten_row (List.getElem?_eq_getElem hs) hi
  have hbefore : ((threadWalkers cfg m).take (cfg.socketId t)).flatten.length +
      cfg.socketOffset t = t := by
    rw [hlen _ (fun row hm => hrows row (List.mem_of_mem_take hm)),List.length_take,
      Nat.min_eq_left (Nat.le_of_lt hs)]
    exact cfg.threadAt_socket t
  rw [hbefore,List.getElem?_eq_getElem h,List.getElem?_eq_getElem hi] at hrow
  rw [Option.some.inj hrow,List.getElem_map,List.getElem_range,threadWalker,localRange,
    List.getD_eq_getElem _ _ hs,List.getD_eq_getElem _ _ hi]

namespace MessageManager
variable {cfg : MultiThreadConfig} (hc : cfg.Valid)
include hc

theorem init_ranged (maxEpochWalkerNum partitionNum : Nat) :
    Ranged cfg maxEpochWalkerNum (init cfg maxEpochWalkerNum partitionNum) := by
  have h := threadWalkers_tiles hc maxEpochWalkerNum
  rwa [flatten_threadWalkers hc] at h

variable {n active : Nat} {tasks : Tasks} (h : Ranged cfg n tasks)
include h

/-- The loop cuts the tasks of its socket: those it does not reach need no cut. -/
theorem clampSocket_apply {s : Nat} (hs : s < cfg.socketNum) {k : Nat}
    (hk : k ≤ cfg.socketThreadNum) (tasks' : Tasks)
    (hsame : ∀ i < k, tasks' (cfg.threadAt s i) = tasks (cfg.threadAt s i)) (t : Nat) :
    clampSocket cfg active s k tasks' t =
      if ∃ i < k, t = cfg.threadAt s i then (tasks' t).cut active else tasks' t := by
  induction k generalizing tasks' with
  | zero => simp [clampSocket]
  | succ k ih =>
    have hlt : ∀ i ≤ k, cfg.threadAt s i < cfg.threadNum :=
      fun i hi => hc.threadAt_lt hs (by omega)
    rw [clampSocket]
    by_cases hcut : active < (tasks' (cfg.threadAt s k)).originMessageEnd
    · rw [if_pos hcut,ih (by omega)]
      · by_cases ht : t = cfg.threadAt s k
        · subst ht
          have hnot : ¬ ∃ i < k, cfg.threadAt s k = cfg.threadAt s i := by
            rintro ⟨i,hi,he⟩
            have := (threadAt_inj (by omega) (by omega) hc he).2
            omega
          rw [if_neg hnot,if_pos ⟨k,Nat.lt_succ_self k,rfl⟩,Function.update_self,
            MessageTask.cut,Nat.min_eq_right (Nat.le_of_lt hcut)]
        · have hiff : (∃ i < k + 1, t = cfg.threadAt s i) ↔ ∃ i < k, t = cfg.threadAt s i := by
            constructor
            · rintro ⟨i,hi,he⟩
              rcases Nat.lt_or_eq_of_le (Nat.le_of_lt_succ hi) with hlt | rfl
              · exact ⟨i,hlt,he⟩
              · exact absurd he ht
            · rintro ⟨i,hi,he⟩
              exact ⟨i,Nat.lt_succ_of_lt hi,he⟩
          simp only [hiff,Function.update_of_ne ht]
      · intro i hi
        have hne : cfg.threadAt s i ≠ cfg.threadAt s k := by
          intro he
          have := (threadAt_inj (by omega) (by omega) hc he).2
          omega
        rw [Function.update_of_ne hne]
        exact hsame i (by omega)
    · rw [if_neg hcut]
      split_ifs with ht
      · obtain ⟨i,hi,rfl⟩ := ht
        have hbounds := h.bounds (hlt i (by omega))
        have hend : (tasks (cfg.threadAt s i)).originMessageEnd ≤ active := by
          have hlast := hsame k (Nat.lt_succ_self k)
          rw [hlast] at hcut
          rcases Nat.lt_or_eq_of_le (Nat.le_of_lt_succ hi) with hik | rfl
          · have hord : (tasks (cfg.threadAt s i)).originMessageEnd ≤
                (tasks (cfg.threadAt s k)).originMessageBegin :=
              h.ordered (Nat.add_lt_add_left hik _) (hlt k (Nat.le_refl k))
            have := (h.bounds (hlt k (Nat.le_refl k))).1
            omega
          · omega
        rw [hsame i hi,MessageTask.cut,Nat.min_eq_left (by omega),Nat.min_eq_left hend]
      · rfl

/-- The `CHECK` passes, and every task is cut off at the active messages. -/
theorem clamp_spec (hactive : active ≤ n) : ∃ tasks', clamp cfg active tasks = some tasks' ∧
    ∀ t < cfg.threadNum, tasks' t = (tasks t).cut active := by
  have hcheck : active ≤ (tasks (cfg.threadAt (cfg.socketNum - 1)
      (cfg.socketThreadNum - 1))).originMessageEnd := by
    have hsock := hc.sockets
    have hthreads := hc.socketThreadNum_pos
    have hlast := hc.threadAt_lt (s := cfg.socketNum - 1) (i := cfg.socketThreadNum - 1)
      (by omega) (by omega)
    have hnum : cfg.threadAt (cfg.socketNum - 1) (cfg.socketThreadNum - 1) + 1 =
        cfg.threadNum := by
      have hmul : (cfg.socketNum - 1 + 1) * cfg.socketThreadNum = cfg.threadNum := by
        rw [Nat.sub_add_cancel hsock,hc.threadNum_eq]
      rw [Nat.add_mul,Nat.one_mul] at hmul
      rw [MultiThreadConfig.threadAt]
      omega
    rcases Nat.eq_zero_or_pos active with rfl | hpos
    · exact Nat.zero_le _
    · obtain ⟨t,ht,hm⟩ := h.exists_task (m := active - 1) (by omega)
      have hb := (MessageTask.mem_range.mp hm).2
      rcases Nat.lt_or_eq_of_le (Nat.le_of_lt_succ (hnum ▸ ht)) with hlt | rfl
      · have hord := h.ordered hlt hlast
        have := (h.bounds hlast).1
        omega
      · omega
  refine ⟨_,if_pos hcheck,fun t ht => ?_⟩
  have hloop : ∀ k ≤ cfg.socketNum, ∀ t < cfg.threadNum, (List.range k).foldl
      (fun tasks s => clampSocket cfg active s cfg.socketThreadNum tasks) tasks t =
      if cfg.socketId t < k then (tasks t).cut active else tasks t := by
    intro k
    induction k with
    | zero => simp
    | succ k ih =>
      intro hk t ht
      have ih := ih (by omega)
      rw [List.range_succ,List.foldl_append,List.foldl_cons,List.foldl_nil,
        clampSocket_apply hc h hk (Nat.le_refl _)]
      · have hmem : (∃ i < cfg.socketThreadNum, t = cfg.threadAt k i) ↔ cfg.socketId t = k := by
          constructor
          · rintro ⟨i,hi,rfl⟩
            exact hc.socketId_threadAt hi
          · rintro rfl
            exact ⟨_,hc.socketOffset_lt t,(cfg.threadAt_socket t).symm⟩
        simp only [hmem,ih t ht]
        split_ifs with h1 h2 h3 h4
        all_goals first | rfl | omega
      · intro i hi
        rw [ih _ (hc.threadAt_lt hk hi),if_neg]
        rw [hc.socketId_threadAt hi]
        exact Nat.lt_irrefl k
  rw [hloop _ (Nat.le_refl _) t ht,if_pos (hc.socketId_lt ht)]

omit hc in
theorem cut_ranged (hactive : active ≤ n) {tasks' : Tasks}
    (hcut : ∀ t < cfg.threadNum, tasks' t = (tasks t).cut active) : Ranged cfg active tasks' := by
  have ht := h.cut active
  rw [Nat.zero_min,Nat.min_eq_right hactive,List.map_map] at ht
  rw [Ranged,List.map_congr_left (fun t ht => by rw [hcut t (List.mem_range.mp ht)])]
  exact ht

end MessageManager

end FlashMob.Message
