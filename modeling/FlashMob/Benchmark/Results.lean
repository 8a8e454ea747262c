import FlashMob.Benchmark.Once
import FlashMob.Partition.Plans

namespace FlashMob.Benchmark
open Floating FlashMob.Graph FlashMob.Partition Lib.Keyed Lib.Runs

section
variable {D : Type}

/-- The last loop of `mini_benchmark`: larger partitions take over the results of the largest ones
that are measured. -/
def BmkArgs.copyUp (args : BmkArgs D) (results : MiniBMKCatMap D) : MiniBMKCatMap D :=
  (List.range' (args.internalMaxPtBit + 1)
      (args.maxPartitionVertexBit - args.internalMaxPtBit)).foldl
    (fun results bits => Function.update results bits (results args.internalMaxPtBit)) results

/-- What `mini_benchmark` leaves in `results`, which was empty. -/
def BmkArgs.results (args : BmkArgs D) (m : MiniBMKCatManager D) : MiniBMKCatMap D :=
  args.copyUp (m.getCatalogue (fun _ => []))

variable {args : BmkArgs D} {m : MiniBMKCatManager D}

theorem copyUp_apply (results : MiniBMKCatMap D) (bits : Nat) :
    args.copyUp results bits =
      if args.internalMaxPtBit < bits ∧ bits ≤ args.maxPartitionVertexBit then
        results args.internalMaxPtBit
      else results bits := by
  have hloop : ∀ n bits, (List.range' (args.internalMaxPtBit + 1) n).foldl
      (fun results bits => Function.update results bits (results args.internalMaxPtBit)) results
        bits =
      if args.internalMaxPtBit < bits ∧ bits ≤ args.internalMaxPtBit + n then
        results args.internalMaxPtBit
      else results bits := by
    intro n
    induction n with
    | zero =>
      intro bits
      rw [if_neg (by omega)]
      rfl
    | succ n ih =>
      intro bits
      rw [List.range'_1_concat,List.foldl_append,List.foldl_cons,List.foldl_nil,ih,
        if_neg (by omega)]
      by_cases hb : bits = args.internalMaxPtBit + 1 + n
      · rw [hb,Function.update_self,if_pos (by omega)]
      · rw [Function.update_of_ne hb,ih]
        exact if_congr (by omega) rfl rfl
  have hle : args.internalMaxPtBit ≤ args.maxPartitionVertexBit := Nat.min_le_left _ _
  rw [BmkArgs.copyUp,hloop,Nat.add_sub_cancel' hle]

/-- The catalogue lists, under each size and degree, the methods in the order of their classes. -/
theorem getCatalogue_spec (m : MiniBMKCatManager D) : ∀ bits,
    Grouped (m.getCatalogue (fun _ => []) bits) ∧
    ∀ degree, valuesAt degree (m.getCatalogue (fun _ => []) bits) =
      (m.catSet.items.filter (fun y => y.partitionBits = bits ∧ y.degree = degree)).map
        MiniBMKItem.estimation := by
  have hloop : ∀ items : List (MiniBMKItem D), ∀ bits,
      Grouped (items.foldl MiniBMKCatManager.catalogueStep (fun _ => []) bits) ∧
      ∀ degree, valuesAt degree
          (items.foldl MiniBMKCatManager.catalogueStep (fun _ => []) bits) =
        (items.filter (fun y => y.partitionBits = bits ∧ y.degree = degree)).map
          MiniBMKItem.estimation := by
    intro items
    induction items using List.reverseRecOn with
    | nil => exact fun _ => ⟨Grouped.nil,fun _ => rfl⟩
    | append_singleton items item ih =>
      intro bits
      obtain ⟨hgrouped,hvalues⟩ := ih bits
      rw [List.foldl_append,List.foldl_cons,List.foldl_nil,MiniBMKCatManager.catalogueStep]
      by_cases hb : bits = item.partitionBits
      · subst hb
        rw [Function.update_self]
        refine ⟨hgrouped.pushBack _ _,fun degree => ?_⟩
        rw [valuesAt_pushBack hgrouped.sorted,hvalues,List.filter_append,List.map_append]
        by_cases hd : item.degree = degree <;> simp [hd]
      · rw [Function.update_of_ne hb]
        refine ⟨hgrouped,fun degree => ?_⟩
        have hb' : item.partitionBits ≠ bits := fun h => hb h.symm
        rw [hvalues,List.filter_append,List.map_append]
        simp [hb']
  exact hloop m.catSet.items

theorem mem_getCatalogue {bits : Nat} {e : Nat × List (SampleEstimation D)} :
    e ∈ m.getCatalogue (fun _ => []) bits ↔
      (m.catSet.items.filter (fun y => y.partitionBits = bits ∧ y.degree = e.1)).map
        MiniBMKItem.estimation = e.2 ∧ e.2 ≠ [] := by
  obtain ⟨hgrouped,hvalues⟩ := getCatalogue_spec m bits
  rw [hgrouped.mem_iff,hvalues]

theorem getCatalogue_item {bits : Nat} {e : Nat × List (SampleEstimation D)}
    (he : e ∈ m.getCatalogue (fun _ => []) bits) : ∀ est ∈ e.2, ∃ y ∈ m.catSet.items,
      y.partitionBits = bits ∧ y.degree = e.1 ∧ y.estimation = est := by
  obtain ⟨hvalues,_⟩ := mem_getCatalogue.mp he
  intro est hest
  rw [← hvalues] at hest
  obtain ⟨y,hy,rfl⟩ := List.mem_map.mp hest
  obtain ⟨hmem,hfilter⟩ := List.mem_filter.mp hy
  obtain ⟨hbits,hdegree⟩ := of_decide_eq_true hfilter
  exact ⟨y,hmem,hbits,hdegree,rfl⟩

theorem exists_getCatalogue {y : MiniBMKItem D} (hy : y ∈ m.catSet.items) :
    ∃ e ∈ m.getCatalogue (fun _ => []) y.partitionBits, e.1 = y.degree ∧ y.estimation ∈ e.2 := by
  have hmem : y.estimation ∈ (m.catSet.items.filter (fun z =>
      z.partitionBits = y.partitionBits ∧ z.degree = y.degree)).map MiniBMKItem.estimation :=
    List.mem_map.mpr ⟨y,List.mem_filter.mpr ⟨hy,by simp⟩,rfl⟩
  exact ⟨(y.degree,_),mem_getCatalogue.mpr ⟨rfl,List.ne_nil_of_mem hmem⟩,rfl,hmem⟩

theorem results_eq (args : BmkArgs D) (m : MiniBMKCatManager D) (bits : Nat) :
    ∃ bits', args.results m bits = m.getCatalogue (fun _ => []) bits' := by
  rw [BmkArgs.results,copyUp_apply]
  split_ifs
  · exact ⟨_,rfl⟩
  · exact ⟨_,rfl⟩

/-- The size whose measurements a size is looked up with. -/
def BmkArgs.measuredBits (args : BmkArgs D) (bits : Nat) : Nat := min bits args.internalMaxPtBit

theorem results_of_le (m : MiniBMKCatManager D) {bits : Nat}
    (hbits : bits ≤ args.maxPartitionVertexBit) :
    args.results m bits = m.getCatalogue (fun _ => []) (args.measuredBits bits) := by
  rw [BmkArgs.results,copyUp_apply,BmkArgs.measuredBits]
  split_ifs with h
  · rw [Nat.min_eq_right (Nat.le_of_lt h.1)]
  · rw [Nat.min_eq_left (by omega)]

theorem results_coarsest (args : BmkArgs D) (m : MiniBMKCatManager D) :
    args.results m args.maxPartitionVertexBit =
      m.getCatalogue (fun _ => []) args.internalMaxPtBit := by
  have hle : args.internalMaxPtBit ≤ args.maxPartitionVertexBit := Nat.min_le_left _ _
  rw [results_of_le m (Nat.le_refl _),BmkArgs.measuredBits,Nat.min_eq_right hle]

end

section
variable {D : Type} [Floating D]

/-- An item that the program can have measured. -/
structure MiniBMKItem.Sound (item : MiniBMKItem D) : Prop where
  degree : 1 ≤ item.degree
  time : le (ofNat 0) item.stepTime = true

/-- A class and a degree that are measured for partitions of a size. -/
def BmkArgs.Wanted (args : BmkArgs D) (bits degree : Nat) (samplerClass : SamplerClass) : Prop :=
  degree ∈ args.testDegrees ∧
  (args.minPartitionVertexBit ≤ bits ∧ bits ≤ args.internalMaxPtBit) ∧
  args.admissible bits degree = true ∧
  (samplerClass = .classUniformDegreeDirectSampler ∨
    samplerClass = .classExclusiveBufferSampler ∧ 4 < degree)

variable {args : BmkArgs D} {m : MiniBMKCatManager D}

omit [Floating D] in
theorem BmkTask.key_inj {task task' : BmkTask} {d d' : Nat} :
    task.key d = task'.key d' ↔ task = task' ∧ d = d' := by
  obtain ⟨bits,sc⟩ := task
  obtain ⟨bits',sc'⟩ := task'
  rw [BmkTask.key,BmkTask.key,toLex_inj,Prod.mk.injEq,toLex_inj,Prod.mk.injEq,
    SamplerClass.code_injective.eq_iff,BmkTask.mk.injEq]
  tauto

theorem mem_region_keys {task : BmkTask} {degree : Nat} :
    task.key degree ∈ (args.region m).keys ↔
      args.Wanted task.ptnBits degree task.sclass ∧ m.catSet.has (task.key degree) = false := by
  rw [BmkRegion.keys,BmkRegion.keysOf,List.mem_flatMap]
  constructor
  · rintro ⟨d,hd,hk⟩
    obtain ⟨task',htask,hkey⟩ := List.mem_map.mp hk
    obtain ⟨rfl,rfl⟩ := BmkTask.key_inj.mp hkey
    obtain ⟨hbits,hadm,hclass,hnew⟩ := BmkArgs.mem_bmkTasks.mp htask
    exact ⟨⟨hd,hbits,hadm,hclass⟩,hnew⟩
  · rintro ⟨⟨hd,hbits,hadm,hclass⟩,hnew⟩
    exact ⟨degree,hd,List.mem_map.mpr
      ⟨task,BmkArgs.mem_bmkTasks.mpr ⟨hbits,hadm,hclass,hnew⟩,rfl⟩⟩

theorem exists_task_of_mem_keys {k : ℕ ×ₗ ℕ ×ₗ ℕ} (hk : k ∈ (args.region m).keys) :
    ∃ (task : BmkTask) (degree : Nat), k = task.key degree := by
  obtain ⟨d,_,hk⟩ := List.mem_flatMap.mp hk
  obtain ⟨task,_,rfl⟩ := List.mem_map.mp hk
  exact ⟨task,d,rfl⟩

theorem testDegrees_length_le (args : BmkArgs D) : args.testDegrees.length ≤ args.maxDegree := by
  have hloop : ∀ fuel d, (degreesFrom D args.maxDegree fuel d).length ≤ fuel := by
    intro fuel
    induction fuel with
    | zero => exact fun _ => Nat.le_refl _
    | succ fuel ih =>
      intro d
      rw [degreesFrom]
      split_ifs
      · exact Nat.succ_le_succ (ih _)
      · exact Nat.zero_le _
  exact hloop _ _

/-- The tasks of a region are distinct, and none has been measured before. -/
theorem region_fresh (hroom : args.maxDegree + args.threadNum + 1 < 2 ^ 32) :
    (args.region m).Fresh m := by
  refine ⟨?_,?_,fun k hk => ?_⟩
  · have hle := testDegrees_length_le args
    change args.testDegrees.length + args.threadNum < _
    omega
  · refine List.nodup_flatMap.mpr ⟨fun d _ => ?_,?_⟩
    · exact List.Nodup.map (fun _ _ h => (BmkTask.key_inj.mp h).1) BmkArgs.bmkTasks_nodup
    · refine (BmkArgs.testDegrees_sorted (by omega) : args.testDegrees.Pairwise (· < ·)).imp (fun {a b} hab k ha hb => ?_)
      obtain ⟨_,_,rfl⟩ := List.mem_map.mp ha
      obtain ⟨_,_,hk⟩ := List.mem_map.mp hb
      exact absurd (BmkTask.key_inj.mp hk).2 (Nat.ne_of_gt hab)
  · obtain ⟨task,degree,rfl⟩ := exists_task_of_mem_keys hk
    exact (mem_region_keys.mp hk).2

/-- A call of `mini_benchmark`: the items that were entered and the manager at the end. Without
tasks nothing runs. -/
inductive Benchmarked (args : BmkArgs D) (m : MiniBMKCatManager D) :
    List (MiniBMKItem D) → MiniBMKCatManager D → Prop
  | skip (hnone : ∀ d ∈ args.testDegrees, args.bmkTasks m d = []) : Benchmarked args m [] m
  | region {tr : List (MiniBMKItem D)} {st : BmkState D}
      (hsome : ∃ d ∈ args.testDegrees, args.bmkTasks m d ≠ [])
      (hr : Run (BmkStep (args.region m)) (BmkState.entry m) tr st)
      (hl : st.AllLeft (args.region m)) : Benchmarked args m tr st.catManager

/-- A call of `mini_benchmark` can be completed with times of any kind, when 32 bits count the
walkers of a thread. -/
theorem exists_benchmarked (args : BmkArgs D) (m : MiniBMKCatManager D) {P : D → Prop} (time : D)
    (hP : P time) (hroom : args.maxDegree + args.threadNum + 1 < 2 ^ 32)
    (hfill : args.maxThreadWalkerNum < 2 ^ 32) :
    ∃ tr m', Benchmarked args m tr m' ∧ ∀ y ∈ tr, P y.stepTime := by
  by_cases hsome : ∃ d ∈ args.testDegrees, args.bmkTasks m d ≠ []
  · obtain ⟨tr,st,hr,hl,htimes⟩ :=
      exists_bmk_run time hP (region_fresh hroom : (args.region m).Fresh m) hfill
    exact ⟨tr,st.catManager,.region hsome hr hl,htimes⟩
  · refine ⟨[],m,.skip (fun d hd => ?_),fun y hy => absurd hy List.not_mem_nil⟩
    by_contra hne
    exact hsome ⟨d,hd,hne⟩

/-- Otherwise a call comes to an end only if there is nothing to measure. -/
theorem exists_benchmarked_iff (args : BmkArgs D) (m : MiniBMKCatManager D)
    (hroom : args.maxDegree + args.threadNum + 1 < 2 ^ 32) (hthreads : 0 < args.threadNum) :
    (∃ tr m', Benchmarked args m tr m') ↔
      (∀ d ∈ args.testDegrees, args.bmkTasks m d = []) ∨ args.maxThreadWalkerNum < 2 ^ 32 := by
  constructor
  · rintro ⟨tr,m',hnone | ⟨_,hr,hl⟩⟩
    · exact .inl hnone
    · by_contra hnot
      exact (run_endless (Nat.le_of_not_lt (not_or.mp hnot).2) hr).2.not_allLeft hthreads hl
  · rintro (hnone | hfill)
    · exact ⟨[],m,.skip hnone⟩
    · obtain ⟨tr,m',hb,_⟩ := exists_benchmarked args m (P := fun _ => True) (ofNat 0) trivial hroom
        hfill
      exact ⟨tr,m',hb⟩

/-- What a call of `mini_benchmark` does to the catalogue. -/
theorem Benchmarked.entered {tr : List (MiniBMKItem D)} {m' : MiniBMKCatManager D}
    (h : Benchmarked args m tr m') (hroom : args.maxDegree + args.threadNum + 1 < 2 ^ 32)
    (hthreads : 0 < args.threadNum) :
    (tr.map MiniBMKItem.key).Perm (args.region m).keys ∧
    (∀ y, y ∈ m'.catSet.items ↔ y ∈ m.catSet.items ∨ y ∈ tr) ∧
    m'.newItemNum = m.newItemNum + tr.length := by
  cases h with
  | skip hnone =>
    have hkeys : (args.region m).keys = [] :=
      List.flatMap_eq_nil_iff.mpr (fun d hd => by
        change (args.bmkTasks m d).map _ = []
        rw [hnone d hd,List.map_nil])
    exact ⟨by rw [hkeys]; exact .refl _,fun y => (or_iff_left List.not_mem_nil).symm,rfl⟩
  | region hsome hr hl =>
    have hholds := run_bmkHolds (region_fresh hroom).room hr
    exact ⟨hholds.entered_perm hthreads hl,hholds.entered.items,hholds.entered.newItemNum⟩

end

end FlashMob.Benchmark
