import FlashMob.Benchmark.Catalogue

namespace FlashMob.Benchmark
open Floating FlashMob.Partition Lib.Keyed

/-- The arguments of `mini_benchmark`. -/
structure BmkArgs (D : Type) where
  walkerPerEdge : D
  maxDegree : Nat
  minPartitionVertexBit : Nat
  maxPartitionVertexBit : Nat
  threadNum : Nat

structure BmkTask where
  ptnBits : Nat
  sclass : SamplerClass
  deriving DecidableEq

/-- What orders the item of a task. -/
def BmkTask.key (task : BmkTask) (degree : Nat) : ℕ ×ₗ ℕ ×ₗ ℕ :=
  toLex (task.ptnBits,toLex (degree,task.sclass.code))

def threadEdgeNum : Nat := 2 ^ 24

section
variable {D : Type} [Floating D]

/-- The degree after `d`: `d * 1.05`, but more than `d`. -/
def nextDegree (D : Type) [Floating D] (d : Nat) : Nat :=
  max (u32 (d + 1)) (u32 (toNat (mul (ofNat d) (div (ofNat 105) (ofNat 100)) : D)))

/-- The loop that collects the degrees, for at most `fuel` of them. -/
def degreesFrom (D : Type) [Floating D] (maxDegree : Nat) : Nat → Nat → List Nat
  | 0, _ => []
  | fuel+1, d =>
    if d ≤ maxDegree then d :: degreesFrom D maxDegree fuel (nextDegree D d) else []

namespace BmkArgs
variable (args : BmkArgs D)

/-- `test_degrees`. The degrees grow, so that there are no more of them than the largest one. -/
def testDegrees : List Nat := degreesFrom D args.maxDegree args.maxDegree 1

omit [Floating D] in
def internalMaxPtBit : Nat := min args.maxPartitionVertexBit (max 20 args.minPartitionVertexBit)

def maxThreadWalkerNum : Nat := u64 (toNat (mul (ofNat threadEdgeNum) args.walkerPerEdge))

/-- `partition_walker_num`. -/
def partitionWalkerNum (bits degree : Nat) : Nat :=
  u64 (toNat (mul (ofNat (u32 (2 ^ bits) * degree)) args.walkerPerEdge))

/-- Whether partitions of a size and a degree are measured at all. -/
def admissible (bits degree : Nat) : Bool :=
  !(decide (threadEdgeNum < u32 (2 ^ bits) * degree) ||
    lt (ofNat args.maxThreadWalkerNum)
      (mul (ofNat (u32 (2 ^ bits) * degree)) args.walkerPerEdge)) &&
  !decide (args.partitionWalkerNum bits degree < 1)

omit [Floating D] in
/-- The tasks for one size of the partitions: what is not in the catalogue. -/
def missing (m : MiniBMKCatManager D) (bits degree : Nat) : List BmkTask :=
  (if m.hasItem bits degree .classUniformDegreeDirectSampler then []
    else [⟨bits,.classUniformDegreeDirectSampler⟩]) ++
  (if 4 < degree ∧ m.hasItem bits degree .classExclusiveBufferSampler = false then
    [⟨bits,.classExclusiveBufferSampler⟩] else [])

/-- `bmk_tasks`; a degree without tasks has no entry. -/
def bmkTasks (m : MiniBMKCatManager D) (degree : Nat) : List BmkTask :=
  (List.range' args.minPartitionVertexBit
      (args.internalMaxPtBit + 1 - args.minPartitionVertexBit)).flatMap (fun bits =>
    if args.admissible bits degree then missing m bits degree else [])

end BmkArgs

section
variable {maxDegree fuel d e : Nat}

theorem lt_nextDegree (D : Type) [Floating D] (hd : d + 1 < 2 ^ 32) : d < nextDegree D d :=
  lt_max_of_lt_left (by rw [u32_of_lt hd]; exact Nat.lt_succ_self d)

theorem degreesFrom_bounds (hmax : maxDegree + 1 < 2 ^ 32)
    (he : e ∈ degreesFrom D maxDegree fuel d) : d ≤ e ∧ e ≤ maxDegree := by
  induction fuel generalizing d with
  | zero => cases he
  | succ fuel ih =>
    rw [degreesFrom] at he
    split_ifs at he with hd
    · rcases List.mem_cons.mp he with rfl | he
      · exact ⟨Nat.le_refl _,hd⟩
      · have hnext := lt_nextDegree D (d := d) (by omega)
        obtain ⟨hlo,hhi⟩ := ih he
        exact ⟨by omega,hhi⟩
    · cases he

/-- The degrees are tested in growing order, each one once. -/
theorem degreesFrom_sorted (hmax : maxDegree + 1 < 2 ^ 32) :
    (degreesFrom D maxDegree fuel d).Pairwise (· < ·) := by
  induction fuel generalizing d with
  | zero => exact List.Pairwise.nil
  | succ fuel ih =>
    rw [degreesFrom]
    split_ifs with hd
    · refine List.pairwise_cons.mpr ⟨fun e he => ?_,ih⟩
      have hnext := lt_nextDegree D (d := d) (by omega)
      exact Nat.lt_of_lt_of_le hnext (degreesFrom_bounds hmax he).1
    · exact List.Pairwise.nil

end

namespace BmkArgs
variable {args : BmkArgs D} {m : MiniBMKCatManager D} {degree bits : Nat} {task : BmkTask}

theorem testDegrees_sorted (hmax : args.maxDegree + 1 < 2 ^ 32) :
    args.testDegrees.Pairwise (· < ·) := degreesFrom_sorted hmax

theorem testDegrees_bounds (hmax : args.maxDegree + 1 < 2 ^ 32) (h : degree ∈ args.testDegrees) :
    1 ≤ degree ∧ degree ≤ args.maxDegree := degreesFrom_bounds hmax h

omit [Floating D] in
theorem mem_missing : task ∈ missing m bits degree ↔ task.ptnBits = bits ∧
    (task.sclass = .classUniformDegreeDirectSampler ∨
      task.sclass = .classExclusiveBufferSampler ∧ 4 < degree) ∧
    m.catSet.has (task.key degree) = false := by
  obtain ⟨ptnBits,sclass⟩ := task
  rw [missing,List.mem_append,List.mem_ite_nil_left,List.mem_ite_nil_right,List.mem_singleton,
    List.mem_singleton,BmkTask.mk.injEq,BmkTask.mk.injEq,Bool.not_eq_true]
  constructor
  · rintro (⟨hnew,rfl,rfl⟩ | ⟨⟨hdeg,hnew⟩,rfl,rfl⟩)
    · exact ⟨rfl,Or.inl rfl,hnew⟩
    · exact ⟨rfl,Or.inr ⟨rfl,hdeg⟩,hnew⟩
  · rintro ⟨rfl,rfl | ⟨rfl,hdeg⟩,hnew⟩
    · exact Or.inl ⟨hnew,rfl,rfl⟩
    · exact Or.inr ⟨⟨hdeg,hnew⟩,rfl,rfl⟩

theorem mem_bmkTasks : task ∈ args.bmkTasks m degree ↔
    (args.minPartitionVertexBit ≤ task.ptnBits ∧ task.ptnBits ≤ args.internalMaxPtBit) ∧
    args.admissible task.ptnBits degree = true ∧
    (task.sclass = .classUniformDegreeDirectSampler ∨
      task.sclass = .classExclusiveBufferSampler ∧ 4 < degree) ∧
    m.catSet.has (task.key degree) = false := by
  rw [bmkTasks,List.mem_flatMap]
  constructor
  · rintro ⟨bits,hbits,htask⟩
    obtain ⟨hadm,hmiss⟩ := List.mem_ite_nil_right.mp htask
    obtain ⟨rfl,hclass,hnew⟩ := mem_missing.mp hmiss
    have hrange := List.mem_range'_1.mp hbits
    exact ⟨⟨hrange.1,by omega⟩,hadm,hclass,hnew⟩
  · rintro ⟨⟨hlo,hhi⟩,hadm,hclass,hnew⟩
    exact ⟨_,List.mem_range'_1.mpr ⟨hlo,by omega⟩,
      List.mem_ite_nil_right.mpr ⟨hadm,mem_missing.mpr ⟨rfl,hclass,hnew⟩⟩⟩

omit [Floating D] in
theorem missing_nodup : (missing m bits degree).Nodup := by
  refine List.Nodup.append ?_ ?_ (fun t h h' => ?_)
  · split_ifs
    · exact List.nodup_nil
    · exact List.nodup_singleton _
  · split_ifs
    · exact List.nodup_singleton _
    · exact List.nodup_nil
  · obtain ⟨_,ht⟩ := List.mem_ite_nil_left.mp h
    obtain ⟨_,ht'⟩ := List.mem_ite_nil_right.mp h'
    rw [List.mem_singleton.mp ht,List.mem_singleton,BmkTask.mk.injEq] at ht'
    cases ht'.2

theorem bmkTasks_nodup : (args.bmkTasks m degree).Nodup := by
  refine List.nodup_flatMap.mpr ⟨fun bits _ => ?_,?_⟩
  · split_ifs
    · exact missing_nodup
    · exact List.nodup_nil
  · refine List.Pairwise.imp (fun {a b} hab t hta htb => hab ?_)
        (List.nodup_range' : (List.range' args.minPartitionVertexBit _).Nodup)
    obtain ⟨_,ha⟩ := List.mem_ite_nil_right.mp hta
    obtain ⟨_,hb⟩ := List.mem_ite_nil_right.mp htb
    rw [← (mem_missing.mp ha).1,← (mem_missing.mp hb).1]

end BmkArgs

end

end FlashMob.Benchmark
