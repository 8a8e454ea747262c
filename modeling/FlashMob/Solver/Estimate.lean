import FlashMob.Types
import FlashMob.Lib.Rounding

namespace FlashMob.Solver
open Lib.Rounding

/-- The arguments of `estimate_epoch_walker`. -/
structure EstimateArgs where
  vertexNum : Nat
  edgeNum : Nat
  bufferEdgeNum : Nat
  walkerNum : Nat
  walkLen : Nat
  socketNum : Nat
  memQuota : Nat
  otherSize : Nat
  deriving DecidableEq, Repr

/-- What can end the program inside the estimate. -/
inductive Fault
  | checkFailed
  | zeroDivision
  deriving DecidableEq, Repr

def divide (n d : Nat) : Except Fault Nat := if d = 0 then .error .zeroDivision else .ok (n / d)

/-- An `int` has 32 bits, and a negative one is a large `size_t`. -/
def intToSize (n : Nat) : Nat := if u32 n < 2 ^ 31 then u32 n else u32 n + (2 ^ 64 - 2 ^ 32)

namespace EstimateArgs
variable (a : EstimateArgs)

def graphMemorySize : Nat :=
  u64 (sizeofAdjList * a.vertexNum * a.socketNum + sizeofAdjUnit * a.edgeNum)

def bufferMemorySize : Nat := u64 (sizeofVertexId * a.bufferEdgeNum)

/-- Two arrays of walk paths, the messages and the starting vertices. -/
def perWalkerCost : Nat := u64 (sizeofVertexId * intToSize (a.walkLen * 2 + 2 + 1))

def memoryNeeded : Nat := u64 (a.graphMemorySize + a.bufferMemorySize + a.otherSize)

def calMaxActiveWalkerNum (memorySize : Nat) : Except Fault Nat :=
  divide (u64Sub (u64Sub (u64Sub memorySize a.graphMemorySize) a.bufferMemorySize) a.otherSize)
    a.perWalkerCost

def calEpochNum (memorySize : Nat) : Except Fault Nat :=
  (a.calMaxActiveWalkerNum memorySize).bind (fun active =>
    let temp := min active a.walkerNum
    divide (u64Sub (u64 (a.walkerNum + temp)) 1) temp)

def calMaxEpochWalkerNum (memorySize : Nat) : Except Fault Nat :=
  (a.calEpochNum memorySize).bind (fun epochNum =>
    divide (u64Sub (u64 (a.walkerNum + epochNum)) 1) epochNum)

def walkerCap : Nat := 2 ^ 32 - 2

def estimateEpochWalker : Except Fault Nat :=
  if a.memoryNeeded < a.memQuota then
    (a.calMaxEpochWalkerNum a.memQuota).map (fun temp => min temp walkerCap)
  else .error .checkFailed

/-- The arguments are values of their 64-bit types. -/
structure Typed : Prop where
  walkerNum : a.walkerNum < 2 ^ 64
  memQuota : a.memQuota < 2 ^ 64
  otherSize : a.otherSize < 2 ^ 64

/-- The bytes of graph, buffers and other data without wrapping. -/
def memory : Nat :=
  sizeofAdjList * a.vertexNum * a.socketNum + sizeofAdjUnit * a.edgeNum +
    sizeofVertexId * a.bufferEdgeNum + a.otherSize

def spare : Nat := a.memQuota - a.memoryNeeded

/-- The walkers of a run that fit into the memory left at the same time. -/
def fitting : Nat := min (a.spare / a.perWalkerCost) a.walkerNum

/-- No sum of the estimate wraps. -/
structure NoWrap : Prop where
  memory : a.memory < 2 ^ 64
  epochNum : a.walkerNum + a.fitting ≤ 2 ^ 64
  balanced : a.walkerNum + a.walkerNum ⌈/⌉ a.fitting ≤ 2 ^ 64

variable {a}

theorem intToSize_mod_two (n : Nat) : intToSize n % 2 = n % 2 := by
  have h32 : u32 n % 2 = n % 2 := by
    simp only [u32]
    omega
  rw [intToSize]
  split_ifs <;> omega

/-- Paths and starting vertices take an odd number of words, so that their size is not a
multiple of 2^64. -/
theorem perWalkerCost_pos : 0 < a.perWalkerCost := by
  have h4 : sizeofVertexId = 4 := rfl
  have hodd := intToSize_mod_two (a.walkLen * 2 + 2 + 1)
  simp only [perWalkerCost,u64,h4]
  omega

theorem memoryNeeded_eq (a : EstimateArgs) : a.memoryNeeded = u64 a.memory := by
  simp only [memoryNeeded,graphMemorySize,bufferMemorySize,memory,u64]
  omega

theorem perWalkerCost_eq (h : a.walkLen * 2 + 2 + 1 < 2 ^ 31) :
    a.perWalkerCost = 8 * a.walkLen + 12 := by
  have h32 : u32 (a.walkLen * 2 + 2 + 1) = a.walkLen * 2 + 2 + 1 := u32_of_lt (by omega)
  have h4 : sizeofVertexId = 4 := rfl
  rw [perWalkerCost,intToSize,h32,if_pos h,h4,u64_of_lt (by omega)]
  omega

theorem NoWrap.memoryNeeded (h : a.NoWrap) : a.memoryNeeded = a.memory := by
  rw [memoryNeeded_eq,u64_of_lt h.memory]

theorem fitting_le : a.fitting ≤ a.walkerNum := Nat.min_le_right _ _

/-- Wrapping differences come out right where the check passes. -/
theorem calMaxActiveWalkerNum_eq (ht : a.Typed) (hcheck : a.memoryNeeded < a.memQuota) :
    a.calMaxActiveWalkerNum a.memQuota = .ok (a.spare / a.perWalkerCost) := by
  have hdiff : u64Sub (u64Sub (u64Sub a.memQuota a.graphMemorySize) a.bufferMemorySize)
      a.otherSize = a.spare := by
    have hquota := ht.memQuota
    simp only [spare,memoryNeeded,u64Sub,u64] at hcheck ⊢
    omega
  rw [calMaxActiveWalkerNum,hdiff,divide,if_neg (Nat.ne_of_gt perWalkerCost_pos)]

/-- Rounding up in 64 bits gives zero once the sum wraps. -/
theorem divide_roundUp {n d : Nat} (hn : n < 2 ^ 64) (hd : 0 < d) (hle : d ≤ n) :
    divide (u64Sub (u64 (n + d)) 1) d = .ok (if n + d ≤ 2 ^ 64 then n ⌈/⌉ d else 0) := by
  rw [divide,if_neg (Nat.ne_of_gt hd),u64Sub_u64 (by omega),Nat.ceilDiv_eq_add_pred_div]
  congr 1
  split_ifs with h
  · rw [u64_of_lt (by omega)]
  · rw [Nat.div_eq_zero_iff]
    right
    simp only [u64]
    omega

theorem calEpochNum_eq (ht : a.Typed) (hcheck : a.memoryNeeded < a.memQuota) :
    a.calEpochNum a.memQuota = if a.fitting = 0 then .error .zeroDivision
      else .ok (if a.walkerNum + a.fitting ≤ 2 ^ 64 then a.walkerNum ⌈/⌉ a.fitting else 0) := by
  rw [calEpochNum,calMaxActiveWalkerNum_eq ht hcheck]
  change divide (u64Sub (u64 (a.walkerNum + a.fitting)) 1) a.fitting = _
  split_ifs with h0 h
  · rw [divide,if_pos h0]
  · rw [divide_roundUp ht.walkerNum (Nat.pos_of_ne_zero h0) fitting_le,if_pos h]
  · rw [divide_roundUp ht.walkerNum (Nat.pos_of_ne_zero h0) fitting_le,if_neg h]

theorem estimateEpochWalker_le {r : Nat} (h : a.estimateEpochWalker = .ok r) : r ≤ walkerCap := by
  rw [estimateEpochWalker] at h
  split_ifs at h
  obtain ⟨temp,_,rfl⟩ : ∃ temp, a.calMaxEpochWalkerNum a.memQuota = .ok temp ∧
      min temp walkerCap = r := by
    cases hc : a.calMaxEpochWalkerNum a.memQuota with
    | error e =>
      rw [hc] at h
      cases h
    | ok temp =>
      rw [hc] at h
      exact ⟨temp,rfl,Except.ok.inj h⟩
  exact Nat.min_le_right _ _

theorem estimateEpochWalker_eq (ht : a.Typed) (hcheck : a.memoryNeeded < a.memQuota) :
    a.estimateEpochWalker =
      if 0 < a.fitting ∧ a.walkerNum + a.fitting ≤ 2 ^ 64 then
        .ok (min (if a.walkerNum + a.walkerNum ⌈/⌉ a.fitting ≤ 2 ^ 64
          then a.walkerNum ⌈/⌉ (a.walkerNum ⌈/⌉ a.fitting) else 0) walkerCap)
      else .error .zeroDivision := by
  rw [estimateEpochWalker,if_pos hcheck,calMaxEpochWalkerNum,calEpochNum_eq ht hcheck]
  by_cases h0 : a.fitting = 0
  · rw [if_pos h0,if_neg (by omega)]
    rfl
  have hpos := Nat.pos_of_ne_zero h0
  by_cases h : a.walkerNum + a.fitting ≤ 2 ^ 64
  · have hepochs : 0 < a.walkerNum ⌈/⌉ a.fitting :=
      ceilDiv_pos hpos (Nat.lt_of_lt_of_le hpos fitting_le)
    rw [if_neg h0,if_pos h,if_pos ⟨hpos,h⟩]
    change (divide _ _).map _ = _
    rw [divide_roundUp ht.walkerNum hepochs (ceilDiv_le_self hpos)]
    rfl
  · rw [if_neg h0,if_neg h,if_neg (fun hc => h hc.2)]
    rfl

/-- The estimate where nothing wraps and a walker fits. -/
theorem NoWrap.estimateEpochWalker_eq (h : a.NoWrap) (ht : a.Typed)
    (hcheck : a.memoryNeeded < a.memQuota) (hfits : 0 < a.fitting) :
    a.calMaxEpochWalkerNum a.memQuota = .ok (a.walkerNum ⌈/⌉ (a.walkerNum ⌈/⌉ a.fitting)) ∧
      a.estimateEpochWalker =
        .ok (min (a.walkerNum ⌈/⌉ (a.walkerNum ⌈/⌉ a.fitting)) walkerCap) := by
  have hepochs := ceilDiv_pos hfits (Nat.lt_of_lt_of_le hfits fitting_le)
  have huncapped : a.calMaxEpochWalkerNum a.memQuota =
      .ok (a.walkerNum ⌈/⌉ (a.walkerNum ⌈/⌉ a.fitting)) := by
    rw [calMaxEpochWalkerNum,calEpochNum_eq ht hcheck,if_neg (Nat.ne_of_gt hfits),
      if_pos h.epochNum]
    change divide _ _ = _
    rw [divide_roundUp ht.walkerNum hepochs (ceilDiv_le_self hfits),if_pos h.balanced]
  refine ⟨huncapped,?_⟩
  rw [estimateEpochWalker,if_pos hcheck,huncapped]
  rfl

theorem estimate_ok (ht : a.Typed) {n : Nat} (hn : a.estimateEpochWalker = .ok n) :
    a.memoryNeeded < a.memQuota ∧ 0 < a.fitting ∧
      n = min (if a.walkerNum + a.walkerNum ⌈/⌉ a.fitting ≤ 2 ^ 64
        then a.walkerNum ⌈/⌉ (a.walkerNum ⌈/⌉ a.fitting) else 0) walkerCap := by
  have hcheck : a.memoryNeeded < a.memQuota := by
    refine Nat.lt_of_not_le (fun h => ?_)
    rw [estimateEpochWalker,if_neg (Nat.not_lt.mpr h)] at hn
    cases hn
  rw [EstimateArgs.estimateEpochWalker_eq ht hcheck] at hn
  by_cases hpos : 0 < a.fitting ∧ a.walkerNum + a.fitting ≤ 2 ^ 64
  · rw [if_pos hpos] at hn
    exact ⟨hcheck,hpos.1,(Except.ok.inj hn).symm⟩
  · rw [if_neg hpos] at hn
    cases hn

/-- How far the estimate goes, by the number of epochs that it plans. -/
theorem estimate_le_iff (ht : a.Typed) {n : Nat} (hn : a.estimateEpochWalker = .ok n) (m : Nat) :
    n ≤ m ↔ 2 ^ 64 < a.walkerNum + a.walkerNum ⌈/⌉ a.fitting ∨ walkerCap ≤ m ∨
      a.walkerNum ≤ m * (a.walkerNum ⌈/⌉ a.fitting) := by
  obtain ⟨_,hpos,rfl⟩ := estimate_ok ht hn
  have hepochs : 0 < a.walkerNum ⌈/⌉ a.fitting :=
    ceilDiv_pos hpos (Nat.lt_of_lt_of_le hpos fitting_le)
  rw [Nat.mul_comm m,← ceilDiv_le_iff hepochs]
  split_ifs with hwrap
  · rw [min_le_iff]
    omega
  · simp only [Nat.zero_le,inf_of_le_left,true_iff]
    omega

/-- What fewer walkers meet too is met by the estimate exactly when it is met by every even epoch
whose walkers are planned to fit. -/
theorem estimate_meets_iff (ht : a.Typed) {n : Nat} (hn : a.estimateEpochWalker = .ok n)
    {P : Nat → Prop} (hmono : ∀ {k m : Nat}, k ≤ m → P m → P k) :
    P n ↔ P walkerCap ∨ P 0 ∧ ∀ epochs, 0 < epochs → a.walkerNum + epochs ≤ 2 ^ 64 →
      a.memoryNeeded + a.perWalkerCost * (a.walkerNum ⌈/⌉ epochs) ≤ a.memQuota →
      P (a.walkerNum ⌈/⌉ epochs) := by
  obtain ⟨hcheck,hpos,hresult⟩ := estimate_ok ht hn
  have hsome : 0 < a.walkerNum := Nat.lt_of_lt_of_le hpos fitting_le
  have hplanned : ∀ m, a.memoryNeeded + a.perWalkerCost * m ≤ a.memQuota ↔
      m ≤ a.spare / a.perWalkerCost := by
    intro m
    rw [Nat.le_div_iff_mul_le perWalkerCost_pos,Nat.mul_comm m,spare]
    omega
  constructor
  · intro h
    by_cases hcap : P walkerCap
    · exact .inl hcap
    refine .inr ⟨hmono (Nat.zero_le n) h,fun epochs hepochs hroom hplan => ?_⟩
    -- The estimate plans no more epochs, so that its epochs are not smaller.
    have hsize := ceilDiv_pos hepochs hsome
    have hfit : a.walkerNum ⌈/⌉ epochs ≤ a.fitting :=
      Nat.le_min.mpr ⟨(hplanned _).mp hplan,ceilDiv_le_self hepochs⟩
    have hfewer : a.walkerNum ⌈/⌉ a.fitting ≤ epochs := (ceilDiv_le_comm hpos hepochs).mpr hfit
    rw [if_pos (by omega)] at hresult
    refine hmono (ceilDiv_antitone (ceilDiv_pos hpos hsome) hfewer) ?_
    rcases Nat.le_total (a.walkerNum ⌈/⌉ (a.walkerNum ⌈/⌉ a.fitting)) walkerCap with hle | hge
    · rwa [hresult,Nat.min_eq_left hle] at h
    · rw [hresult,Nat.min_eq_right hge] at h
      exact absurd h hcap
  · rintro (hcap | ⟨hzero,hall⟩)
    · exact hmono (estimateEpochWalker_le hn) hcap
    · split_ifs at hresult with hroom
      · refine hmono (hresult ▸ Nat.min_le_left _ _) (hall _ (ceilDiv_pos hpos hsome) hroom ?_)
        exact (hplanned _).mpr (Nat.le_trans (ceilDiv_ceilDiv_le hpos hsome) (Nat.min_le_left _ _))
      · rwa [hresult,Nat.zero_min]

/-- Less other memory and the same walkers: the check passes again, and no fewer walkers fit
into an epoch. -/
theorem estimateEpochWalker_mono {b : EstimateArgs} (ha : a.NoWrap) (hb : b.NoWrap)
    (hta : a.Typed) (htb : b.Typed) (hwalkers : b.walkerNum = a.walkerNum)
    (hlen : b.walkLen = a.walkLen) (hquota : b.memQuota = a.memQuota) (hle : b.memory ≤ a.memory)
    {n : Nat} (hn : a.estimateEpochWalker = .ok n) :
    ∃ n', b.estimateEpochWalker = .ok n' ∧ n ≤ n' := by
  have hcost : b.perWalkerCost = a.perWalkerCost := by rw [perWalkerCost,hlen]; rfl
  obtain ⟨hcheck,hpos,_⟩ := estimate_ok hta hn
  have hneeded : b.memoryNeeded ≤ a.memoryNeeded := by rwa [hb.memoryNeeded,ha.memoryNeeded]
  have hfit : a.fitting ≤ b.fitting := by
    rw [fitting,fitting,spare,spare,hquota,hwalkers,hcost]
    exact min_le_min_right _ (Nat.div_le_div_right (Nat.sub_le_sub_left hneeded _))
  have hposb := Nat.lt_of_lt_of_le hpos hfit
  rw [(ha.estimateEpochWalker_eq hta hcheck hpos).2] at hn
  cases hn
  refine ⟨_,(hb.estimateEpochWalker_eq htb (by omega) hposb).2,min_le_min_right _ ?_⟩
  rw [hwalkers]
  -- More room makes fewer epochs, and fewer epochs are larger.
  have hw := Nat.lt_of_lt_of_le hpos (fitting_le (a := a))
  exact ceilDiv_antitone (ceilDiv_pos hposb hw) (ceilDiv_antitone hpos hfit)

end EstimateArgs

end FlashMob.Solver
