import FlashMob.Solver.Estimate

namespace FlashMob.Solver
open Lib.Rounding

/-- The loop of `prepare` over the epochs, from walker `w` on. -/
def prepareEpochs (maxEpochWalkerNum walkerNum : Nat) : Nat → Nat → Option (List Nat)
  | 0, w => if w < walkerNum then none else some []
  | fuel+1, w =>
    if w < walkerNum then
      let epochWalkerNum := min maxEpochWalkerNum (walkerNum - w)
      (prepareEpochs maxEpochWalkerNum walkerNum fuel (w + epochWalkerNum)).map
        (fun sizes => epochWalkerNum :: sizes)
    else some []

/-- The counters of the solver and, in `counted`, that of `walk`. -/
structure Progress where
  restWalkerNum : Nat
  terminatedWalkerNum : Nat
  counted : Nat

/-- The counters after an epoch, unless one of its checks fails. -/
def walkEpoch (maxEpochWalkerNum : Nat) (st : Progress) : Option Progress :=
  let epochWalkerNum := u32 (min maxEpochWalkerNum st.restWalkerNum)
  if maxEpochWalkerNum < epochWalkerNum ∨ st.restWalkerNum < epochWalkerNum then none
  else some ⟨u64Sub st.restWalkerNum epochWalkerNum, u64 (st.terminatedWalkerNum + epochWalkerNum),
    u64 (st.counted + epochWalkerNum)⟩

def walkEpochs (maxEpochWalkerNum : Nat) : Nat → Progress → Option Progress
  | 0, st => if st.restWalkerNum ≠ 0 then none else some st
  | fuel+1, st =>
    if st.restWalkerNum ≠ 0 then
      (walkEpoch maxEpochWalkerNum st).bind (walkEpochs maxEpochWalkerNum fuel)
    else some st

/-- `walk`, with its check that all walkers have terminated. -/
def walk (maxEpochWalkerNum walkerNum fuel : Nat) : Option Progress :=
  (walkEpochs maxEpochWalkerNum fuel ⟨walkerNum,0,0⟩).bind (fun st =>
    if st.counted = walkerNum then some st else none)

theorem u64Sub_of_le {a b : Nat} (hle : b ≤ a) (ha : a < 2 ^ 64) : u64Sub a b = a - b := by
  simp only [u64Sub,u64]
  omega

section
variable {r : Nat} (hpos : 0 < r) (hcap : r ≤ EstimateArgs.walkerCap)
include hpos hcap

omit hpos in
theorem walkEpoch_eq {st : Progress}
    (ht : st.restWalkerNum + st.terminatedWalkerNum < 2 ^ 64)
    (hc : st.restWalkerNum + st.counted < 2 ^ 64) : walkEpoch r st =
      some ⟨st.restWalkerNum - min r st.restWalkerNum,
        st.terminatedWalkerNum + min r st.restWalkerNum,st.counted + min r st.restWalkerNum⟩ := by
  have hcap32 : EstimateArgs.walkerCap = 2 ^ 32 - 2 := rfl
  have he : u32 (min r st.restWalkerNum) = min r st.restWalkerNum := u32_of_lt (by omega)
  rw [walkEpoch]
  simp only [he]
  rw [if_neg (by omega),u64Sub_of_le (Nat.min_le_right _ _) (by omega),u64_of_lt (by omega),
    u64_of_lt (by omega)]

theorem walkEpoch_spec {st : Progress} (hrest : 0 < st.restWalkerNum)
    (ht : st.restWalkerNum + st.terminatedWalkerNum < 2 ^ 64)
    (hc : st.restWalkerNum + st.counted < 2 ^ 64) :
    ∃ e, 0 < e ∧ e ≤ st.restWalkerNum ∧ walkEpoch r st =
      some ⟨st.restWalkerNum - e,st.terminatedWalkerNum + e,st.counted + e⟩ :=
  ⟨min r st.restWalkerNum,by omega,Nat.min_le_right _ _,walkEpoch_eq hcap ht hc⟩

/-- The loop ends with all walkers terminated, once each. -/
theorem walkEpochs_spec (fuel : Nat) (st : Progress) (hfuel : st.restWalkerNum ≤ fuel)
    (ht : st.restWalkerNum + st.terminatedWalkerNum < 2 ^ 64)
    (hc : st.restWalkerNum + st.counted < 2 ^ 64) :
    walkEpochs r fuel st = some ⟨0,st.restWalkerNum + st.terminatedWalkerNum,
      st.restWalkerNum + st.counted⟩ := by
  induction fuel generalizing st with
  | zero =>
    have h0 := Nat.le_zero.mp hfuel
    rw [walkEpochs,if_neg (by omega),h0,Nat.zero_add,Nat.zero_add,← h0]
  | succ fuel ih =>
    rw [walkEpochs]
    by_cases h0 : st.restWalkerNum = 0
    · rw [if_neg (by omega),h0,Nat.zero_add,Nat.zero_add,← h0]
    · obtain ⟨e,he,hle,hstep⟩ := walkEpoch_spec hpos hcap (Nat.pos_of_ne_zero h0) ht hc
      rw [if_pos h0,hstep,Option.bind_some,
        ih _ (by simp only; omega) (by simp only; omega) (by simp only; omega)]
      simp only
      congr 2 <;> omega

theorem walk_spec {walkerNum : Nat} (hw : walkerNum < 2 ^ 64) :
    walk r walkerNum walkerNum = some ⟨0,walkerNum,walkerNum⟩ := by
  rw [walk,walkEpochs_spec hpos hcap walkerNum ⟨walkerNum,0,0⟩ (Nat.le_refl _) hw hw,
    Option.bind_some]
  exact if_pos rfl

omit hcap in
/-- The loop of `prepare` ends, and its epochs add up to the walkers. -/
theorem prepareEpochs_spec {walkerNum : Nat} (fuel w : Nat) (hfuel : walkerNum - w ≤ fuel) :
    ∃ sizes, prepareEpochs r walkerNum fuel w = some sizes ∧ sizes.sum = walkerNum - w := by
  induction fuel generalizing w with
  | zero => exact ⟨[],by rw [prepareEpochs,if_neg (by omega)],by simp only [List.sum_nil]; omega⟩
  | succ fuel ih =>
    rw [prepareEpochs]
    by_cases hlt : w < walkerNum
    · obtain ⟨sizes,hs,hsum⟩ := ih (w + min r (walkerNum - w)) (by omega)
      refine ⟨min r (walkerNum - w) :: sizes,?_,?_⟩
      · simp only [if_pos hlt,hs,Option.map_some]
      · rw [List.sum_cons,hsum]
        omega
    · exact ⟨[],if_neg hlt,by simp only [List.sum_nil]; omega⟩

end

namespace EstimateArgs

/-- A walker is asked for and fits, and the sums that round up stay in 64 bits. -/
structure Sufficient (a : EstimateArgs) : Prop where
  some : 1 ≤ a.walkerNum
  fits : a.memoryNeeded + a.perWalkerCost ≤ a.memQuota
  sums : 2 ^ 63 < a.walkerNum →
    a.perWalkerCost * (a.walkerNum ⌈/⌉ (2 ^ 64 - a.walkerNum)) ≤ a.memQuota - a.memoryNeeded ∧
      a.memQuota - a.memoryNeeded < a.perWalkerCost * (2 ^ 64 - a.walkerNum + 1)

/-- What it means that the estimate is defined and the solver can go on with it. -/
structure Defined (a : EstimateArgs) (r : Nat) : Prop where
  value : a.estimateEpochWalker = .ok r
  positive : 1 ≤ a.walkerNum → 1 ≤ r
  /-- The loop of `prepare` and that of `walk` end. -/
  prepares : ∃ fuel sizes, prepareEpochs r a.walkerNum fuel 0 = some sizes
  walks : ∃ fuel st, walk r a.walkerNum fuel = some st

variable {a : EstimateArgs}

theorem fitting_pos_iff : 0 < a.fitting ↔ 1 ≤ a.walkerNum ∧ a.perWalkerCost ≤ a.spare := by
  rw [fitting,Nat.lt_min,Nat.div_pos_iff]
  have := perWalkerCost_pos (a := a)
  omega

theorem sufficient_iff (hw64 : a.walkerNum < 2 ^ 64) :
    a.Sufficient ↔ 0 < a.fitting ∧ a.walkerNum + a.fitting ≤ 2 ^ 64 ∧
      a.walkerNum + a.walkerNum ⌈/⌉ a.fitting ≤ 2 ^ 64 := by
  have hspare : a.spare = a.memQuota - a.memoryNeeded := rfl
  have hcost := perWalkerCost_pos (a := a)
  -- Only a walker number above 2^63 can make a sum wrap.
  have hsmall : a.walkerNum ≤ 2 ^ 63 → 0 < a.fitting → a.walkerNum + a.fitting ≤ 2 ^ 64 ∧
      a.walkerNum + a.walkerNum ⌈/⌉ a.fitting ≤ 2 ^ 64 := by
    intro hw hpos
    have hle := fitting_le (a := a)
    have hceil := ceilDiv_le_self (n := a.walkerNum) hpos
    omega
  have hlarge : 2 ^ 63 < a.walkerNum → 0 < a.fitting →
      (a.walkerNum + a.fitting ≤ 2 ^ 64 ∧ a.walkerNum + a.walkerNum ⌈/⌉ a.fitting ≤ 2 ^ 64 ↔
        a.perWalkerCost * (a.walkerNum ⌈/⌉ (2 ^ 64 - a.walkerNum)) ≤ a.spare ∧
          a.spare < a.perWalkerCost * (2 ^ 64 - a.walkerNum + 1)) := by
    intro hw hpos
    obtain ⟨k,hk⟩ : ∃ k, k = 2 ^ 64 - a.walkerNum := ⟨_,rfl⟩
    have hk0 : 0 < k := by omega
    have hceil := ceilDiv_le_self (n := a.walkerNum) hk0
    have hfew : a.walkerNum + a.fitting ≤ 2 ^ 64 ↔ a.spare / a.perWalkerCost < k + 1 := by
      rw [fitting]
      omega
    have hmany : a.walkerNum + a.walkerNum ⌈/⌉ a.fitting ≤ 2 ^ 64 ↔
        a.walkerNum ⌈/⌉ k ≤ a.spare / a.perWalkerCost := by
      have hcomm := ceilDiv_le_comm (n := a.walkerNum) hpos hk0
      rw [show a.walkerNum + a.walkerNum ⌈/⌉ a.fitting ≤ 2 ^ 64 ↔
        a.walkerNum ⌈/⌉ a.fitting ≤ k by omega,hcomm,fitting,le_min_iff]
      exact and_iff_left hceil
    rw [hfew,hmany,Nat.div_lt_iff_lt_mul hcost,Nat.le_div_iff_mul_le hcost,← hk,
      Nat.mul_comm (k + 1),Nat.mul_comm (a.walkerNum ⌈/⌉ k)]
    exact and_comm
  constructor
  · intro h
    have hpos := fitting_pos_iff.mpr ⟨h.some,by have := h.fits; omega⟩
    refine ⟨hpos,?_⟩
    by_cases hw : a.walkerNum ≤ 2 ^ 63
    · exact hsmall hw hpos
    · exact (hlarge (by omega) hpos).mpr (h.sums (by omega))
  · rintro ⟨hpos,hsums⟩
    obtain ⟨hsome,hfits⟩ := fitting_pos_iff.mp hpos
    exact ⟨hsome,by omega,fun hw => (hlarge hw hpos).mp hsums⟩

/-- Once the check passes, the estimate is defined and the epoch loops end if and only if a
walker fits and nothing wraps. -/
theorem estimate_defined_iff (ht : a.Typed) (hcheck : a.memoryNeeded < a.memQuota) :
    (∃ r, a.Defined r) ↔ a.Sufficient := by
  rw [sufficient_iff ht.walkerNum]
  constructor
  · rintro ⟨r,hvalue,hpositive,_,_⟩
    rw [estimateEpochWalker_eq ht hcheck] at hvalue
    by_cases hc : 0 < a.fitting ∧ a.walkerNum + a.fitting ≤ 2 ^ 64
    · refine ⟨hc.1,hc.2,Nat.le_of_not_lt (fun hwrap => ?_)⟩
      rw [if_pos hc,if_neg (Nat.not_le.mpr hwrap),Nat.zero_min] at hvalue
      cases hvalue
      have := hpositive (Nat.lt_of_lt_of_le hc.1 fitting_le)
      omega
    · rw [if_neg hc] at hvalue
      cases hvalue
  · rintro ⟨hpos,hfew,hmany⟩
    have hw := Nat.lt_of_lt_of_le hpos (fitting_le (a := a))
    have hr : 0 < min (a.walkerNum ⌈/⌉ (a.walkerNum ⌈/⌉ a.fitting)) walkerCap :=
      Nat.lt_min.mpr ⟨ceilDiv_pos (ceilDiv_pos hpos hw) hw,by decide⟩
    refine ⟨min (a.walkerNum ⌈/⌉ (a.walkerNum ⌈/⌉ a.fitting)) walkerCap,?_,fun _ => hr,?_,?_⟩
    · rw [estimateEpochWalker_eq ht hcheck,if_pos ⟨hpos,hfew⟩,if_pos hmany]
    · obtain ⟨sizes,hs,_⟩ := prepareEpochs_spec hr a.walkerNum 0 (Nat.sub_le _ _)
      exact ⟨a.walkerNum,sizes,hs⟩
    · exact ⟨a.walkerNum,_,walk_spec hr (Nat.min_le_right _ _) ht.walkerNum⟩

theorem estimate_defined_iff_path : (∃ r, EstimateArgs.Defined ⟨3,4,4,10,80,2,4096,0⟩ r) ↔
    EstimateArgs.Sufficient ⟨3,4,4,10,80,2,4096,0⟩ :=
  estimate_defined_iff ⟨by decide,by decide,by decide⟩ (by decide)

theorem estimate_not_always_defined : ¬ ∀ a : EstimateArgs, a.Typed → 1 ≤ a.walkLen →
    a.memoryNeeded < a.memQuota → ∃ r, a.Defined r := by
  intro h
  obtain ⟨r,hr⟩ := h ⟨3,4,4,10,80,2,105,0⟩ ⟨by decide,by decide,by decide⟩ (by decide) (by decide)
  have hzero : EstimateArgs.estimateEpochWalker ⟨3,4,4,10,80,2,105,0⟩ = .error .zeroDivision := by
    decide
  rw [hr.value] at hzero
  cases hzero

/-- The epochs of the estimate: no larger than the memory allows, no more than needed, and
they cover the walkers. `m` is the number of walkers that fit. -/
theorem epoch_plan (ht : a.Typed) (hnowrap : a.NoWrap) (hw : 1 ≤ a.walkerNum)
    (hfits : a.memory + a.perWalkerCost ≤ a.memQuota) :
    let m := min a.walkerNum ((a.memQuota - a.memory) / a.perWalkerCost)
    ∃ e r, a.calMaxEpochWalkerNum a.memQuota = .ok e ∧ a.estimateEpochWalker = .ok r ∧
      1 ≤ e ∧ e ≤ m ∧ a.memory + e * a.perWalkerCost ≤ a.memQuota ∧
      a.walkerNum ⌈/⌉ e = a.walkerNum ⌈/⌉ m ∧ r = min e (2 ^ 32 - 2) ∧
      ∃ fuel, walk r a.walkerNum fuel = some ⟨0,a.walkerNum,a.walkerNum⟩ := by
  have hneeded := hnowrap.memoryNeeded
  have hcost := perWalkerCost_pos (a := a)
  have hspare : a.spare = a.memQuota - a.memory := by rw [spare,hneeded]
  have hm : min a.walkerNum ((a.memQuota - a.memory) / a.perWalkerCost) = a.fitting := by
    rw [fitting,hspare,min_comm]
  have hpos : 0 < a.fitting := fitting_pos_iff.mpr ⟨hw,by omega⟩
  obtain ⟨huncapped,hestimate⟩ := hnowrap.estimateEpochWalker_eq ht (by omega) hpos
  have he := ceilDiv_pos (ceilDiv_pos hpos hw) hw
  have hle := ceilDiv_ceilDiv_le hpos hw
  intro m
  rw [show m = a.fitting from hm]
  refine ⟨_,_,huncapped,hestimate,he,hle,?_,ceilDiv_balanced hpos hw,rfl,a.walkerNum,
    walk_spec (Nat.lt_min.mpr ⟨he,by decide⟩) (Nat.min_le_right _ _) ht.walkerNum⟩
  have hfit : a.fitting * a.perWalkerCost ≤ a.spare :=
    Nat.le_trans (Nat.mul_le_mul_right _ (Nat.min_le_left _ _)) (Nat.div_mul_le_self _ _)
  have := Nat.mul_le_mul_right a.perWalkerCost hle
  omega

theorem epoch_plan_two_epochs :
    let a : EstimateArgs := ⟨3,4,4,10,80,2,4096,0⟩
    let m := min a.walkerNum ((a.memQuota - a.memory) / a.perWalkerCost)
    ∃ e r, a.calMaxEpochWalkerNum a.memQuota = .ok e ∧ a.estimateEpochWalker = .ok r ∧
      1 ≤ e ∧ e ≤ m ∧ a.memory + e * a.perWalkerCost ≤ a.memQuota ∧
      a.walkerNum ⌈/⌉ e = a.walkerNum ⌈/⌉ m ∧ r = min e (2 ^ 32 - 2) ∧
      ∃ fuel, walk r a.walkerNum fuel = some ⟨0,a.walkerNum,a.walkerNum⟩ :=
  epoch_plan ⟨by decide,by decide,by decide⟩ ⟨by decide,by decide,by decide⟩ (by decide) (by decide)

end EstimateArgs

end FlashMob.Solver
