import FlashMob.Benchmark.Starts

namespace FlashMob.Benchmark
open Floating FlashMob.Graph FlashMob.Partition Lib.Keyed

/-- What `get_partition_hint` calls `mini_benchmark` with. -/
def hintArgs {D : Type} (walkerPerEdge : D) (graph : Loaded) (cfg : MultiThreadConfig) :
    BmkArgs D where
  walkerPerEdge := walkerPerEdge
  maxDegree := 2048
  minPartitionVertexBit := min minPartitionBits (chooseGroupBits graph.vNum)
  maxPartitionVertexBit := min 24 (chooseGroupBits graph.vNum)
  threadNum := cfg.threadNum

theorem hintArgs_valid {D : Type} (walkerPerEdge : D) (graph : Loaded) {cfg : MultiThreadConfig}
    (hthreads : 0 < cfg.threadNum) (hfew : cfg.threadNum < 2 ^ 31) :
    (hintArgs walkerPerEdge graph cfg).Valid := by
  refine ⟨?_,hthreads,Nat.lt_of_le_of_lt (Nat.min_le_left _ _) (by decide)⟩
  change 2048 + cfg.threadNum + 1 < 2 ^ 32
  omega

variable {K : Type} [Field K] [LinearOrder K] [IsStrictOrderedRing K] [FloorSemiring K]

section
variable {args : BmkArgs K} {m : MiniBMKCatManager K}

omit [IsStrictOrderedRing K] in
theorem results_measured (h : ∀ y ∈ m.catSet.items, y.Sound) (bits : Nat) :
    Measured (args.results m bits) := by
  obtain ⟨bits',heq⟩ := results_eq args m bits
  rw [heq]
  refine ⟨fun e he => ?_,fun e he => (mem_getCatalogue.mp he).2,fun e he est hest => ?_⟩
  · obtain ⟨hvalues,hne⟩ := mem_getCatalogue.mp he
    obtain ⟨est,hest⟩ := List.exists_mem_of_ne_nil _ hne
    obtain ⟨y,hy,_,hdegree,_⟩ := getCatalogue_item he est hest
    have hpos := (h y hy).degree
    omega
  · obtain ⟨y,hy,_,_,rfl⟩ := getCatalogue_item he est hest
    have htime := (h y hy).time
    rw [exact_le,exact_ofNat,Nat.cast_zero,decide_eq_true_eq] at htime
    exact htime

end

section
variable {maxDegree fuel d D x : Nat}

omit [IsStrictOrderedRing K] in
theorem exists_degree_at_least (hmax : maxDegree + 1 < 2 ^ 32)
    (hD : D ∈ degreesFrom K maxDegree fuel d) (hx : x ≤ D) :
    ∃ e ∈ degreesFrom K maxDegree fuel d, x ≤ e ∧ e ≤ D ∧
      (e = d ∨ ∃ prev, prev < x ∧ e = nextDegree K prev) := by
  induction fuel generalizing d with
  | zero => cases hD
  | succ fuel ih =>
    have hle := (degreesFrom_bounds hmax hD).1
    rw [degreesFrom] at hD ⊢
    split_ifs at hD ⊢ with hd
    · by_cases hlt : d < x
      · have htail : D ∈ degreesFrom K maxDegree fuel (nextDegree K d) :=
          (List.mem_cons.mp hD).resolve_left (by omega)
        obtain ⟨e,he,hlo,hhi,hfrom⟩ := ih htail
        refine ⟨e,List.mem_cons_of_mem _ he,hlo,hhi,Or.inr ?_⟩
        rcases hfrom with rfl | hprev
        · exact ⟨d,hlt,rfl⟩
        · exact hprev
      · exact ⟨d,List.mem_cons_self,Nat.le_of_not_lt hlt,hle,.inl rfl⟩
    · cases hD

/-- The next degree is at most a twentieth larger, or the next number. -/
theorem nextDegree_le (hd : d < 2 ^ 31) : nextDegree K d ≤ max (d + 1) (21 * d / 20) := by
  have hfloor : toNat (mul (ofNat d) (div (ofNat 105) (ofNat 100)) : K) = 21 * d / 20 := by
    change ⌊(d : K) * ((105 : Nat) / (100 : Nat))⌋₊ = _
    rw [← Nat.floor_div_eq_div (K := K)]
    congr 1
    push_cast
    ring
  rw [nextDegree,hfloor,u32_of_lt (by omega),u32_of_lt (by omega)]

end

section
variable {args : BmkArgs K} {bits d D : Nat}

theorem admissible_of_le (hwalkers : 0 ≤ args.walkerPerEdge)
    (hfit : ((threadEdgeNum : Nat) : K) * args.walkerPerEdge < 2 ^ 64)
    (hadm : args.admissible bits D = true) (hle : d ≤ D)
    (hone : 1 ≤ ((u32 (2 ^ bits) * d : Nat) : K) * args.walkerPerEdge) :
    args.admissible bits d = true := by
  rw [BmkArgs.admissible,Bool.and_eq_true,Bool.not_eq_true',Bool.or_eq_false_iff] at hadm ⊢
  obtain ⟨⟨hedges,hwork⟩,_⟩ := hadm
  have hproduct : u32 (2 ^ bits) * d ≤ u32 (2 ^ bits) * D := Nat.mul_le_mul_left _ hle
  have hedges' : u32 (2 ^ bits) * d ≤ threadEdgeNum :=
    Nat.le_trans hproduct (Nat.le_of_not_lt (of_decide_eq_false hedges))
  refine ⟨⟨decide_eq_false (Nat.not_lt.mpr hedges'),?_⟩,?_⟩
  · rw [exact_lt,decide_eq_false_iff_not,not_lt] at hwork ⊢
    have hcast : ((u32 (2 ^ bits) * d : Nat) : K) ≤ (u32 (2 ^ bits) * D : Nat) := by
      exact_mod_cast hproduct
    exact le_trans (mul_le_mul_of_nonneg_right hcast hwalkers) hwork
  · have hcast : ((u32 (2 ^ bits) * d : Nat) : K) ≤ (threadEdgeNum : Nat) := by
      exact_mod_cast hedges'
    have hlt := lt_of_le_of_lt (mul_le_mul_of_nonneg_right hcast hwalkers) hfit
    have hfloor : ⌊((u32 (2 ^ bits) * d : Nat) : K) * args.walkerPerEdge⌋₊ < 2 ^ 64 := by
      refine (Nat.floor_lt (le_trans zero_le_one hone)).mpr ?_
      exact_mod_cast hlt
    rw [Bool.not_eq_true',decide_eq_false_iff_not,not_lt]
    change 1 ≤ u64 ⌊((u32 (2 ^ bits) * d : Nat) : K) * args.walkerPerEdge⌋₊
    rw [u64_of_lt hfloor]
    exact (Nat.one_le_floor_iff _).mpr hone

omit [Field K] [LinearOrder K] [IsStrictOrderedRing K] [FloorSemiring K] in
theorem find_least {table : List (Nat × List (SampleEstimation K))} {x : Nat}
    (hs : table.Pairwise (fun a b => a.1 < b.1)) {e : Nat × List (SampleEstimation K)}
    (he : e ∈ table) (hx : x ≤ e.1) :
    ∃ f ∈ table, table.find? (fun f => x ≤ f.1) = some f ∧ x ≤ f.1 ∧ f.1 ≤ e.1 := by
  cases hfind : table.find? (fun f => x ≤ f.1) with
  | none => exact absurd (decide_eq_true hx) (List.find?_eq_none.mp hfind e he)
  | some f =>
    obtain ⟨hf,before,after,rfl,hbefore⟩ := List.find?_eq_some_iff_append.mp hfind
    refine ⟨f,by simp,rfl,of_decide_eq_true hf,?_⟩
    rcases List.mem_append.mp he with he | he
    · have hnot := hbefore e he
      simp only [hx,decide_true,Bool.not_true,Bool.false_eq_true] at hnot
    · rcases List.mem_cons.mp he with rfl | he
      · exact Nat.le_refl _
      · have hlater := (List.pairwise_append.mp hs).2.1
        exact Nat.le_of_lt ((List.pairwise_cons.mp hlater).1 e he)

end

/-- The cost model looks every degree up to the largest measured one up at a degree that is at most
a twentieth larger, if a partition of the size it measures with has a walker for it. -/
theorem degree_lookup_close {K : Type} [Field K] [LinearOrder K] [IsStrictOrderedRing K]
    [FloorSemiring K] {args : BmkArgs K} {m m' : MiniBMKCatManager K} {tr : List (MiniBMKItem K)}
    (bits x D : Nat) (hv : args.Valid) (hsmall : args.maxDegree < 2 ^ 31)
    (hwalkers : 0 ≤ args.walkerPerEdge)
    (hfit : ((threadEdgeNum : Nat) : K) * args.walkerPerEdge < 2 ^ 64)
    (hb : Benchmarked args m tr m')
    (hbits : args.minPartitionVertexBit ≤ bits ∧ bits ≤ args.maxPartitionVertexBit)
    (hD : D ∈ args.testDegrees) (hadm : args.admissible (args.measuredBits bits) D = true)
    (hx : x ≤ D)
    (hone : 1 ≤ ((u32 (2 ^ args.measuredBits bits) * x : Nat) : K) * args.walkerPerEdge) :
    ∃ e ∈ args.results m' bits, (args.results m' bits).find? (fun e => x ≤ e.1) = some e ∧
      x ≤ e.1 ∧ e.1 ≤ max x (21 * x / 20) := by
  have hroom := hv.room
  have hxpos : x ≠ 0 := by
    rintro rfl
    rw [Nat.mul_zero,Nat.cast_zero,zero_mul] at hone
    exact absurd hone (not_le.mpr zero_lt_one)
  obtain ⟨d,hd,hxd,hdD,hfrom⟩ := exists_degree_at_least (by omega) hD hx
  have hclose : d ≤ max x (21 * x / 20) := by
    rcases hfrom with rfl | ⟨prev,hprev,rfl⟩
    · omega
    · have hmax := (BmkArgs.testDegrees_bounds (by omega) hD).2
      have hnext := nextDegree_le (K := K) (d := prev) (by omega)
      omega
  have hmeasured : args.minPartitionVertexBit ≤ args.measuredBits bits ∧
      args.measuredBits bits ≤ args.internalMaxPtBit :=
    ⟨Nat.le_min.mpr ⟨hbits.1,Nat.le_min.mpr ⟨Nat.le_trans hbits.1 hbits.2,Nat.le_max_right _ _⟩⟩,
      Nat.min_le_right _ _⟩
  have hmore : ((u32 (2 ^ args.measuredBits bits) * x : Nat) : K) ≤
      (u32 (2 ^ args.measuredBits bits) * d : Nat) := by
    exact_mod_cast Nat.mul_le_mul_left _ hxd
  have hadm' := admissible_of_le hwalkers hfit hadm hdD
    (le_trans hone (mul_le_mul_of_nonneg_right hmore hwalkers))
  have hhas := hb.has hv ⟨args.measuredBits bits,.classUniformDegreeDirectSampler⟩ d
    ⟨hd,hmeasured,hadm',.inl rfl⟩
  obtain ⟨y,hy,hk⟩ := KeySet.has_iff.mp hhas
  rw [exists_task_key,BmkTask.key_inj,BmkTask.mk.injEq] at hk
  obtain ⟨⟨hybits,_⟩,hydegree⟩ := hk
  obtain ⟨e,he,hedegree,_⟩ := exists_getCatalogue hy
  rw [hybits] at he
  rw [results_of_le m' hbits.2]
  obtain ⟨f,hf,hfind,hlo,hhi⟩ := find_least (getCatalogue_spec m' _).1.sorted he
    (x := x) (by omega)
  exact ⟨f,hf,hfind,hlo,by omega⟩

/-- No partition is measured for degree 41: it is looked up at 42. -/
theorem degree_lookup_close_forty_one : ∃ (m' : MiniBMKCatManager ℚ)
    (e : Nat × List (SampleEstimation ℚ)),
    ((⟨1,50,0,4,1⟩ : BmkArgs ℚ).results m' 0).find? (fun e => 41 ≤ e.1) = some e ∧
      41 ≤ e.1 ∧ e.1 ≤ 43 := by
  have hv : (⟨1,50,0,4,1⟩ : BmkArgs ℚ).Valid := ⟨by decide,by decide,by decide⟩
  obtain ⟨tr,m',hb,_⟩ := exists_benchmarked (⟨1,50,0,4,1⟩ : BmkArgs ℚ) ⟨KeySet.empty,0⟩
    (P := fun _ => True) 0 trivial hv.room (by decide +kernel)
  obtain ⟨e,_,hfind,hlo,hhi⟩ := degree_lookup_close 0 41 42 hv (by decide) (by decide)
    (by decide +kernel) hb ⟨Nat.le_refl _,Nat.zero_le _⟩ (by decide +kernel)
    (by decide +kernel) (by decide) (by decide +kernel)
  exact ⟨m',e,hfind,hlo,hhi⟩

section
variable {l : List (BmkArgs K × List (MiniBMKItem K))} {file : Option (List Char)} {graph : Loaded}
  {cfg : MultiThreadConfig} {walkerPerEdge : K} {m m' : MiniBMKCatManager K}
  {tr : List (MiniBMKItem K)} (hb : Benchmarked (hintArgs walkerPerEdge graph cfg) m tr m')
  (hv : (hintArgs walkerPerEdge graph cfg).Valid)
include hb hv

theorem hint_sound (hstarts : Starts l file) (hload : MiniBMKCatManager.load file = some m)
    (htimes : ∀ y ∈ tr, 0 ≤ y.stepTime) : ∀ y ∈ m'.catSet.items, y.Sound := by
  obtain ⟨m₀,hload₀,hkept⟩ := hstarts.kept
  obtain rfl := Option.some.inj (hload₀.symm.trans hload)
  obtain ⟨_,hitems,_⟩ := hb.entered hv.room hv.threads
  intro y hy
  rcases (hitems y).mp hy with hy | hy
  · exact (hkept.item hy).2
  · have hroom := hv.room
    exact ⟨(BmkArgs.testDegrees_bounds (by omega) (hb.mem_keys hv hy).1.1).1,by
      simpa using htimes y hy⟩

omit [IsStrictOrderedRing K] in
theorem hint_coarsest {degree : Nat} (hbits : chooseGroupBits graph.vNum ≤ 24)
    (hdegree : degree ∈ (hintArgs walkerPerEdge graph cfg).testDegrees)
    (hadm : (hintArgs walkerPerEdge graph cfg).admissible
      (hintArgs walkerPerEdge graph cfg).internalMaxPtBit degree = true) :
    (hintArgs walkerPerEdge graph cfg).results m' (chooseGroupBits graph.vNum) ≠ [] := by
  have hmax : (hintArgs walkerPerEdge graph cfg).maxPartitionVertexBit =
      chooseGroupBits graph.vNum := Nat.min_eq_right hbits
  have hleast : (hintArgs walkerPerEdge graph cfg).minPartitionVertexBit ≤
      (hintArgs walkerPerEdge graph cfg).internalMaxPtBit := by
    refine Nat.le_min.mpr ⟨?_,Nat.le_max_right _ _⟩
    rw [hmax]
    exact Nat.min_le_right _ _
  have hhas := hb.has hv ⟨_,.classUniformDegreeDirectSampler⟩ degree
    ⟨hdegree,⟨hleast,Nat.le_refl _⟩,hadm,.inl rfl⟩
  obtain ⟨y,hy,hk⟩ := KeySet.has_iff.mp hhas
  rw [exists_task_key,BmkTask.key_inj,BmkTask.mk.injEq] at hk
  obtain ⟨e,he,_⟩ := exists_getCatalogue hy
  rw [hk.1.1] at he
  rw [← hmax,results_coarsest]
  exact List.ne_nil_of_mem he

end

end FlashMob.Benchmark
