import FlashMob.Partition.Sizes

namespace FlashMob.Partition
open Floating FlashMob.Graph Lib.Loops Lib.Tiling

section
variable {D : Type} [Floating D] {walkerPerEdge : D} {graph : Loaded} {cfg : MultiThreadConfig}
  {costs : Nat → List (Nat × List (SampleEstimation D))} {hint : GraphHint D}
  {schedule : List (Nat × Nat) → List (Nat × Nat)} {made : Made}
  (hhint : getPartitionHint walkerPerEdge graph cfg costs = some hint)
  (hv : graph.vNum < 2 ^ 32) (hmake : make cfg hint schedule graph = some made)
include hhint hv hmake

/-- Without a group nothing is made, so a graph that was made leaves room for its groups. -/
theorem made_room : graph.vNum + 2 ^ chooseGroupBits graph.vNum ≤ 2 ^ 32 := by
  obtain ⟨selected,rfl,_,_⟩ := dp_planned hhint
  obtain ⟨rows,k,units,hrows,⟨hk,hk0⟩,_,_⟩ := make_cases hmake
  refine room_of_groups hv (Nat.pos_of_ne_zero (fun hzero => ?_))
  have hnum : (partitionInput walkerPerEdge graph cfg costs).groupNum = 0 := hzero
  rw [partitionRows,hnum,List.take_zero,List.mapM_nil] at hrows
  split_ifs at hrows
  obtain rfl := Option.some.inj hrows
  rw [List.headD_nil,List.length_nil,Nat.min_zero] at hk
  exact hk0 hk

theorem made_planned : Tiles 0 made.partitions made.vNum ∧ ∀ k < made.partitionNum,
    made.partitionBegin k < made.partitionEnd k ∧ ∃ sc, made.partitionSamplerClass[k]? = some sc ∧
      EvaluatedFor (partitionInput walkerPerEdge graph cfg costs) hint
        (made.partitionBegin k,made.partitionEnd k) sc := by
  obtain ⟨ok,_,hclasses⟩ := getPartitionHint_spec (made_room hhint hv hmake) hhint
  obtain ⟨rows,shuffled,units,hrows,_,_,rfl⟩ := make_cases hmake
  obtain rfl := Option.some.inj (hrows.symm.trans ok.partitionRows_eq)
  exact ⟨ok.partitions_tiles,fun k hk => evaluated_at ok hclasses hk⟩

end

theorem evaluated_partition {D : Type} [Floating D] {i : DpInput D} {hint : GraphHint D}
    (hhint : dp i = some hint) {r : Nat × Nat} {sc : SamplerClass} (h : EvaluatedFor i hint r sc) :
    ∃ g bits p methods, g < i.groupNum ∧ bits ≤ i.groupBits ∧ p < i.partitionNum g bits ∧
      i.partitionRange g bits p = r ∧ i.offers g bits p = some methods ∧
      (choosePartitionSc methods).2 = some sc := by
  obtain ⟨selected,rfl,hplanned,_⟩ := dp_planned hhint
  obtain ⟨g,h,p,methods,hh,hp,hrange,hoffers,hsc⟩ := h
  obtain ⟨c,hc,rfl⟩ := Option.map_eq_some_iff.mp (List.getElem?_map ▸ hh)
  obtain ⟨hlt,rfl⟩ := List.getElem?_eq_some_iff.mp hc
  have hg := hplanned.length_eq ▸ hlt
  have hplan := hplanned.get hg hlt
  rw [List.get_eq_getElem,List.getElem_range] at hplan
  exact ⟨g,_,p,methods,by simpa using hg,hplan.bits,hplan.partitionNum ▸ hp,hrange,hoffers,hsc⟩

variable {K : Type} [Field K] [LinearOrder K] [FloorSemiring K] [IsStrictOrderedRing K]

/-- The first of two methods is taken unless the second is cheaper. -/
theorem choosePartitionSc_first {a b : K} (sc sc' : SamplerClass) (ha : 0 ≤ a) (hab : a ≤ b) :
    (choosePartitionSc [(sc,a),(sc',b)]).2 = some sc := by
  have hnone : (-1 : K) < 0 := neg_one_lt_zero
  simp [choosePartitionSc,hnone,not_lt.mpr ha,not_lt.mpr hab]

/-- A table of measurements: of positive degrees, each with a method, and of times that are not
negative. -/
structure Measured (costs : List (Nat × List (SampleEstimation K))) : Prop where
  degrees : ∀ e ∈ costs, e.1 ≠ 0
  methods : ∀ e ∈ costs, e.2 ≠ []
  times : ∀ e ∈ costs, ∀ m ∈ e.2, 0 ≤ m.stepTime

namespace DpInput
variable {i : DpInput K} {g bits p : Nat}

/-- The penalty for degrees beyond the measured ones never makes a method cheaper. -/
theorem degreeMethods_measured (h : Measured (i.costs bits)) (hne : i.costs bits ≠ [])
    (avgDegree : Nat) :
    ∃ penalty, ∃ e ∈ i.costs bits, i.degreeMethods bits avgDegree = some (penalty,e.2) ∧
      1 ≤ penalty := by
  rw [degreeMethods]
  cases hfind : (i.costs bits).find? (fun e => avgDegree ≤ e.1) with
  | some e => exact ⟨_,e,List.mem_of_find?_eq_some hfind,rfl,by simp⟩
  | none =>
    have hlast : (i.costs bits).getLast hne ∈ i.costs bits := List.getLast_mem hne
    have hpos := h.degrees _ hlast
    have hbeyond := List.find?_eq_none.mp hfind _ hlast
    refine ⟨ofNat (avgDegree / ((i.costs bits).getLast hne).1),_,hlast,?_,?_⟩
    · simp only [List.getLast?_eq_some_getLast hne,Option.bind_some,if_neg hpos]
    · have hone : 1 ≤ avgDegree / ((i.costs bits).getLast hne).1 := by
        simp only [decide_eq_true_eq,not_le] at hbeyond
        exact (Nat.one_le_div_iff (Nat.pos_of_ne_zero hpos)).mpr (Nat.le_of_lt hbeyond)
      rw [exact_ofNat]
      exact_mod_cast hone

theorem syncPenalty_nonneg (edgeNum : Nat) : 0 ≤ i.syncPenalty edgeNum := by
  rw [syncPenalty]
  split_ifs
  · rw [exact_div,exact_ofNat,exact_ofNat]
    positivity
  · rw [exact_ofNat]
    positivity

theorem methodCost_nonneg {load : PartitionLoad K} {penalty : K} {method : SampleEstimation K}
    (hwalkers : 0 ≤ load.walkerNum) (hpenalty : 0 ≤ penalty) (htime : 0 ≤ method.stepTime) :
    0 ≤ i.methodCost load penalty method := by
  have hsync := i.syncPenalty_nonneg load.edgeNum
  simp only [methodCost,exact_mul]
  split_ifs <;> positivity

/-- A method that is not slower stays so as a buffer, which is spared the penalty. -/
theorem methodCost_exclusive_le {load : PartitionLoad K} {penalty a b : K}
    (hwalkers : 0 ≤ load.walkerNum) (hpenalty : 1 ≤ penalty) (ha : 0 ≤ a) (hab : a ≤ b)
    {sc : SamplerClass} (hsc : sc ≠ .classExclusiveBufferSampler) :
    i.methodCost load penalty ⟨.classExclusiveBufferSampler,a⟩ ≤ i.methodCost load penalty ⟨sc,b⟩ := by
  have hsync := i.syncPenalty_nonneg load.edgeNum
  simp only [methodCost,exact_mul,if_neg hsc,if_true]
  refine mul_le_mul_of_nonneg_right ?_ hsync
  calc a * load.walkerNum ≤ b * load.walkerNum := mul_le_mul_of_nonneg_right hab hwalkers
    _ ≤ b * load.walkerNum * penalty :=
      le_mul_of_one_le_right (mul_nonneg (le_trans ha hab) hwalkers) hpenalty

theorem getWalkerNum_nonneg (hwalkers : 0 ≤ i.walkerPerEdge) (b e : Nat) :
    0 ≤ i.getWalkerNum b e := by
  rw [getWalkerNum,exact_mul,exact_ofNat]
  positivity

theorem partitionLoad_isSome (hwalkers : 0 ≤ i.walkerPerEdge)
    (hrange : u32Sub (i.partitionRange g bits p).2 (i.partitionRange g bits p).1 ≠ 0)
    (hshuffle : 0 < i.shuffleVertexEnd 0 bits) :
    ∃ load, i.partitionLoad g bits p = some load ∧ 0 ≤ load.walkerNum := by
  rw [partitionLoad]
  dsimp only
  by_cases hshared : g = 0 ∧ p < i.maxShufflePartitionNum
  · obtain ⟨rfl,hp⟩ := hshared
    refine ⟨_,by rw [if_pos ⟨rfl,hp⟩,if_neg (Nat.ne_of_gt hshuffle)],?_⟩
    have := i.getWalkerNum_nonneg hwalkers 0 (i.shuffleVertexEnd 0 bits)
    simp only [exact_mul,exact_div,exact_ofNat]
    positivity
  · exact ⟨_,by rw [if_neg hshared,if_neg hrange],i.getWalkerNum_nonneg hwalkers _ _⟩

section
variable (hroom : i.vNum + 2 ^ i.groupBits ≤ 2 ^ 32)
  (hnum : i.groupNum = ceilDiv i.vNum (2 ^ i.groupBits)) (hg : g < i.groupNum)
  (hbits : bits ≤ i.groupBits)
include hroom hnum hg hbits

omit [IsStrictOrderedRing K] in
/-- The range of every partition that is evaluated, written without the wrapping of 32 bits. -/
theorem partitionRange_exact (hp : p < i.partitionNum g bits) :
    i.partitionRange g bits p = (g * 2 ^ i.groupBits + p * 2 ^ bits,
      min (g * 2 ^ i.groupBits + (p + 1) * 2 ^ bits) i.vNum) ∧
      g * 2 ^ i.groupBits + p * 2 ^ bits < i.vNum := by
  have hb := groupVertexBegin_eq hroom hnum hg
  have he := groupVertexEnd_eq hroom hnum hg
  have ok := evenHint_ok (D := K) hroom hbits
  have hget : (evenHint K i.vNum i.groupBits bits).groupHints[g]? =
      some (evenGroup K i.vNum i.groupBits bits g) := evenHint_get (hnum ▸ hg)
  rw [partitionNum_eq hroom hnum hg hbits,hb,he] at hp
  refine ⟨partitionRange_eq ok hget hb.symm he.symm hp,?_⟩
  have hlt := mul_lt_of_lt_ceilDiv (Nat.two_pow_pos bits) hp
  omega

variable (hwalkers : 0 ≤ i.walkerPerEdge) (hshuffle : 0 < i.shuffleVertexEnd 0 bits)
  (hmeasured : Measured (i.costs bits)) (hne : i.costs bits ≠ [])
include hwalkers hshuffle hmeasured hne

theorem offers_measured (hp : p < i.partitionNum g bits) :
    ∃ load penalty, ∃ e ∈ i.costs bits, 0 ≤ load.walkerNum ∧ 1 ≤ penalty ∧
      i.offers g bits p = some (e.2.map (fun m => (m.samplerClass,i.methodCost load penalty m))) := by
  obtain ⟨hrange,hlt⟩ := partitionRange_exact hroom hnum hg hbits hp
  have hpos := Nat.two_pow_pos bits
  have hgroup := Nat.two_pow_pos i.groupBits
  have hlength : u32Sub (i.partitionRange g bits p).2 (i.partitionRange g bits p).1 ≠ 0 := by
    rw [hrange,Nat.add_mul]
    dsimp only
    rw [u32Sub_of_le (by omega) (by omega)]
    omega
  obtain ⟨load,hload,hwalkerNum⟩ := partitionLoad_isSome hwalkers hlength hshuffle
  obtain ⟨penalty,e,he,hmethods,hpenalty⟩ :=
    degreeMethods_measured hmeasured hne load.avgDegree
  exact ⟨load,penalty,e,he,hwalkerNum,hpenalty,by
    rw [offers,hload,Option.bind_some,hmethods,Option.map_some]⟩

theorem menu_measured : ∃ menu, i.menu g bits = some menu ∧
    menu.partitionNum = i.partitionNum g bits ∧
    ∀ methods ∈ menu.offers, methods ≠ [] ∧ ∀ m ∈ methods, 0 ≤ m.2 := by
  have hoffers := fun p (hp : p < i.partitionNum g bits) =>
    offers_measured hroom hnum hg hbits hwalkers hshuffle hmeasured hne hp
  obtain ⟨offers,hall⟩ : ∃ offers,
      (List.range (i.partitionNum g bits)).mapM (fun p => i.offers g bits p) = some offers :=
    exists_mapM (fun p hp => by
      obtain ⟨_,_,_,_,_,_,h⟩ := hoffers p (List.mem_range.mp hp)
      exact ⟨_,h⟩)
  refine ⟨_,by rw [menu,hall,Option.map_some],rfl,fun methods hm => ?_⟩
  obtain ⟨p,hp,hsome⟩ := exists_of_mapM hall hm
  obtain ⟨load,penalty,e,he,hwalkerNum,hpenalty,heq⟩ := hoffers p (List.mem_range.mp hp)
  obtain rfl := Option.some.inj (hsome.symm.trans heq)
  refine ⟨fun hnil => hmeasured.methods e he (List.map_eq_nil_iff.mp hnil),fun m hm => ?_⟩
  obtain ⟨method,hmethod,rfl⟩ := List.mem_map.mp hm
  exact methodCost_nonneg hwalkerNum (le_trans zero_le_one hpenalty)
    (hmeasured.times e he method hmethod)

end

end DpInput

/-- What `dp` needs to find a selection. -/
structure Plannable (i : DpInput K) : Prop where
  room : i.vNum + 2 ^ i.groupBits ≤ 2 ^ 32
  number : i.groupNum = ceilDiv i.vNum (2 ^ i.groupBits)
  least : i.minPartitionVertexBit ≤ i.maxPartitionVertexBit
  most : i.maxPartitionVertexBit ≤ i.groupBits
  walkers : 0 ≤ i.walkerPerEdge
  shuffled : ∀ bits ≤ i.maxPartitionVertexBit, 0 < i.shuffleVertexEnd 0 bits
  measured : ∀ bits, Measured (i.costs bits)
  coarsest : i.costs i.maxPartitionVertexBit ≠ []
  fits : ((List.range i.groupNum).map
    (fun g => i.partitionNum g i.maxPartitionVertexBit)).sum ≤ maxPartitionNum

namespace Plannable
variable {i : DpInput K} (h : Plannable i)
include h

theorem menus {g : Nat} (hg : g < i.groupNum) : ∃ group, i.menus g = some group ∧
    (∀ menu ∈ group, ∀ methods ∈ menu.offers, methods ≠ [] ∧ ∀ m ∈ methods, 0 ≤ m.2) ∧
    ∃ menu ∈ group, menu.partitionNum = i.partitionNum g i.maxPartitionVertexBit := by
  have hmenu := fun bits (hle : bits ≤ i.maxPartitionVertexBit) (hne : i.costs bits ≠ []) =>
    DpInput.menu_measured h.room h.number hg (Nat.le_trans hle h.most) h.walkers
      (h.shuffled bits hle) (h.measured bits) hne
  have hmem : ∀ {bits}, bits ∈ (List.range' i.minPartitionVertexBit
      (i.maxPartitionVertexBit + 1 - i.minPartitionVertexBit)).filter
        (fun b => !(i.costs b).isEmpty) →
      bits ≤ i.maxPartitionVertexBit ∧ i.costs bits ≠ [] := by
    intro bits hb
    obtain ⟨hrange,hne⟩ := List.mem_filter.mp hb
    have hbounds := List.mem_range'_1.mp hrange
    have hleast := h.least
    refine ⟨by omega,?_⟩
    simpa using hne
  obtain ⟨group,hgroup⟩ := exists_mapM (fun bits hb => by
    obtain ⟨menu,hsome,_⟩ := hmenu bits (hmem hb).1 (hmem hb).2
    exact ⟨menu,hsome⟩)
  have hall : (List.range' i.minPartitionVertexBit
      (i.maxPartitionVertexBit + 1 - i.minPartitionVertexBit)).all
        (fun b => b ≤ i.groupBits) = true := by
    refine List.all_eq_true.mpr (fun b hb => ?_)
    have hbounds := List.mem_range'_1.mp hb
    have hmost := h.most
    have hleast := h.least
    exact decide_eq_true (by omega)
  refine ⟨group,by rw [DpInput.menus,if_pos hall,hgroup],fun menu hm => ?_,?_⟩
  · obtain ⟨bits,hb,hsome⟩ := exists_of_mapM hgroup hm
    obtain ⟨menu',hsome',_,hok⟩ := hmenu bits (hmem hb).1 (hmem hb).2
    obtain rfl := Option.some.inj (hsome.symm.trans hsome')
    exact hok
  · have hcoarse : i.maxPartitionVertexBit ∈ (List.range' i.minPartitionVertexBit
        (i.maxPartitionVertexBit + 1 - i.minPartitionVertexBit)).filter
          (fun b => !(i.costs b).isEmpty) := by
      have hleast := h.least
      refine List.mem_filter.mpr ⟨List.mem_range'_1.mpr (by omega),?_⟩
      simpa using h.coarsest
    obtain ⟨menu,hm,hsome⟩ := exists_mem_of_mapM hgroup hcoarse
    obtain ⟨menu',hsome',hpart,_⟩ := hmenu _ (Nat.le_refl _) h.coarsest
    obtain rfl := Option.some.inj (hsome.symm.trans hsome')
    exact ⟨menu,hm,hpart⟩

theorem exists_hint : ∃ hint, dp i = some hint := by
  obtain ⟨menus,hmenus⟩ : ∃ menus, (List.range i.groupNum).mapM (fun g => i.menus g) = some menus :=
    exists_mapM (fun g hg => by
      obtain ⟨group,hsome,_⟩ := h.menus (List.mem_range.mp hg)
      exact ⟨group,hsome⟩)
  have hmethods : ∀ group ∈ menus, ∀ menu ∈ group, ∀ methods ∈ menu.offers,
      methods ≠ [] ∧ ∀ m ∈ methods, 0 ≤ m.2 := by
    intro group hm
    obtain ⟨g,hg,hsome⟩ := exists_of_mapM hmenus hm
    obtain ⟨group',hsome',hok,_⟩ := h.menus (List.mem_range.mp hg)
    obtain rfl := Option.some.inj (hsome.symm.trans hsome')
    exact hok
  have hchosen : ∀ {gs : List Nat} {menus : List (List (Menu K))},
      (∀ g ∈ gs, g < i.groupNum) →
      List.Forall₂ (fun g group => i.menus g = some group) gs menus →
      ∃ chosen : List (Menu K), List.Forall₂ (· ∈ ·) chosen menus ∧
        chosen.map Menu.partitionNum =
          gs.map (fun g => i.partitionNum g i.maxPartitionVertexBit) := by
    intro gs menus hgs hall
    induction hall with
    | nil => exact ⟨[],.nil,rfl⟩
    | @cons g group gs menus hsome _ ih =>
      obtain ⟨chosen,hin,hnums⟩ := ih (fun g hg => hgs g (List.mem_cons_of_mem _ hg))
      obtain ⟨group',hsome',_,menu,hm,hpart⟩ := h.menus (hgs g List.mem_cons_self)
      obtain rfl := Option.some.inj (hsome.symm.trans hsome')
      exact ⟨menu :: chosen,.cons hm hin,by rw [List.map_cons,List.map_cons,hpart,hnums]⟩
  obtain ⟨chosen,hin,hnums⟩ := hchosen (fun g hg => List.mem_range.mp hg)
    (mapM_eq_some_iff.mp hmenus)
  obtain ⟨_,selected,_,_,hplan,_⟩ := exists_plan (P := maxPartitionNum) hmethods
    ⟨chosen,hin,hnums ▸ h.fits⟩
  exact ⟨_,by rw [dp,hmenus,Option.bind_some,hplan,Option.map_some]⟩

end Plannable

def BufferFirst (costs : List (Nat × List (SampleEstimation K))) : Prop :=
  ∀ e ∈ costs, e.1 ≠ 0 ∧ ∃ sc a b, sc ≠ .classExclusiveBufferSampler ∧ 0 ≤ a ∧ a ≤ b ∧
    e.2 = [⟨.classExclusiveBufferSampler,a⟩,⟨sc,b⟩]

omit [FloorSemiring K] [IsStrictOrderedRing K] in
theorem BufferFirst.measured {costs : List (Nat × List (SampleEstimation K))}
    (h : BufferFirst costs) : Measured costs := by
  refine ⟨fun e he => (h e he).1,fun e he => ?_,fun e he m hm => ?_⟩
  · obtain ⟨_,sc,a,b,_,_,_,hmethods⟩ := h e he
    rw [hmethods]
    exact List.cons_ne_nil _ _
  · obtain ⟨_,sc,a,b,_,ha,hab,hmethods⟩ := h e he
    rw [hmethods] at hm
    rcases List.mem_cons.mp hm with rfl | hm
    · exact ha
    · obtain rfl := List.mem_singleton.mp hm
      exact le_trans ha hab

/-- With buffers first every partition of a plan gets an edge buffer, and was evaluated for a size
that is measured. -/
theorem Plannable.exclusive {i : DpInput K} (h : Plannable i)
    (hfirst : ∀ bits, BufferFirst (i.costs bits)) {hint : GraphHint K} (hhint : dp i = some hint)
    {r : Nat × Nat} {sc : SamplerClass} (heval : EvaluatedFor i hint r sc)
    (hrange : ∀ bits, i.costs bits ≠ [] → bits ≤ i.maxPartitionVertexBit) :
    sc = .classExclusiveBufferSampler ∧ ∃ g bits p, i.costs bits ≠ [] ∧
      r = (g * 2 ^ i.groupBits + p * 2 ^ bits,
        min (g * 2 ^ i.groupBits + (p + 1) * 2 ^ bits) i.vNum) ∧
      g * 2 ^ i.groupBits + p * 2 ^ bits < i.vNum := by
  obtain ⟨g,bits,p,methods,hg,hbits,hp,hr,hoffers,hsc⟩ := evaluated_partition hhint heval
  have hne : i.costs bits ≠ [] := by
    intro hnil
    rw [DpInput.offers] at hoffers
    obtain ⟨load,_,hmethods⟩ := Option.bind_eq_some_iff.mp hoffers
    rw [DpInput.degreeMethods,hnil] at hmethods
    cases hmethods
  obtain ⟨load,penalty,e,he,hwalkers,hpenalty,hoffered⟩ := DpInput.offers_measured h.room h.number
    hg hbits h.walkers (h.shuffled bits (hrange bits hne)) (h.measured bits) hne hp
  obtain rfl := Option.some.inj (hoffers.symm.trans hoffered)
  obtain ⟨hexact,hlt⟩ := DpInput.partitionRange_exact h.room h.number hg hbits hp
  refine ⟨?_,g,bits,p,hne,hr.symm.trans hexact,hlt⟩
  obtain ⟨_,other,a,b,hother,ha,hab,hmethods⟩ := hfirst bits e he
  have hcost := DpInput.methodCost_exclusive_le (i := i) hwalkers hpenalty ha hab hother
  have hpos : 0 ≤ i.methodCost load penalty ⟨.classExclusiveBufferSampler,a⟩ :=
    DpInput.methodCost_nonneg hwalkers (le_trans zero_le_one hpenalty) ha
  rw [hmethods] at hsc
  exact Option.some.inj (hsc.symm.trans (choosePartitionSc_first _ _ hpos hcost))

section
variable {D : Type} {walkerPerEdge : D} {graph : Loaded} {cfg : MultiThreadConfig}
  {costs : Nat → List (Nat × List (SampleEstimation D))}
  (hroom : graph.vNum + 2 ^ chooseGroupBits graph.vNum ≤ 2 ^ 32)
  (hnum : chooseGroupNum graph.vNum = ceilDiv graph.vNum (2 ^ chooseGroupBits graph.vNum))
include hroom hnum

theorem shuffleVertexEnd_pos (hfirst : 0 < chooseGroupNum graph.vNum) (hpos : 1 ≤ graph.vNum)
    (hthreads : 1 ≤ cfg.threadNum) (hfew : cfg.threadNum < 2 ^ 8) {bits : Nat} (hbits : bits ≤ 24) :
    0 < (partitionInput walkerPerEdge graph cfg costs).shuffleVertexEnd 0 bits := by
  have hend : (partitionInput walkerPerEdge graph cfg costs).groupVertexEnd 0 =
      min graph.vNum ((0 + 1) * 2 ^ chooseGroupBits graph.vNum) :=
    groupVertexEnd_eq hroom hnum hfirst
  have hq := Nat.two_pow_pos (chooseGroupBits graph.vNum)
  have hpow : 2 ^ bits ≤ 2 ^ 24 := Nat.pow_le_pow_right (by omega) hbits
  have hproduct : 2 ^ bits * cfg.threadNum < 2 ^ 24 * 2 ^ 8 :=
    Nat.mul_lt_mul_of_le_of_lt hpow hfew (by omega)
  have hwork : 0 < 2 ^ bits * cfg.threadNum := Nat.mul_pos (Nat.two_pow_pos bits) hthreads
  rw [DpInput.shuffleVertexEnd,hend]
  change 0 < min _ (u32 (2 ^ bits * cfg.threadNum))
  rw [u32_of_lt hproduct]
  omega

theorem partitionNum_coarsest_le {g : Nat} (hg : g < chooseGroupNum graph.vNum) :
    (partitionInput walkerPerEdge graph cfg costs).partitionNum g (chooseGroupBits graph.vNum) ≤ 1 := by
  have hb : (partitionInput walkerPerEdge graph cfg costs).groupVertexBegin g =
      g * 2 ^ chooseGroupBits graph.vNum := groupVertexBegin_eq hroom hnum hg
  have he : (partitionInput walkerPerEdge graph cfg costs).groupVertexEnd g =
      min graph.vNum ((g + 1) * 2 ^ chooseGroupBits graph.vNum) :=
    groupVertexEnd_eq hroom hnum hg
  have hcount : (partitionInput walkerPerEdge graph cfg costs).partitionNum g
      (chooseGroupBits graph.vNum) = ceilDiv _ (2 ^ chooseGroupBits graph.vNum) :=
    partitionNum_eq hroom hnum hg (Nat.le_refl _)
  rw [hcount,hb,he,ceilDiv_le_mul_iff (Nat.two_pow_pos _),Nat.add_mul]
  omega

end

omit [FloorSemiring K] [IsStrictOrderedRing K] in
/-- When the sizes up to that of the groups are measured, there is a plan for every graph of up to
`2 ^ 31` vertices on up to 255 threads. -/
theorem partitionInput_plannable {walkerPerEdge : K} {graph : Loaded} {cfg : MultiThreadConfig}
    {costs : Nat → List (Nat × List (SampleEstimation K))} (hpos : 1 ≤ graph.vNum)
    (hv : graph.vNum < 2 ^ 32) (hbits : chooseGroupBits graph.vNum ≤ 24)
    (hthreads : 1 ≤ cfg.threadNum) (hfew : cfg.threadNum < 2 ^ 8) (hwalkers : 0 ≤ walkerPerEdge)
    (hmeasured : ∀ bits, Measured (costs bits))
    (hcoarsest : costs (chooseGroupBits graph.vNum) ≠ []) :
    Plannable (partitionInput walkerPerEdge graph cfg costs) := by
  have hgroup : 2 ^ chooseGroupBits graph.vNum ≤ 2 ^ 24 := Nat.pow_le_pow_right (by omega) hbits
  have hq := Nat.two_pow_pos (chooseGroupBits graph.vNum)
  have hstop := (chooseGroupBits_spec hv).1
  have hmany : graph.vNum < (maxGroupNum + 1) * 2 ^ chooseGroupBits graph.vNum :=
    Nat.lt_mul_of_div_lt (Nat.lt_succ_of_le hstop) hq
  have hroom : graph.vNum + 2 ^ chooseGroupBits graph.vNum ≤ 2 ^ 32 := by
    rw [maxGroupNum] at hmany
    omega
  have hnum := chooseGroupNum_eq hroom
  have hmax : (partitionInput walkerPerEdge graph cfg costs).maxPartitionVertexBit =
      chooseGroupBits graph.vNum := Nat.min_eq_right hbits
  have hfirst : 0 < chooseGroupNum graph.vNum := by
    refine Nat.pos_of_ne_zero (fun hzero => ?_)
    have hcover := le_ceilDiv_mul (n := graph.vNum) hq
    rw [← hnum,hzero,Nat.zero_mul] at hcover
    omega
  refine ⟨hroom,hnum,?_,Nat.min_le_right _ _,hwalkers,fun bits hle => ?_,hmeasured,?_,?_⟩
  · rw [hmax]
    exact Nat.min_le_right _ _
  · rw [hmax] at hle
    exact shuffleVertexEnd_pos hroom hnum hfirst hpos hthreads hfew (Nat.le_trans hle hbits)
  · rw [hmax]
    exact hcoarsest
  · have hsum := List.sum_le_card_nsmul ((List.range (chooseGroupNum graph.vNum)).map (fun g =>
      (partitionInput walkerPerEdge graph cfg costs).partitionNum g
        (partitionInput walkerPerEdge graph cfg costs).maxPartitionVertexBit)) 1 (by
      intro n hn
      obtain ⟨g,hg,rfl⟩ := List.mem_map.mp hn
      rw [hmax]
      exact partitionNum_coarsest_le hroom hnum (List.mem_range.mp hg))
    have hgroups : chooseGroupNum graph.vNum ≤ maxGroupNum + 1 := by
      rw [hnum,ceilDiv_le_mul_iff hq]
      exact Nat.le_of_lt hmany
    have hbudget : maxGroupNum + 1 ≤ maxPartitionNum := by decide
    rw [List.length_map,List.length_range,smul_eq_mul,Nat.mul_one] at hsum
    exact Nat.le_trans hsum (Nat.le_trans hgroups hbudget)

end FlashMob.Partition
