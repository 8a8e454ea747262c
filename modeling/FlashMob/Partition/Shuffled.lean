import FlashMob.Graph.Loads
import FlashMob.Partition.Agree

namespace FlashMob.Partition
open FlashMob.Graph

variable {D : Type} [Floating D]

structure DpInput.Evaluates (i : DpInput D) (g bits : Nat) : Prop where
  group : g < i.groupNum
  least : i.minPartitionVertexBit ≤ bits
  most : bits ≤ i.maxPartitionVertexBit
  measured : i.costs bits ≠ []

/-- The hint cuts group `g` the way a candidate with these bits does. -/
structure DpInput.Cuts (i : DpInput D) (hint : GraphHint D) (g bits : Nat) : Prop where
  group : g < hint.groupNum
  hinted : ∃ h, hint.groupHints[g]? = some h ∧ h.vertexBegin = i.groupVertexBegin g ∧
    h.vertexEnd = i.groupVertexEnd g ∧ h.partitionBits = bits

/-- `dp` models as shuffled the range that `make` shuffles: it is not empty, so that the load
of every partition in it is defined, and it ends where the dealing of `make` ends. -/
structure DpInput.ModelsShuffle (i : DpInput D) (bits : Nat) (made : Made) : Prop where
  nonempty : 0 < i.shuffleVertexEnd 0 bits
  defined : ∀ p < i.maxShufflePartitionNum, (i.partitionLoad 0 bits p).isSome
  range : i.shuffleVertexEnd 0 bits = made.partitionEnd (made.shufflePartitionNum - 1)

theorem searchGroupBits_le (vNum fuel bits : Nat) :
    searchGroupBits vNum fuel bits ≤ bits + fuel := by
  induction fuel generalizing bits with
  | zero => exact Nat.le_refl _
  | succ fuel ih =>
    rw [searchGroupBits]
    split_ifs
    · have := ih (bits + 1)
      omega
    · omega

/-- With too many vertices for one more group in 32 bits, the number of groups wraps to zero. -/
theorem room_of_groups {vNum : Nat} (hv : vNum < 2 ^ 32) (hgroups : 0 < chooseGroupNum vNum) :
    vNum + 2 ^ chooseGroupBits vNum ≤ 2 ^ 32 := by
  by_contra hwrap
  have hbits : 2 ^ chooseGroupBits vNum ≤ 2 ^ 32 :=
    Nat.pow_le_pow_right (by omega) (searchGroupBits_le vNum 32 0)
  have hrest : u32 (vNum + 2 ^ chooseGroupBits vNum) = vNum + 2 ^ chooseGroupBits vNum - 2 ^ 32 := by
    rw [u32,Nat.mod_eq_sub_mod (by omega),Nat.mod_eq_of_lt (by omega)]
  have hzero : chooseGroupNum vNum = 0 := by
    rw [chooseGroupNum,hrest,u32Sub_of_le (by omega) (by omega)]
    exact Nat.div_eq_of_lt (by omega)
  omega

omit [Floating D] in
theorem first_row {vNum : Nat} {hint : GraphHint D} {rows : List (List (Nat × Nat))}
    (hrows : partitionRows vNum hint = some rows) {h : GroupHint D}
    (hh : hint.groupHints[0]? = some h) (hgroups : 0 < hint.groupNum) :
    ∃ row rest, rows = row :: rest ∧ hintPartitions vNum h = some row := by
  rw [partitionRows] at hrows
  split_ifs at hrows
  obtain ⟨n,hn⟩ := Nat.exists_eq_succ_of_ne_zero (Nat.ne_of_gt hgroups)
  cases hhints : hint.groupHints with
  | nil => simp [hhints] at hh
  | cons first others =>
    rw [hhints,List.getElem?_cons_zero,Option.some.injEq] at hh
    subst hh
    rw [hhints,hn,List.take_succ_cons,List.mapM_cons] at hrows
    obtain ⟨row,hrow,hrest⟩ := Option.bind_eq_some_iff.mp hrows
    obtain ⟨rest,_,hrest⟩ := Option.bind_eq_some_iff.mp hrest
    exact ⟨row,rest,(Option.some.inj hrest).symm,hrow⟩

/-- The first partitions of a group that starts at zero end at its end, or at a multiple of
their size when there are more. -/
theorem first_parts_end {vNum groupBits bits k : Nat} (hbits : bits ≤ groupBits) :
    min (min k (ceilDiv (min vNum (2 ^ groupBits)) (2 ^ bits)) * 2 ^ bits) vNum =
      min (min vNum (2 ^ groupBits)) (2 ^ bits * k) := by
  have hq := Nat.two_pow_pos bits
  obtain ⟨m,hm⟩ := Nat.pow_dvd_pow 2 hbits
  have hcover := le_ceilDiv_mul (n := min vNum (2 ^ groupBits)) hq
  rw [Nat.mul_comm (2 ^ bits) k]
  rcases Nat.lt_or_ge k (ceilDiv (min vNum (2 ^ groupBits)) (2 ^ bits)) with hlt | hge
  · have := mul_lt_of_lt_ceilDiv hq hlt
    rw [Nat.min_eq_left (Nat.le_of_lt hlt)]
    omega
  · have hfew : ceilDiv (min vNum (2 ^ groupBits)) (2 ^ bits) ≤ m := by
      by_contra hmore
      have := mul_lt_of_lt_ceilDiv hq (Nat.lt_of_not_le hmore)
      rw [Nat.mul_comm m,← hm] at this
      omega
    have hinside := Nat.mul_le_mul_right (2 ^ bits) hfew
    have hall := Nat.mul_le_mul_right (2 ^ bits) hge
    rw [Nat.mul_comm m,← hm] at hinside
    rw [Nat.min_eq_right hge]
    omega

section
variable {i : DpInput D} {hint : GraphHint D} {bits : Nat} {cfg : MultiThreadConfig}
  {schedule : List (Nat × Nat) → List (Nat × Nat)} {graph : Loaded} {made : Made}

omit [Floating D] in
theorem make_shuffles (hroom : i.vNum + 2 ^ i.groupBits ≤ 2 ^ 32)
    (hnum : i.groupNum = ceilDiv i.vNum (2 ^ i.groupBits)) (hgroups : 0 < i.groupNum)
    (hv : graph.vNum = i.vNum) (hbits : bits ≤ i.groupBits) (hcut : i.Cuts hint 0 bits)
    (hmake : make cfg hint schedule graph = some made) :
    made.partitionEnd (made.shufflePartitionNum - 1) =
      min (min i.vNum (2 ^ i.groupBits)) (2 ^ bits * cfg.threadNum) := by
  have hpow : 2 ^ bits ≤ 2 ^ i.groupBits := Nat.pow_le_pow_right (by omega) hbits
  have hbegin := groupVertexBegin_eq hroom hnum hgroups
  have hend := groupVertexEnd_eq hroom hnum hgroups
  rw [Nat.zero_mul] at hbegin
  rw [Nat.zero_add,Nat.one_mul] at hend
  obtain ⟨hgroup,h,hh,hb,he,rfl⟩ := hcut
  obtain ⟨rows,k,units,hrows,⟨hk,hk0⟩,_,rfl⟩ := make_cases hmake
  obtain ⟨row,rest,rfl,hrow⟩ := first_row hrows hh hgroup
  rw [hintPartitions,groupPartitions_eq (by omega) (by omega) _ _ (Nat.le_refl _),hb,he,hbegin,
    hend,hv,Nat.sub_zero] at hrow
  have hrow' := (Option.some.inj hrow).symm
  have hlen : row.length = ceilDiv (min i.vNum (2 ^ i.groupBits)) (2 ^ h.partitionBits) := by
    simp [hrow']
  rw [List.headD_cons,hlen] at hk
  have hlt : k - 1 < row.length := by omega
  have hget : (row ++ rest.flatten).getD (k-1) (0,0) = row.getD (k-1) (0,0) := by
    rw [List.getD_append _ _ _ _ hlt]
  change ((row :: rest).flatten.getD (k-1) (0,0)).2 = _
  rw [List.flatten_cons,hget,← first_parts_end hbits,← hk,hrow',
    List.getD_eq_getElem _ _ (by rw [← hrow']; exact hlt)]
  simp only [List.getElem_map,List.getElem_range,Nat.zero_add]
  rw [show k - 1 + 1 = k by omega]

end

/-- The product that `dp` computes in 32 bits covers the threads modulo a power of two. -/
theorem shuffle_product {bits : Nat} (hbits : bits ≤ 32) (threadNum : Nat) :
    u32 (2 ^ bits * threadNum) = 2 ^ bits * (threadNum % 2 ^ (32 - bits)) := by
  have hpow : 2 ^ bits * 2 ^ (32 - bits) = 2 ^ 32 := by
    rw [← Nat.pow_add,Nat.add_sub_cancel' hbits]
  rw [u32,← hpow,Nat.mul_mod_mul_left]

/-- The two ends of the shuffled range agree when the threads are few enough for 32 bits, or
when what is left of them still covers the group. -/
theorem shuffle_ends_agree_iff {vNum groupBits bits threadNum : Nat} (hv : 0 < vNum)
    (hv32 : vNum < 2 ^ 32) (hbits : bits ≤ 32) (hthreads : 0 < threadNum) :
    (0 < min (min vNum (2 ^ groupBits)) (u32 (2 ^ bits * threadNum)) ∧
      min (min vNum (2 ^ groupBits)) (u32 (2 ^ bits * threadNum)) =
        min (min vNum (2 ^ groupBits)) (2 ^ bits * threadNum)) ↔
    threadNum < 2 ^ (32 - bits) ∨
      ceilDiv (min vNum (2 ^ groupBits)) (2 ^ bits) ≤ threadNum % 2 ^ (32 - bits) := by
  have hq := Nat.two_pow_pos bits
  have hgroup : 0 < min vNum (2 ^ groupBits) := by
    have := Nat.two_pow_pos groupBits
    omega
  have hall : 0 < 2 ^ bits * threadNum := Nat.mul_pos hq hthreads
  rw [shuffle_product hbits]
  constructor
  · rintro ⟨_,hsame⟩
    rcases Nat.lt_or_ge threadNum (2 ^ (32 - bits)) with hfew | hmany
    · exact Or.inl hfew
    · right
      have hbig : 2 ^ 32 ≤ 2 ^ bits * threadNum := by
        have hpow : 2 ^ bits * 2 ^ (32 - bits) = 2 ^ 32 := by
          rw [← Nat.pow_add,Nat.add_sub_cancel' hbits]
        rw [← hpow]
        exact Nat.mul_le_mul_left _ hmany
      by_contra hshort
      have := mul_lt_of_lt_ceilDiv hq (Nat.lt_of_not_le hshort)
      rw [Nat.mul_comm] at this
      omega
  · rintro (hfew | hcover)
    · rw [Nat.mod_eq_of_lt hfew]
      omega
    · have hparts := le_ceilDiv_mul (n := min vNum (2 ^ groupBits)) hq
      have hleft := Nat.mul_le_mul_left (2 ^ bits) hcover
      have hle := Nat.mul_le_mul_left (2 ^ bits) (Nat.mod_le threadNum (2 ^ (32 - bits)))
      rw [Nat.mul_comm] at hparts
      omega

/-- The range that `dp` takes as shuffled is the one that `make` shuffles unless the size of
the partitions times the number of threads leaves 32 bits and what is left is too short. -/
theorem dp_models_shuffle_iff (walkerPerEdge : D) (graph : Loaded) (cfg : MultiThreadConfig)
    (costs : Nat → List (Nat × List (SampleEstimation D))) (bits : Nat) (hint : GraphHint D)
    (schedule : List (Nat × Nat) → List (Nat × Nat)) (made : Made) (hv : 1 ≤ graph.vNum)
    (hv32 : graph.vNum < 2 ^ 32) (hthreads : 1 ≤ cfg.threadNum)
    (hbits : (partitionInput walkerPerEdge graph cfg costs).Evaluates 0 bits)
    (hcut : (partitionInput walkerPerEdge graph cfg costs).Cuts hint 0 bits)
    (hmake : make cfg hint schedule graph = some made) :
    (partitionInput walkerPerEdge graph cfg costs).ModelsShuffle bits made ↔
      cfg.threadNum < 2 ^ (32 - bits) ∨
        ceilDiv (min graph.vNum (2 ^ chooseGroupBits graph.vNum)) (2 ^ bits) ≤
          cfg.threadNum % 2 ^ (32 - bits) := by
  have hroom := room_of_groups hv32 hbits.group
  have hnum := chooseGroupNum_eq hroom
  have hmost : bits ≤ min 24 (chooseGroupBits graph.vNum) := hbits.most
  have hend : (partitionInput walkerPerEdge graph cfg costs).groupVertexEnd 0 =
      min graph.vNum ((0 + 1) * 2 ^ chooseGroupBits graph.vNum) :=
    groupVertexEnd_eq hroom hnum hbits.group
  have hshuffle : (partitionInput walkerPerEdge graph cfg costs).shuffleVertexEnd 0 bits =
      min (min graph.vNum (2 ^ chooseGroupBits graph.vNum)) (u32 (2 ^ bits * cfg.threadNum)) := by
    rw [DpInput.shuffleVertexEnd,hend,Nat.zero_add,Nat.one_mul]
    rfl
  have hmade := make_shuffles hroom hnum hbits.group rfl
    (Nat.le_trans hmost (Nat.min_le_right _ _)) hcut hmake
  rw [← shuffle_ends_agree_iff hv hv32 (by omega) hthreads,← hshuffle]
  constructor
  · rintro ⟨hpos,_,hrange⟩
    exact ⟨hpos,hrange.trans hmade⟩
  · rintro ⟨hpos,hrange⟩
    refine ⟨hpos,?_,hrange.trans hmade.symm⟩
    intro p hp
    rw [DpInput.partitionLoad,if_pos ⟨rfl,hp⟩,if_neg (Nat.ne_of_gt hpos)]
    rfl

def evenGroup (D : Type) [Floating D] (vNum groupBits bits g : Nat) : GroupHint D where
  vertexBegin := g * 2 ^ groupBits
  vertexEnd := min vNum ((g + 1) * 2 ^ groupBits)
  partitionBits := bits
  partitionNum := ceilDiv (min vNum ((g + 1) * 2 ^ groupBits) - g * 2 ^ groupBits) (2 ^ bits)
  totalTime := Floating.ofNat 0
  stepTime := Floating.ofNat 0
  partitionLevel := 0

def evenHint (D : Type) [Floating D] (vNum groupBits bits : Nat) : GraphHint D where
  groupBits := groupBits
  groupNum := ceilDiv vNum (2 ^ groupBits)
  groupHints := (List.range (ceilDiv vNum (2 ^ groupBits))).map (evenGroup D vNum groupBits bits)
  partitionSamplerClass := []

theorem evenHint_get {vNum groupBits bits g : Nat} (hg : g < ceilDiv vNum (2 ^ groupBits)) :
    (evenHint D vNum groupBits bits).groupHints[g]? = some (evenGroup D vNum groupBits bits g) := by
  rw [evenHint,List.getElem?_map,List.getElem?_range hg]
  rfl

theorem evenHint_ok {vNum groupBits bits : Nat} (hroom : vNum + 2 ^ groupBits ≤ 2 ^ 32)
    (hbits : bits ≤ groupBits) : HintOk vNum (evenHint D vNum groupBits bits) := by
  have hget : ∀ (g : Nat) (h : GroupHint D),
      (evenHint D vNum groupBits bits).groupHints[g]? = some h →
        evenGroup D vNum groupBits bits g = h := by
    intro g h hg
    obtain ⟨g',hg',rfl⟩ := Option.map_eq_some_iff.mp ((List.getElem?_map ..).symm.trans hg)
    obtain ⟨_,rfl⟩ := List.getElem?_eq_some_iff.mp hg'
    rw [List.getElem_range]
  refine ⟨hroom,by simp [evenHint],rfl,?_,?_,?_,?_⟩ <;> intro g h hg <;>
    obtain rfl := hget g h hg
  · rfl
  · rfl
  · exact hbits
  · rfl

theorem evenHint_cuts {i : DpInput D} (bits : Nat) (hroom : i.vNum + 2 ^ i.groupBits ≤ 2 ^ 32)
    (hnum : i.groupNum = ceilDiv i.vNum (2 ^ i.groupBits)) (hgroups : 0 < i.groupNum) :
    i.Cuts (evenHint D i.vNum i.groupBits bits) 0 bits := by
  have hfirst : 0 < ceilDiv i.vNum (2 ^ i.groupBits) := hnum ▸ hgroups
  refine ⟨hfirst,evenGroup D i.vNum i.groupBits bits 0,?_,?_,?_,rfl⟩
  · exact evenHint_get hfirst
  · exact (groupVertexBegin_eq hroom hnum hgroups).symm
  · exact (groupVertexEnd_eq hroom hnum hgroups).symm

theorem exists_made {walkerPerEdge : D} {graph : Loaded} {cfg : MultiThreadConfig}
    {costs : Nat → List (Nat × List (SampleEstimation D))} {bits : Nat}
    (schedule : List (Nat × Nat) → List (Nat × Nat)) (hv : 1 ≤ graph.vNum)
    (hv32 : graph.vNum < 2 ^ 32) (hthreads : 1 ≤ cfg.threadNum)
    (hbits : (partitionInput walkerPerEdge graph cfg costs).Evaluates 0 bits) :
    ∃ hint made, (partitionInput walkerPerEdge graph cfg costs).Cuts hint 0 bits ∧
      make cfg hint schedule graph = some made := by
  have hroom := room_of_groups hv32 hbits.group
  have hnum := chooseGroupNum_eq hroom
  have hmost : bits ≤ min 24 (chooseGroupBits graph.vNum) := hbits.most
  have ok : HintOk graph.vNum (evenHint D graph.vNum (chooseGroupBits graph.vNum) bits) :=
    evenHint_ok hroom (Nat.le_trans hmost (Nat.min_le_right _ _))
  obtain ⟨k,units,hmake,_⟩ : ∃ k units, make cfg _ schedule graph = some _ ∧ _ :=
    ok.make_isSome schedule hv hthreads
  exact ⟨_,_,evenHint_cuts bits hroom hnum hbits.group,hmake⟩

theorem dp_models_shuffle_one_edge :
    let graph : Loaded := ⟨true,2,2,[(0,1)],[0,1],[⟨1,1⟩,⟨0,1⟩],[0,1,2]⟩
    let cfg : MultiThreadConfig := ⟨1,1,0⟩
    let costs : Nat → List (Nat × List (SampleEstimation ℚ)) :=
      fun _ => [(1,[⟨.classDirectSampler,3⟩])]
    ∃ (hint : GraphHint ℚ) (made : Made), make cfg hint id graph = some made ∧
      ((partitionInput 1 graph cfg costs).ModelsShuffle 0 made ↔
        1 < 2 ^ 32 ∨ ceilDiv (min 2 (2 ^ chooseGroupBits 2)) (2 ^ 0) ≤ 1 % 2 ^ 32) := by
  intro graph cfg costs
  have hbits : (partitionInput 1 graph cfg costs).Evaluates 0 0 :=
    ⟨by decide,by decide,by decide,by simp [partitionInput,costs]⟩
  obtain ⟨hint,made,hcut,hmade⟩ := exists_made id (by decide) (by decide) (by decide) hbits
  exact ⟨hint,made,hmade,dp_models_shuffle_iff 1 graph cfg costs 0 hint id made (by decide)
    (by decide) (by decide) hbits hcut hmade⟩

/-- With 256 threads and partitions of `2 ^ 24` vertices the product wraps to zero, and the
divisions by the length of the range are not defined. -/
theorem dp_shuffle_range_empty :
    let cfg : MultiThreadConfig := ⟨256,1,0⟩
    let costs : Nat → List (Nat × List (SampleEstimation ℚ)) :=
      fun _ => [(1,[⟨.classDirectSampler,3⟩])]
    ∃ graph hint made, load (matching (129 * 2 ^ 22)) true = some graph ∧
      (partitionInput 1 graph cfg costs).Evaluates 0 24 ∧
      (partitionInput 1 graph cfg costs).Cuts hint 0 24 ∧
      make cfg hint id graph = some made ∧
      ¬(partitionInput 1 graph cfg costs).ModelsShuffle 24 made := by
  intro cfg costs
  obtain ⟨graph,hload,hv⟩ := load_matching (n := 129 * 2 ^ 22) (by decide)
  have hchoose : chooseGroupBits graph.vNum = 24 := by rw [hv]; decide +kernel
  have hgroups : 0 < chooseGroupNum graph.vNum := by rw [hv]; decide +kernel
  have hbits : (partitionInput 1 graph cfg costs).Evaluates 0 24 := by
    refine ⟨hgroups,?_,?_,by simp [partitionInput,costs]⟩
    · change min minPartitionBits (chooseGroupBits graph.vNum) ≤ 24
      rw [hchoose]
      decide
    · change 24 ≤ min 24 (chooseGroupBits graph.vNum)
      rw [hchoose]
      decide
  obtain ⟨hint,made,hcut,hmade⟩ := exists_made id (by omega) (by omega) (by decide) hbits
  refine ⟨graph,hint,made,hload,hbits,hcut,hmade,?_⟩
  rintro ⟨hpos,_,_⟩
  have hwraps : u32 (2 ^ 24 * 256) = 0 := by decide
  have hzero : (partitionInput 1 graph cfg costs).shuffleVertexEnd 0 24 ≤ u32 (2 ^ 24 * 256) :=
    Nat.min_le_right _ _
  omega

end FlashMob.Partition
