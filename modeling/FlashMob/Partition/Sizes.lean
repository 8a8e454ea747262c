import FlashMob.Partition.Shuffled

namespace FlashMob.Partition
open FlashMob.Graph Lib.Tiling

variable {D : Type} [Floating D]

theorem searchGroupBits_spec (vNum : Nat) {fuel bits : Nat}
    (hfuel : vNum / 2 ^ (bits + fuel) ≤ maxGroupNum) :
    vNum / 2 ^ searchGroupBits vNum fuel bits ≤ maxGroupNum ∧
      ∀ b, bits ≤ b → b < searchGroupBits vNum fuel bits → maxGroupNum < vNum / 2 ^ b := by
  induction fuel generalizing bits with
  | zero => exact ⟨hfuel,fun b hlo hhi => absurd hhi (Nat.not_lt.mpr hlo)⟩
  | succ fuel ih =>
    rw [searchGroupBits,Nat.shiftRight_eq_div_pow]
    split_ifs with hmany
    · have hnext : vNum / 2 ^ (bits + 1 + fuel) ≤ maxGroupNum := by
        rwa [Nat.add_assoc,Nat.add_comm 1]
      obtain ⟨hstop,hpassed⟩ := ih hnext
      refine ⟨hstop,fun b hlo hhi => ?_⟩
      rcases Nat.lt_or_eq_of_le hlo with hlt | rfl
      · exact hpassed b hlt hhi
      · exact hmany
    · exact ⟨Nat.le_of_not_lt hmany,fun b hlo hhi => absurd hhi (Nat.not_lt.mpr hlo)⟩

theorem chooseGroupBits_spec {vNum : Nat} (hv : vNum < 2 ^ 32) :
    vNum / 2 ^ chooseGroupBits vNum ≤ maxGroupNum ∧
      ∀ b < chooseGroupBits vNum, maxGroupNum < vNum / 2 ^ b := by
  have hzero : vNum / 2 ^ (0 + 32) ≤ maxGroupNum := by
    rw [Nat.zero_add,Nat.div_eq_of_lt hv]
    exact Nat.zero_le _
  obtain ⟨hstop,hpassed⟩ := searchGroupBits_spec vNum hzero
  exact ⟨hstop,fun b hb => hpassed b (Nat.zero_le b) hb⟩

theorem chooseGroupBits_eq {vNum b : Nat} (hv : vNum < 2 ^ 32)
    (hstop : vNum / 2 ^ b ≤ maxGroupNum) (hpassed : ∀ b' < b, maxGroupNum < vNum / 2 ^ b') :
    chooseGroupBits vNum = b := by
  obtain ⟨hstop',hpassed'⟩ := chooseGroupBits_spec hv
  rcases Nat.lt_trichotomy (chooseGroupBits vNum) b with hlt | heq | hgt
  · exact absurd hstop' (Nat.not_le.mpr (hpassed _ hlt))
  · exact heq
  · exact absurd hstop (Nat.not_le.mpr (hpassed' _ hgt))

/-- A group never has more than `2 ^ 25` vertices. -/
theorem chooseGroupBits_le {vNum : Nat} (hv : vNum < 2 ^ 32) : chooseGroupBits vNum ≤ 25 := by
  obtain ⟨_,hpassed⟩ := chooseGroupBits_spec hv
  by_contra hgt
  have hmany := hpassed 25 (Nat.lt_of_not_le hgt)
  rw [maxGroupNum] at hmany
  omega

/-- What is asked of the 32-bit numbers that lay out groups and partitions. -/
structure GroupsExact (i : DpInput D) : Prop where
  number : i.groupNum = ceilDiv i.vNum (2 ^ i.groupBits)
  nonempty : ∀ g < i.groupNum, i.groupVertexBegin g < i.groupVertexEnd g
  tiles : Tiles 0 ((List.range i.groupNum).map
    (fun g => (i.groupVertexBegin g,i.groupVertexEnd g))) i.vNum
  /-- The partition loop ends and cuts the group, for every size that is measured. -/
  cut : ∀ g < i.groupNum, ∀ bits, i.minPartitionVertexBit ≤ bits → bits ≤ i.maxPartitionVertexBit →
    ∀ h : GroupHint D, h.vertexBegin = i.groupVertexBegin g → h.vertexEnd = i.groupVertexEnd g →
      h.partitionBits = bits →
      ∃ row, hintPartitions i.vNum h = some row ∧ Tiles h.vertexBegin row h.vertexEnd

theorem groupsExact_of_room {i : DpInput D} (hroom : i.vNum + 2 ^ i.groupBits ≤ 2 ^ 32)
    (hnum : i.groupNum = ceilDiv i.vNum (2 ^ i.groupBits))
    (hmost : i.maxPartitionVertexBit ≤ i.groupBits) : GroupsExact i := by
  have hbounds : (List.range i.groupNum).map
      (fun g => (i.groupVertexBegin g,i.groupVertexEnd g)) =
      (evenHint D i.vNum i.groupBits i.groupBits).groupHints.map
        (fun h => (h.vertexBegin,h.vertexEnd)) := by
    rw [evenHint,List.map_map,← hnum]
    refine List.map_congr_left (fun g hg => ?_)
    rw [groupVertexBegin_eq hroom hnum (List.mem_range.mp hg),
      groupVertexEnd_eq hroom hnum (List.mem_range.mp hg)]
    rfl
  refine ⟨hnum,fun g hg => ?_,?_,fun g hg bits _ hbits h hb he hp => ?_⟩
  · have := mul_lt_of_lt_ceilDiv (Nat.two_pow_pos i.groupBits) (hnum ▸ hg)
    have := Nat.two_pow_pos i.groupBits
    rw [groupVertexBegin_eq hroom hnum hg,groupVertexEnd_eq hroom hnum hg,Nat.add_mul]
    omega
  · rw [hbounds]
    exact (evenHint_ok hroom (Nat.le_refl _)).groupBounds_tiles
  · have ok := evenHint_ok (D := D) hroom (Nat.le_trans hbits hmost)
    have hget : (evenHint D i.vNum i.groupBits bits).groupHints[g]? =
        some (evenGroup D i.vNum i.groupBits bits g) := evenHint_get (hnum ▸ hg)
    rw [groupVertexBegin_eq hroom hnum hg] at hb
    rw [groupVertexEnd_eq hroom hnum hg] at he
    -- The loop reads the range and the bits of the hint only.
    have hsame : hintPartitions i.vNum h =
        hintPartitions i.vNum (evenGroup D i.vNum i.groupBits bits g) := by
      rw [hintPartitions,hintPartitions,hb,he,hp]
      rfl
    rw [hsame,hb,he]
    exact ⟨_,ok.hintPartitions_eq hget,ok.groupRow_tiles hget⟩

/-- The sizes for `v_num` vertices fit 32 bits when there is room for a largest group behind
them. -/
theorem room_iff {vNum : Nat} (hv : vNum < 2 ^ 32) :
    vNum + 2 ^ chooseGroupBits vNum ≤ 2 ^ 32 ↔ vNum ≤ 2 ^ 32 - 2 ^ 25 := by
  have hpow : 2 ^ chooseGroupBits vNum ≤ 2 ^ 25 :=
    Nat.pow_le_pow_right (by omega) (chooseGroupBits_le hv)
  constructor
  · intro hroom
    by_contra hbig
    have hbits : chooseGroupBits vNum = 25 := by
      refine chooseGroupBits_eq hv (by rw [maxGroupNum]; omega) (fun b hb => ?_)
      have hsmall : 2 ^ 24 * 129 ≤ vNum := by omega
      have hle : 2 ^ b ≤ 2 ^ 24 := Nat.pow_le_pow_right (by omega) (by omega)
      have hmul := Nat.le_trans (Nat.mul_le_mul_right 129 hle) hsmall
      rw [Nat.mul_comm] at hmul
      exact (Nat.le_div_iff_mul_le (Nat.two_pow_pos b)).mpr hmul
    rw [hbits] at hroom
    omega
  · omega

omit [Floating D] in
theorem GroupsExact.room {walkerPerEdge : D} {graph : Loaded} {cfg : MultiThreadConfig}
    {costs : Nat → List (Nat × List (SampleEstimation D))}
    (h : GroupsExact (partitionInput walkerPerEdge graph cfg costs)) (hpos : 1 ≤ graph.vNum)
    (hv : graph.vNum < 2 ^ 32) : graph.vNum ≤ 2 ^ 32 - 2 ^ 25 := by
  have hnum : chooseGroupNum graph.vNum = ceilDiv graph.vNum (2 ^ chooseGroupBits graph.vNum) :=
    h.number
  have hcover := le_ceilDiv_mul (n := graph.vNum) (Nat.two_pow_pos (chooseGroupBits graph.vNum))
  rw [← hnum] at hcover
  refine (room_iff hv).mp (room_of_groups hv (Nat.pos_of_ne_zero (fun hzero => ?_)))
  rw [hzero,Nat.zero_mul] at hcover
  omega

/-- The numbers of the groups are exact when the last group does not reach the largest ids; else
the number of groups wraps to zero. -/
theorem groups_exact_iff (walkerPerEdge : D) (graph : Loaded) (cfg : MultiThreadConfig)
    (costs : Nat → List (Nat × List (SampleEstimation D))) (hpos : 1 ≤ graph.vNum)
    (hv : graph.vNum < 2 ^ 32) :
    GroupsExact (partitionInput walkerPerEdge graph cfg costs) ↔ graph.vNum ≤ 2 ^ 32 - 2 ^ 25 := by
  constructor
  · exact fun h => h.room hpos hv
  · intro hsmall
    have hroom := (room_iff hv).mpr hsmall
    exact groupsExact_of_room hroom (chooseGroupNum_eq hroom) (Nat.min_le_right _ _)

theorem groups_exact_two_vertices :
    let graph : Loaded := ⟨true,2,2,[(0,1)],[0,1],[⟨1,1⟩,⟨0,1⟩],[0,1,2]⟩
    GroupsExact (partitionInput (1 : ℚ) graph ⟨1,1,0⟩ (fun _ => [])) ↔ 2 ≤ 2 ^ 32 - 2 ^ 25 :=
  groups_exact_iff (1 : ℚ) ⟨true,2,2,[(0,1)],[0,1],[⟨1,1⟩,⟨0,1⟩],[0,1,2]⟩ ⟨1,1,0⟩ (fun _ => [])
    (by decide) (by decide)

theorem groups_not_exact : ∃ graph, load (matching (2 ^ 31 - 1)) true = some graph ∧
    graph.vNum = 2 ^ 32 - 2 ∧
    ¬ GroupsExact (partitionInput (1 : ℚ) graph ⟨1,1,0⟩ (fun _ => [])) := by
  obtain ⟨graph,hload,hv⟩ := load_matching (n := 2 ^ 31 - 1) (by decide)
  refine ⟨graph,hload,hv.trans (by decide),fun h => ?_⟩
  have := h.room (by omega) (by omega)
  omega

/-- What is asked of the search for the size of a group. -/
structure GroupLimitKept (vNum : Nat) : Prop where
  /-- The loop has ended by itself. -/
  ends : ¬ maxGroupNum < vNum >>> chooseGroupBits vNum
  number : chooseGroupNum vNum = ceilDiv vNum (2 ^ chooseGroupBits vNum)
  limit : chooseGroupNum vNum ≤ maxGroupNum
  least : ∀ b < chooseGroupBits vNum, maxGroupNum < ceilDiv vNum (2 ^ b)

/-- The loop compares the number of full groups: one more group, which is not full, is too many when
there are as many full groups as allowed. -/
theorem group_limit_iff {vNum : Nat} (hpos : 1 ≤ vNum) (hv : vNum ≤ 2 ^ 31) :
    GroupLimitKept vNum ↔
      ∀ k, ¬ (maxGroupNum * 2 ^ k < vNum ∧ vNum < (maxGroupNum + 1) * 2 ^ k) := by
  have hv' : vNum < 2 ^ 32 := by omega
  have hroom := (room_iff hv').mpr (by omega)
  have hnum := chooseGroupNum_eq hroom
  have hq := Nat.two_pow_pos (chooseGroupBits vNum)
  obtain ⟨hstop,hpassed⟩ := chooseGroupBits_spec hv'
  constructor
  · rintro h k ⟨hlo,hhi⟩
    have hk := Nat.two_pow_pos k
    -- The search stops at this size.
    have hbits : chooseGroupBits vNum = k := by
      refine chooseGroupBits_eq hv' ?_ (fun b hb => ?_)
      · exact Nat.le_of_lt_succ (Nat.div_lt_of_lt_mul (by rwa [Nat.mul_comm]))
      · have hdouble : 2 ^ b * 2 ≤ 2 ^ k := by
          rw [← Nat.pow_succ]
          exact Nat.pow_le_pow_right (by omega) hb
        have hb' := Nat.two_pow_pos b
        refine (Nat.le_div_iff_mul_le hb').mpr ?_
        rw [maxGroupNum] at hlo ⊢
        omega
    have hlimit := h.limit
    rw [hnum,ceilDiv_le_mul_iff hq,hbits] at hlimit
    omega
  · intro h
    refine ⟨?_,hnum,?_,fun b hb => ?_⟩
    · rw [Nat.shiftRight_eq_div_pow]
      exact Nat.not_lt.mpr hstop
    · rw [hnum,ceilDiv_le_mul_iff hq]
      by_contra hmany
      refine h (chooseGroupBits vNum) ⟨Nat.lt_of_not_le hmany,?_⟩
      exact Nat.lt_mul_of_div_lt (Nat.lt_succ_of_le hstop) hq
    · exact Nat.lt_of_lt_of_le (hpassed b hb) (div_le_ceilDiv _ (Nat.two_pow_pos b))

theorem group_limit_three_hundred : GroupLimitKept 300 ↔
    ∀ k, ¬ (maxGroupNum * 2 ^ k < 300 ∧ 300 < (maxGroupNum + 1) * 2 ^ k) :=
  group_limit_iff (by decide) (by decide)

/-- With 257 vertices there are 128 full groups of two vertices, and one vertex more. -/
theorem group_limit_exceeded : ¬ ∀ vNum, 1 ≤ vNum → vNum ≤ 2 ^ 31 → GroupLimitKept vNum := by
  intro h
  have hlimit := (h 257 (by decide) (by decide)).limit
  exact absurd hlimit (by decide)

end FlashMob.Partition
