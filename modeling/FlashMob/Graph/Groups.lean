import FlashMob.Graph.Make
import FlashMob.Lib.Loops
import FlashMob.Lib.Tiling

namespace FlashMob.Graph
open Lib.Tiling Lib.Loops

variable {D : Type}

/-- The number of parts of size `q` that cover `n`. -/
def ceilDiv (n q : Nat) : Nat := (n + q - 1) / q

theorem ceilDiv_zero {q : Nat} (hq : 0 < q) : ceilDiv 0 q = 0 := by
  rw [ceilDiv,Nat.div_eq_zero_iff]
  omega

theorem ceilDiv_step {n q : Nat} (hq : 0 < q) (hn : 0 < n) :
    ceilDiv n q = ceilDiv (n - q) q + 1 := by
  rw [ceilDiv,ceilDiv,← Nat.add_div_right _ hq]
  by_cases h : q ≤ n
  · congr 1; omega
  · rw [show n - q + q - 1 + q = (n + q - 1) + (q - n) by omega]
    rw [show (n + q - 1) / q = 1 from Nat.div_eq_of_lt_le (by omega) (by omega),
      show (n + q - 1 + (q - n)) / q = 1 from Nat.div_eq_of_lt_le (by omega) (by omega)]

theorem le_ceilDiv_mul {n q : Nat} (hq : 0 < q) : n ≤ ceilDiv n q * q := by
  have h := Nat.lt_div_mul_add (a := n + q - 1) hq
  rw [ceilDiv]
  omega

theorem mul_lt_of_lt_ceilDiv {n q p : Nat} (hq : 0 < q) (h : p < ceilDiv n q) : p * q < n := by
  have := (Nat.le_div_iff_mul_le hq).mp (show p + 1 ≤ (n + q - 1) / q from h)
  rw [Nat.add_mul] at this
  omega

theorem div_le_ceilDiv (n : Nat) {q : Nat} (hq : 0 < q) : n / q ≤ ceilDiv n q :=
  Nat.div_le_div_right (by omega)

theorem ceilDiv_le_mul_iff {n q m : Nat} (hq : 0 < q) : ceilDiv n q ≤ m ↔ n ≤ m * q := by
  constructor
  · intro h
    exact Nat.le_trans (le_ceilDiv_mul hq) (Nat.mul_le_mul_right q h)
  · intro h
    by_contra hlt
    have := mul_lt_of_lt_ceilDiv hq (Nat.lt_of_not_le hlt)
    omega

theorem ceilDiv_mul {m q : Nat} (hq : 0 < q) : ceilDiv (m * q) q = m := by
  rw [ceilDiv]
  apply Nat.div_eq_of_lt_le
  · omega
  · rw [Nat.add_mul]
    omega

/-- The partition loop cuts what is left of the group into parts of `2 ^ bits` vertices. -/
theorem groupPartitions_eq {vNum bits vertexEnd : Nat} (hend : vertexEnd ≤ vNum)
    (hroom : vNum + 2 ^ bits ≤ 2 ^ 32) (fuel v : Nat) (hfuel : vertexEnd - v ≤ fuel) :
    groupPartitions vNum bits vertexEnd fuel v =
      some ((List.range (ceilDiv (vertexEnd - v) (2 ^ bits))).map
        (fun p => (v + p * 2 ^ bits,min (v + (p + 1) * 2 ^ bits) vNum))) := by
  have hq : 0 < 2 ^ bits := Nat.two_pow_pos bits
  induction fuel generalizing v with
  | zero =>
    rw [groupPartitions,if_neg (by omega),Nat.le_zero.mp hfuel,ceilDiv_zero hq]
    rfl
  | succ fuel ih =>
    rw [groupPartitions]
    by_cases hv : v < vertexEnd
    · have hnext : u32 (v + 2 ^ bits) = v + 2 ^ bits := u32_of_lt (by omega)
      rw [if_pos hv]
      simp only [hnext]
      rw [if_pos (by omega),ih (v + 2 ^ bits) (by omega),Option.map_some,
        ceilDiv_step hq (by omega : 0 < vertexEnd - v),List.range_succ_eq_map,List.map_cons,
        List.map_map]
      rw [show vertexEnd - (v + 2 ^ bits) = vertexEnd - v - 2 ^ bits by omega]
      congr 2
      · simp
      · apply List.map_congr_left
        intro p _
        simp only [Function.comp_apply,Nat.succ_eq_add_one]
        congr 1 <;> ring_nf
    · rw [if_neg hv,show vertexEnd - v = 0 by omega,ceilDiv_zero hq]
      rfl

/-- The layout of the hints that `dp` builds: groups of `2 ^ groupBits` vertices, the last
one cut at `v_num`, each with partitions no larger than a group. -/
structure HintOk (vNum : Nat) (hint : GraphHint D) : Prop where
  room : vNum + 2 ^ hint.groupBits ≤ 2 ^ 32
  length : hint.groupHints.length = hint.groupNum
  number : hint.groupNum = ceilDiv vNum (2 ^ hint.groupBits)
  begins : ∀ (g : Nat) (h : GroupHint D), hint.groupHints[g]? = some h → h.vertexBegin = g * 2 ^ hint.groupBits
  ends : ∀ (g : Nat) (h : GroupHint D), hint.groupHints[g]? = some h →
    h.vertexEnd = min vNum ((g + 1) * 2 ^ hint.groupBits)
  bits : ∀ (g : Nat) (h : GroupHint D), hint.groupHints[g]? = some h → h.partitionBits ≤ hint.groupBits
  nums : ∀ (g : Nat) (h : GroupHint D), hint.groupHints[g]? = some h →
    h.partitionNum = ceilDiv (h.vertexEnd - h.vertexBegin) (2 ^ h.partitionBits)

/-- The ranges of the partitions of a group. -/
def groupRow (vNum : Nat) (h : GroupHint D) : List (Nat × Nat) :=
  (List.range h.partitionNum).map (fun p =>
    (h.vertexBegin + p * 2 ^ h.partitionBits,
      min (h.vertexBegin + (p + 1) * 2 ^ h.partitionBits) vNum))

namespace HintOk
variable {vNum : Nat} {hint : GraphHint D} (ok : HintOk vNum hint)
include ok

theorem begin_lt {g : Nat} (hg : g < hint.groupNum) : g * 2 ^ hint.groupBits < vNum :=
  mul_lt_of_lt_ceilDiv (Nat.two_pow_pos _) (ok.number ▸ hg)

/-- Every group but the last is full. -/
theorem end_le {g : Nat} (hg : g + 1 < hint.groupNum) : (g + 1) * 2 ^ hint.groupBits ≤ vNum :=
  Nat.le_of_lt (ok.begin_lt hg)

theorem lt_groupNum {v : Nat} (hv : v < vNum) : v / 2 ^ hint.groupBits < hint.groupNum := by
  apply Nat.div_lt_of_lt_mul
  have := le_ceilDiv_mul (n := vNum) (Nat.two_pow_pos hint.groupBits)
  rw [← ok.number,Nat.mul_comm] at this
  omega

theorem hintPartitions_eq {g : Nat} {h : GroupHint D} (hh : hint.groupHints[g]? = some h) :
    hintPartitions vNum h = some (groupRow vNum h) := by
  have hpow : 2 ^ h.partitionBits ≤ 2 ^ hint.groupBits :=
    Nat.pow_le_pow_right (by omega) (ok.bits g h hh)
  have hroom := ok.room
  rw [hintPartitions,groupPartitions_eq (by rw [ok.ends g h hh]; omega) (by omega) _ _
    (Nat.le_refl _),groupRow,ok.nums g h hh]

/-- A part that reaches beyond its group reaches beyond the graph. -/
theorem part_fits {g : Nat} {h : GroupHint D} (hh : hint.groupHints[g]? = some h) {p : Nat}
    (hp : p < h.partitionNum) :
    h.vertexBegin + (p + 1) * 2 ^ h.partitionBits ≤ (g + 1) * 2 ^ hint.groupBits := by
  have hq := Nat.two_pow_pos h.partitionBits
  obtain ⟨k,hk⟩ := Nat.pow_dvd_pow 2 (ok.bits g h hh)
  have hlt := mul_lt_of_lt_ceilDiv hq (ok.nums g h hh ▸ hp)
  have hends := ok.ends g h hh
  have hbegins := ok.begins g h hh
  have hgroup : (g + 1) * 2 ^ hint.groupBits = g * 2 ^ hint.groupBits + 2 ^ hint.groupBits := by
    ring
  -- Inside the group the parts fill it exactly.
  have hpk : p * 2 ^ h.partitionBits < k * 2 ^ h.partitionBits := by
    rw [Nat.mul_comm k,← hk]
    omega
  have hle : (p + 1) * 2 ^ h.partitionBits ≤ k * 2 ^ h.partitionBits :=
    Nat.mul_le_mul_right _ (Nat.lt_of_mul_lt_mul_right hpk)
  rw [Nat.mul_comm k,← hk] at hle
  omega

theorem partitionRows_eq :
    partitionRows vNum hint = some (hint.groupHints.map (groupRow vNum)) := by
  rw [partitionRows,if_neg (by rw [ok.length]; omega),← ok.length,List.take_length]
  apply mapM_eq_map
  intro h hm
  obtain ⟨g,hg⟩ := List.getElem?_of_mem hm
  exact ok.hintPartitions_eq hg

/-- The row of a group tiles the group. -/
theorem groupRow_tiles {g : Nat} {h : GroupHint D} (hh : hint.groupHints[g]? = some h) :
    Tiles h.vertexBegin (groupRow vNum h) h.vertexEnd := by
  have hq := Nat.two_pow_pos h.partitionBits
  have hg : g < hint.groupNum := by
    rw [← ok.length]
    exact (List.getElem?_eq_some_iff.mp hh).1
  have hbegin := ok.begin_lt hg
  have hnum := ok.nums g h hh
  have hends := ok.ends g h hh
  have hbegins := ok.begins g h hh
  -- The bounds of the parts, the last of them cut.
  have ht := tiles_map_range (f := fun p => min (h.vertexBegin + p * 2 ^ h.partitionBits)
    h.vertexEnd) (fun p => by simp only [Nat.add_mul]; omega) h.partitionNum
  have hcover := le_ceilDiv_mul (n := h.vertexEnd - h.vertexBegin) hq
  rw [← hnum] at hcover
  have hgroup : (g + 1) * 2 ^ hint.groupBits = g * 2 ^ hint.groupBits + 2 ^ hint.groupBits := by
    ring
  have hsize := Nat.two_pow_pos hint.groupBits
  rw [Nat.zero_mul,Nat.add_zero,show min h.vertexBegin h.vertexEnd = h.vertexBegin by omega,
    show min (h.vertexBegin + h.partitionNum * 2 ^ h.partitionBits) h.vertexEnd = h.vertexEnd by
      omega] at ht
  have hrow : groupRow vNum h = (List.range h.partitionNum).map (fun p =>
      (min (h.vertexBegin + p * 2 ^ h.partitionBits) h.vertexEnd,
        min (h.vertexBegin + (p + 1) * 2 ^ h.partitionBits) h.vertexEnd)) := by
    apply List.map_congr_left
    intro p hp
    have hlt := mul_lt_of_lt_ceilDiv hq (hnum ▸ List.mem_range.mp hp)
    have hfit := ok.part_fits hh (List.mem_range.mp hp)
    simp only [Prod.mk.injEq]
    omega
  rw [hrow]
  exact ht

theorem groupBounds_tiles :
    Tiles 0 (hint.groupHints.map (fun h => (h.vertexBegin,h.vertexEnd))) vNum := by
  have ht := tiles_map_range (f := fun g => min vNum (g * 2 ^ hint.groupBits))
    (fun g => by simp only [Nat.add_mul]; omega) hint.groupNum
  have hcover := le_ceilDiv_mul (n := vNum) (Nat.two_pow_pos hint.groupBits)
  rw [← ok.number] at hcover
  rw [Nat.zero_mul,Nat.min_zero,Nat.min_eq_left hcover] at ht
  have hrows : hint.groupHints.map (fun h => (h.vertexBegin,h.vertexEnd)) =
      (List.range hint.groupNum).map (fun g => (min vNum (g * 2 ^ hint.groupBits),
        min vNum ((g + 1) * 2 ^ hint.groupBits))) := by
    apply List.ext_getElem (by simp [ok.length])
    intro g hg hg'
    have hlt : g < hint.groupHints.length := by simpa using hg
    have hget := List.getElem?_eq_getElem hlt
    have hbegin := ok.begin_lt (ok.length ▸ hlt)
    simp only [List.getElem_map,List.getElem_range,ok.begins g _ hget,ok.ends g _ hget,
      Nat.min_eq_right (Nat.le_of_lt hbegin)]
  rwa [hrows]

/-- The partitions of all groups are consecutive and cover every vertex. -/
theorem partitions_tiles : Tiles 0 (hint.groupHints.map (groupRow vNum)).flatten vNum := by
  apply tiles_flatten ok.groupBounds_tiles
  apply List.forall₂_map_left_iff.mpr
  apply List.forall₂_map_right_iff.mpr
  apply List.forall₂_same.mpr
  intro h hm _
  obtain ⟨g,hg⟩ := List.getElem?_of_mem hm
  exact ok.groupRow_tiles hg

/-- No partition is empty. -/
theorem partition_nonempty {r : Nat × Nat}
    (hr : r ∈ (hint.groupHints.map (groupRow vNum)).flatten) : r.1 < r.2 := by
  obtain ⟨row,hrow,hr⟩ := List.mem_flatten.mp hr
  obtain ⟨h,hm,rfl⟩ := List.mem_map.mp hrow
  obtain ⟨p,hp,rfl⟩ := List.mem_map.mp hr
  obtain ⟨g,hg⟩ := List.getElem?_of_mem hm
  have hq := Nat.two_pow_pos h.partitionBits
  have hlt := mul_lt_of_lt_ceilDiv hq (ok.nums g h hg ▸ List.mem_range.mp hp)
  have hends := ok.ends g h hg
  simp only [Nat.add_mul]
  omega

/-- A full group has as many partitions as its header makes room for. -/
theorem full_group {g : Nat} {h : GroupHint D} (hh : hint.groupHints[g]? = some h)
    (hg : g + 1 < hint.groupNum) :
    h.partitionNum = 2 ^ (hint.groupBits - h.partitionBits) := by
  have hle := ok.end_le hg
  have hgroup : (g + 1) * 2 ^ hint.groupBits = g * 2 ^ hint.groupBits + 2 ^ hint.groupBits := by
    ring
  have hpos := Nat.two_pow_pos hint.groupBits
  have hsize : h.vertexEnd - h.vertexBegin =
      2 ^ (hint.groupBits - h.partitionBits) * 2 ^ h.partitionBits := by
    rw [← Nat.pow_add,Nat.sub_add_cancel (ok.bits g h hh),ok.ends g h hh,ok.begins g h hh]
    omega
  rw [ok.nums g h hh,hsize,ceilDiv_mul (Nat.two_pow_pos _)]

/-- The offset of a group's header counts the partitions of the groups before it. -/
theorem offset_eq {g : Nat} (hg : g < hint.groupNum) :
    ((hint.groupHints.take g).map (fun h => 2 ^ (hint.groupBits - h.partitionBits))).sum =
      ((hint.groupHints.take g).map (groupRow vNum)).flatten.length := by
  rw [List.length_flatten,List.map_map]
  congr 1
  apply List.map_congr_left
  intro h hm
  obtain ⟨j,hj⟩ := List.getElem?_of_mem hm
  have hlt : j < g := by
    have := (List.getElem?_eq_some_iff.mp hj).1
    rw [List.length_take] at this
    omega
  rw [List.getElem?_take_of_lt hlt] at hj
  simp [groupRow,ok.full_group hj (by omega)]

end HintOk

theorem groupHeaders_getElem? (groupBits : Nat) (hs : List (GroupHint D)) (offset g : Nat)
    (hsum : offset + ((hs.take g).map (fun h => 2 ^ (groupBits - h.partitionBits))).sum < 2 ^ 32) :
    (groupHeaders groupBits offset hs)[g]? = hs[g]?.map (fun h => ⟨h.partitionBits,
      offset + ((hs.take g).map (fun h => 2 ^ (groupBits - h.partitionBits))).sum⟩) := by
  induction hs generalizing offset g with
  | nil => rfl
  | cons h hs ih =>
    cases g with
    | zero => simp [groupHeaders]
    | succ g =>
      simp only [List.take_succ_cons,List.map_cons,List.sum_cons] at hsum ⊢
      rw [groupHeaders,u32_of_lt (by omega),List.getElem?_cons_succ,List.getElem?_cons_succ,
        ih _ _ (by omega)]
      simp only [Nat.add_assoc]

/-- The tables that `make` builds for a hint. -/
def groupsOf (hint : GraphHint D) : Groups :=
  ⟨hint.groupBits,2 ^ hint.groupBits - 1,fun _ => groupHeaders hint.groupBits 0 hint.groupHints⟩

/-- The lookup finds the partition whose range holds the vertex. -/
theorem HintOk.lookup {vNum : Nat} {hint : GraphHint D} (ok : HintOk vNum hint)
    (hfew : (hint.groupHints.map (groupRow vNum)).flatten.length < 2 ^ 32) (s : Nat) {v : Nat}
    (hv : v < vNum) :
    ∃ r, (hint.groupHints.map (groupRow vNum)).flatten[(groupsOf hint).partitionId s v]? =
      some r ∧ r.1 ≤ v ∧ v < r.2 := by
  have hg := ok.lt_groupNum hv
  obtain ⟨h,hh⟩ : ∃ h, hint.groupHints[v / 2 ^ hint.groupBits]? = some h :=
    ⟨_,List.getElem?_eq_getElem (by rw [ok.length]; exact hg)⟩
  have hq := Nat.two_pow_pos h.partitionBits
  have hmod := Nat.mod_lt v (Nat.two_pow_pos hint.groupBits)
  have hdiv := Nat.div_add_mod v (2 ^ hint.groupBits)
  have hends := ok.ends _ h hh
  have hbegins := ok.begins _ h hh
  have hgroup : (v / 2 ^ hint.groupBits + 1) * 2 ^ hint.groupBits =
    2 ^ hint.groupBits * (v / 2 ^ hint.groupBits) + 2 ^ hint.groupBits := by ring
  rw [Nat.mul_comm] at hbegins
  -- The place of the vertex inside its group names one of the group's partitions.
  have hp : v % 2 ^ hint.groupBits / 2 ^ h.partitionBits < h.partitionNum := by
    rw [ok.nums _ h hh]
    apply Nat.div_lt_of_lt_mul
    have := le_ceilDiv_mul (n := h.vertexEnd - h.vertexBegin) hq
    rw [Nat.mul_comm] at this
    omega
  have hrow : (hint.groupHints.map (groupRow vNum))[v / 2 ^ hint.groupBits]? =
      some (groupRow vNum h) := by
    rw [List.getElem?_map,hh]
    rfl
  have hoffset := ok.offset_eq hg
  have hflat := getElem?_flatten_row hrow (p := v % 2 ^ hint.groupBits / 2 ^ h.partitionBits)
    (by simpa [groupRow] using hp)
  rw [← List.map_take,← hoffset] at hflat
  have hfound : (groupRow vNum h)[v % 2 ^ hint.groupBits / 2 ^ h.partitionBits]? =
      some (h.vertexBegin + v % 2 ^ hint.groupBits / 2 ^ h.partitionBits * 2 ^ h.partitionBits,
        min (h.vertexBegin + (v % 2 ^ hint.groupBits / 2 ^ h.partitionBits + 1) *
          2 ^ h.partitionBits) vNum) := by
    rw [groupRow,List.getElem?_map,List.getElem?_range hp]
    rfl
  have hlen := (List.getElem?_eq_some_iff.mp (hflat.trans hfound)).1
  have hsmall := Nat.lt_trans (Nat.lt_of_le_of_lt (Nat.le_add_right _ _) hlen) hfew
  have hid : (groupsOf hint).partitionId s v =
      ((hint.groupHints.take (v / 2 ^ hint.groupBits)).map
        (fun h => 2 ^ (hint.groupBits - h.partitionBits))).sum +
        v % 2 ^ hint.groupBits / 2 ^ h.partitionBits := by
    simp only [Groups.partitionId,groupsOf,Nat.shiftRight_eq_div_pow,
      Nat.and_two_pow_sub_one_eq_mod,List.getD_eq_getElem?_getD]
    rw [groupHeaders_getElem? _ _ _ _ (by rw [Nat.zero_add]; exact hsmall),hh]
    simp only [Option.map_some,Option.getD_some,Nat.zero_add]
    rw [Nat.add_comm,u32_of_lt (Nat.lt_trans hlen hfew)]
  rw [hid,hflat,hfound]
  refine ⟨_,rfl,?_,?_⟩
  · have := Nat.div_mul_le_self (v % 2 ^ hint.groupBits) (2 ^ h.partitionBits)
    simp only
    omega
  · have := Nat.lt_div_mul_add (a := v % 2 ^ hint.groupBits) hq
    simp only [Nat.add_mul]
    omega

end FlashMob.Graph
