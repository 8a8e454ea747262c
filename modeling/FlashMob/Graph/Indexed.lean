import FlashMob.Graph.Sort
import FlashMob.Lib.Indexed

namespace FlashMob.Graph
open Lib.Cursor Lib.Indexed Lib.Loops Lib.Writes

def countStep (counters : List Nat) (u : VertexSortUnit) : Option (List Nat) :=
  if u.degree = 0 then none
  else do
    let n ← counters[u.degree]?
    store counters u.degree (u32 (n + 1))

def sumStep (counters : List Nat) (d : Nat) : Option (List Nat) := do
  let n ← counters[d]?
  let m ← counters[d - 1]?
  store counters d (u32 (n + m))

def placeStep (num : Nat) (st : List Nat × List VertexSortUnit) (u : VertexSortUnit) :
    Option (List Nat × List VertexSortUnit) := do
  let d := u32Sub u.degree 1
  let pos ← st.1[d]?
  let counters ← store st.1 d (u32 (pos + 1))
  let data ← store st.2 (u32Sub (u32Sub num pos) 1) u
  some (counters,data)

/-- `counting_sort` as the machine runs it: in 32 bits, with the assertion, and with every index
into `counters` and `data` checked. The counters are allocated with some content. -/
def checkedCountingSort (fresh : Nat → Nat) (data : List VertexSortUnit) :
    Option (List VertexSortUnit) := do
  let num := data.length
  let high := data.foldl (fun high u => max high u.degree) 0
  let tempData := data
  let allocated := table (u32 (high + 1)) fresh
  let zeroed ← (List.range (high + 1)).foldlM (fun counters d => store counters d 0) allocated
  let counted ← data.foldlM countStep zeroed
  let summed ← (List.range' 1 high).foldlM sumStep counted
  let placed ← tempData.foldlM (placeStep num) (summed,data)
  some placed.2

section
variable {data : List VertexSortUnit} {high : Nat}

theorem zeroed_eq (fresh : Nat → Nat) (n : Nat) :
    (List.range n).foldlM (fun counters d => store counters d 0) (table n fresh) =
      some (table n (fun _ => 0)) := by
  rw [foldlM_refines (fun counters d => Function.update counters d 0) (table n)]
  · congr 1
    apply table_congr
    intro i hi
    rw [List.range_eq_range',foldl_update_range' (fun _ => 0)]
    exact if_pos ⟨Nat.zero_le i,by omega⟩
  · intro before d after hl
    apply store_table
    rw [← List.mem_range,hl]
    simp

theorem counted_eq (hnum : data.length < 2 ^ 32) (hpos : ∀ u ∈ data, u.degree ≠ 0)
    (hhigh : ∀ u ∈ data, u.degree ≤ high) :
    data.foldlM countStep (table (high + 1) (fun _ => 0)) =
      some (table (high + 1) (advance (fun _ => 0) (data.map VertexSortUnit.degree))) := by
  rw [foldlM_refines (fun counters (u : VertexSortUnit) =>
    Function.update counters u.degree (counters u.degree + 1)) (table (high + 1)),foldl_bump]
  intro before u after hl
  have hu : u ∈ data := by simp [hl]
  have hlt : u.degree < high + 1 := Nat.lt_succ_of_le (hhigh u hu)
  have hcount : (before.map VertexSortUnit.degree).count u.degree + 1 < 2 ^ 32 := by
    have hle := List.count_le_length (a := u.degree) (l := before.map VertexSortUnit.degree)
    have hlen := congrArg List.length hl
    simp only [List.length_append,List.length_cons,List.length_map] at hle hlen
    omega
  rw [foldl_bump,countStep,if_neg (hpos u hu),getElem?_table hlt]
  simp only [Option.bind_eq_bind,Option.bind_some]
  rw [advance,Nat.zero_add,u32_of_lt hcount,store_table hlt]

theorem summed_table (hnum : data.length < 2 ^ 32) :
    (List.range' 1 high).foldlM sumStep
        (table (high + 1) (advance (fun _ => 0) (data.map VertexSortUnit.degree))) =
      some (table (high + 1) (degreeCounters data high)) := by
  rw [foldlM_refines (fun (counters : Nat → Nat) d =>
    Function.update counters d (counters d + counters (d - 1))) (table (high + 1)),degreeCounters,
    foldl_bump]
  intro before d after hl
  obtain ⟨n,hn,rfl,hrest⟩ := List.range'_eq_append_iff.mp hl
  obtain ⟨hd,hmore,_⟩ := List.range'_eq_cons_iff.mp hrest.symm
  rw [Nat.mul_one] at hd
  subst hd
  have hd : 1 + n < high + 1 := by omega
  have hsum : starts (data.map VertexSortUnit.degree) (1 + n + 1) < 2 ^ 32 := by
    have hle := starts_le_length (data.map VertexSortUnit.degree) (1 + n + 1)
    rw [List.length_map] at hle
    omega
  rw [sumStep,getElem?_table hd,getElem?_table (by omega)]
  simp only [Option.bind_eq_bind,Option.bind_some,summed_eq]
  rw [if_neg (by omega),if_pos (by omega)]
  rw [starts_succ,Nat.add_comm] at hsum
  rw [Nat.add_sub_cancel_left,Nat.add_comm n 1,u32_of_lt hsum,store_table hd]

/-- The running position of a degree stays within the array. -/
theorem position_lt (hpos : ∀ u ∈ data, u.degree ≠ 0) (hhigh : ∀ u ∈ data, u.degree ≤ high)
    {before after : List VertexSortUnit} {u : VertexSortUnit} (hl : data = before ++ u :: after) :
    advance (degreeCounters data high) (before.map (fun u => u.degree - 1)) (u.degree - 1) <
      data.length := by
  have hu : u ∈ data := by simp [hl]
  have hle := hhigh u hu
  have hnext := starts_add_count_le (data.map (fun u => u.degree - 1))
    (Nat.lt_succ_self (u.degree - 1))
  have hlen := starts_le_length (data.map (fun u => u.degree - 1)) (u.degree - 1 + 1)
  have hcount : (before.map (fun u => u.degree - 1)).count (u.degree - 1) <
      (data.map (fun u => u.degree - 1)).count (u.degree - 1) := by
    rw [hl,List.map_append,List.map_cons,List.count_append,List.count_cons_self]
    omega
  rw [List.length_map] at hlen
  rw [advance,degreeCounters_eq (by omega),starts_pred hpos]
  exact Nat.lt_of_lt_of_le (Nat.add_lt_add_left hcount _) (Nat.le_trans hnext hlen)

/-- `placeStep` on functions, without the limits of the machine. -/
def place (num : Nat) (st : (Nat → Nat) × (Nat → VertexSortUnit)) (u : VertexSortUnit) :
    (Nat → Nat) × (Nat → VertexSortUnit) :=
  let pos := st.1 (u.degree - 1)
  (Function.update st.1 (u.degree - 1) (pos + 1),Function.update st.2 (num - pos - 1) u)

theorem placed_table (hnum : data.length < 2 ^ 32) (hpos : ∀ u ∈ data, u.degree ≠ 0)
    (hhigh : ∀ u ∈ data, u.degree ≤ high) (hmax : high < uintMax) :
    (data.foldlM (placeStep data.length) (table (high + 1) (degreeCounters data high),data)).map
        Prod.snd =
      some (table data.length (data.foldl (place data.length)
        (degreeCounters data high,fun i => data.getD i ⟨0,0⟩)).2) := by
  have huint : uintMax = 2 ^ 32 - 1 := rfl
  let start : (Nat → Nat) × (Nat → VertexSortUnit) :=
    (degreeCounters data high,fun i => data.getD i ⟨0,0⟩)
  let rep : (Nat → Nat) × (Nat → VertexSortUnit) → List Nat × List VertexSortUnit :=
    fun st => (table (high + 1) st.1,table data.length st.2)
  have hstart : (table (high + 1) (degreeCounters data high),data) = rep start := by
    simp only [rep,start,table_getD]
  suffices h : data.foldlM (placeStep data.length) (rep start) =
      some (rep (data.foldl (place data.length) start)) by
    rw [hstart,h]
    rfl
  refine foldlM_refines (place data.length) rep start (fun before u after hl => ?_)
  have hu : u ∈ data := by simp [hl]
  have hone := hpos u hu
  have hle := hhigh u hu
  have hplace := position_lt hpos hhigh hl
  have hbefore : (before.foldl (place data.length) start).1 =
      advance (degreeCounters data high) (before.map (fun u => u.degree - 1)) :=
    congrArg Prod.fst (foldl_claim (fun u : VertexSortUnit => u.degree - 1)
      (fun u pos (arr : Nat → VertexSortUnit) => Function.update arr (data.length - pos - 1) u)
      before (degreeCounters data high) (fun i => data.getD i ⟨0,0⟩))
  rw [← hbefore] at hplace
  generalize before.foldl (place data.length) start = st at hplace ⊢
  have hd : u32Sub u.degree 1 = u.degree - 1 := u32Sub_of_le (by omega) (by omega)
  have hp : u32Sub (u32Sub data.length (st.1 (u.degree - 1))) 1 =
      data.length - st.1 (u.degree - 1) - 1 := by
    rw [u32Sub_of_le (Nat.le_of_lt hplace) hnum]
    exact u32Sub_of_le (by omega) (by omega)
  have hpos32 : u32 (st.1 (u.degree - 1) + 1) = st.1 (u.degree - 1) + 1 := u32_of_lt (by omega)
  have hread : (table (high + 1) st.1)[u.degree - 1]? = some (st.1 (u.degree - 1)) :=
    getElem?_table (by omega)
  simp only [placeStep,place,rep,hd,hread,Option.bind_eq_bind,Option.bind_some,hp,hpos32]
  rw [store_table (by omega),store_table (by omega)]
  rfl

/-- With degrees from one on, below the largest 32-bit number, no index is out of range and
nothing wraps. -/
theorem checkedCountingSort_eq (fresh : Nat → Nat) (hnum : data.length < 2 ^ 32)
    (hpos : ∀ u ∈ data, u.degree ≠ 0) (hmax : ∀ u ∈ data, u.degree < uintMax) :
    checkedCountingSort fresh data = countingSort data := by
  have huint : uintMax = 2 ^ 32 - 1 := rfl
  have hle := foldl_max_le_iff VertexSortUnit.degree data 0
  have hhigh := ((hle _).mp (Nat.le_refl _)).2
  have hless := (hle (uintMax - 1)).mpr ⟨Nat.zero_le _,fun u hu => by
    have := hmax u hu
    omega⟩
  unfold checkedCountingSort countingSort
  simp only
  generalize data.foldl (fun high u => max high u.degree) 0 = high at hhigh hless
  have h32 : u32 (high + 1) = high + 1 := u32_of_lt (by omega)
  have hplaced := placed_table hnum hpos hhigh (by omega)
  rw [if_neg (by
    rw [not_or]
    refine ⟨by omega,?_⟩
    simpa using hpos),h32,zeroed_eq]
  simp only [Option.bind_eq_bind,Option.bind_some]
  rw [counted_eq hnum hpos hhigh]
  simp only [Option.bind_some]
  rw [summed_table hnum]
  simp only [Option.bind_some]
  rw [Option.map_eq_bind] at hplaced
  exact hplaced

/-- With the largest 32-bit degree the counters have no entry, as their number has wrapped to zero. -/
theorem checkedCountingSort_eq_none (fresh : Nat → Nat) {u : VertexSortUnit} (hu : u ∈ data)
    (hrange : ∀ u ∈ data, u.degree ≤ uintMax) (hmax : uintMax ≤ u.degree) :
    checkedCountingSort fresh data = none := by
  have hle := foldl_max_le_iff VertexSortUnit.degree data 0
  have hhigh : data.foldl (fun high u => max high u.degree) 0 = uintMax := by
    apply Nat.le_antisymm
    · exact (hle _).mpr ⟨Nat.zero_le _,hrange⟩
    · exact Nat.le_trans hmax (((hle _).mp (Nat.le_refl _)).2 u hu)
  have hwrap : u32 (uintMax + 1) = 0 := rfl
  have hzero : (List.range (uintMax + 1)).foldlM (fun counters d => store counters d 0)
      (table 0 fresh) = none := by
    rw [List.range_succ_eq_map,List.foldlM_cons,store_eq_none (by simp)]
    rfl
  unfold checkedCountingSort
  simp only
  rw [hhigh,hwrap,hzero]
  rfl

/-- The sort orders the units by falling degree, and those of one degree against their order in
what was given, without an index out of range, exactly when no degree is the largest 32-bit
number. -/
theorem counting_sort_sorts_iff (fresh : Nat → Nat) (hnum : data.length < 2 ^ 32)
    (hrange : ∀ u ∈ data, u.degree < 2 ^ 32) (hpos : ∀ u ∈ data, u.degree ≠ 0) :
    (∃ sorted, checkedCountingSort fresh data = some sorted ∧ DegreeSorted data sorted) ↔
      ∀ u ∈ data, u.degree ≠ 2 ^ 32 - 1 := by
  constructor
  · rintro ⟨sorted,hsome,_⟩ u hu hmax
    rw [checkedCountingSort_eq_none fresh hu (fun u hu => Nat.le_pred_of_lt (hrange u hu))
      (Nat.le_of_eq hmax.symm)] at hsome
    cases hsome
  · intro hne
    have hmax : ∀ u ∈ data, u.degree < uintMax := fun u hu =>
      Nat.lt_of_le_of_ne (Nat.le_pred_of_lt (hrange u hu)) (hne u hu)
    rw [checkedCountingSort_eq fresh hnum hpos hmax]
    exact countingSort_spec hpos hmax

end

theorem counting_sort_sorts_three :
    ∃ sorted, checkedCountingSort id [⟨0,2⟩,⟨1,5⟩,⟨2,2⟩] = some sorted ∧
      DegreeSorted [⟨0,2⟩,⟨1,5⟩,⟨2,2⟩] sorted :=
  (counting_sort_sorts_iff id (by decide) (by decide) (by decide)).mpr (by decide)

theorem counting_sort_fails :
    ¬∃ sorted, checkedCountingSort id [⟨0,2 ^ 32 - 1⟩] = some sorted ∧
      DegreeSorted [⟨0,2 ^ 32 - 1⟩] sorted := by
  rintro ⟨sorted,hsome,_⟩
  rw [checkedCountingSort_eq_none id (List.mem_singleton_self _) (by decide) (by decide)] at hsome
  cases hsome

end FlashMob.Graph
