import FlashMob.Graph.Lookup
import FlashMob.Lib.Cursor
import FlashMob.Lib.Tiling
import FlashMob.Lib.Writes

namespace FlashMob.Message
open Lib.Cursor Lib.Tiling Lib.Writes FlashMob.Graph

/-- `MessageTask`; an array is a function of its index. The array `partition_ids` is one for
all tasks, but a task uses only the entries of its own walkers. -/
structure MessageTask where
  socket : Nat
  partitionNum : Nat
  originMessageBegin : Nat
  originMessageEnd : Nat
  shuffledMessageBegin : Nat → Nat
  shuffledMessageEnd : Nat → Nat
  shuffledMessages : Nat → Nat
  shuffledStates : Nat → Nat
  partitionIds : Nat → Nat

namespace MessageTask

def range (mt : MessageTask) : List Nat :=
  List.range' mt.originMessageBegin (mt.originMessageEnd - mt.originMessageBegin)

/-- The 16-bit partition of a message. -/
def narrowId (g : Groups) (mt : MessageTask) (msg : Nat) : Nat := u16 (g.partitionId mt.socket msg)

/-- Counts the messages of each partition, then turns the counts into first positions. -/
def prepare (g : Groups) (originMessages : Nat → Nat) (mt : MessageTask) : MessageTask :=
  let zeroed := (List.range' 0 mt.partitionNum).foldl
    (fun ends p => Function.update ends p 0) mt.shuffledMessageEnd
  let counted := mt.range.foldl (fun (st : (Nat → Nat) × (Nat → Nat)) m =>
    let p := mt.narrowId g (originMessages m)
    (Function.update st.1 p (st.1 p + 1), Function.update st.2 m p)) (zeroed,mt.partitionIds)
  let placed := (List.range' 0 mt.partitionNum).foldl (fun (st : (Nat → Nat) × Nat) p =>
    (Function.update st.1 p st.2, st.2 + counted.1 p)) (mt.shuffledMessageBegin,0)
  { mt with
    shuffledMessageBegin := placed.1
    shuffledMessageEnd := (List.range' 0 mt.partitionNum).foldl
      (fun ends p => Function.update ends p (placed.1 p)) counted.1
    partitionIds := counted.2 }

/-- Sends the messages, and their states if there are any, to their partitions. -/
def shuffle (originMessages : Nat → Nat) (originStates : Option (Nat → Nat))
    (mt : MessageTask) : MessageTask :=
  match originStates with
  | none =>
    let st := mt.range.foldl (fun (st : (Nat → Nat) × (Nat → Nat)) m =>
      let p := mt.partitionIds m
      let shuffled := st.1 p
      (Function.update st.1 p (shuffled + 1), Function.update st.2 shuffled (originMessages m)))
      (mt.shuffledMessageEnd,mt.shuffledMessages)
    { mt with shuffledMessageEnd := st.1, shuffledMessages := st.2 }
  | some states =>
    let st := mt.range.foldl (fun (st : (Nat → Nat) × (Nat → Nat) × (Nat → Nat)) m =>
      let p := mt.partitionIds m
      let shuffled := st.1 p
      (Function.update st.1 p (shuffled + 1),
        Function.update st.2.1 shuffled (originMessages m),
        Function.update st.2.2 shuffled (states m)))
      (mt.shuffledMessageEnd,mt.shuffledMessages,mt.shuffledStates)
    { mt with shuffledMessageEnd := st.1, shuffledMessages := st.2.1, shuffledStates := st.2.2 }

/-- Writes the messages back to the walkers, consuming `shuffled_message_begin`. -/
def update (mt : MessageTask) (targetMessages : Nat → Nat) : MessageTask × (Nat → Nat) :=
  let st := mt.range.foldl (fun (st : (Nat → Nat) × (Nat → Nat)) m =>
    let p := mt.partitionIds m
    let shuffled := st.1 p
    (Function.update st.1 p (shuffled + 1),
      Function.update st.2 m (mt.shuffledMessages shuffled)))
    (mt.shuffledMessageBegin,targetMessages)
  ({ mt with shuffledMessageBegin := st.1 }, st.2)

def setMessages (mt : MessageTask) (contents : Nat → Nat) : MessageTask :=
  { mt with shuffledMessages := contents }

/-- The partitions of the task's walkers, in walker order. -/
def keys (g : Groups) (originMessages : Nat → Nat) (mt : MessageTask) : List Nat :=
  mt.range.map (fun m => g.partitionId mt.socket (originMessages m))

/-- The slot of walker `m`: behind the walkers of its partition that come before it. -/
def slot (g : Groups) (originMessages : Nat → Nat) (mt : MessageTask) (m : Nat) : Nat :=
  (slots (starts (mt.keys g originMessages)) (mt.keys g originMessages)).getD
    (m - mt.originMessageBegin) 0

section
variable {g : Groups} {mt : MessageTask} {origin : Nat → Nat}

theorem mem_range {m : Nat} :
    m ∈ mt.range ↔ mt.originMessageBegin ≤ m ∧ m < mt.originMessageEnd := by
  rw [range,List.mem_range'_1]
  omega

@[simp] theorem length_range : mt.range.length = mt.originMessageEnd - mt.originMessageBegin := by
  simp [range]

@[simp] theorem length_keys :
    (mt.keys g origin).length = mt.originMessageEnd - mt.originMessageBegin := by
  simp [keys]

theorem index_lt {m : Nat} (hm : m ∈ mt.range) :
    m - mt.originMessageBegin < (mt.keys g origin).length := by
  have := mem_range.mp hm
  simp only [length_keys]
  omega

theorem getElem?_keys {m : Nat} (hm : m ∈ mt.range) :
    (mt.keys g origin)[m - mt.originMessageBegin]? =
      some (g.partitionId mt.socket (origin m)) := by
  have hb := mem_range.mp hm
  rw [List.getElem?_eq_getElem (index_lt hm)]
  simp [keys,range,Nat.add_sub_cancel' hb.1]

theorem map_slot : mt.range.map (mt.slot g origin) =
    slots (starts (mt.keys g origin)) (mt.keys g origin) := by
  refine List.ext_getElem (by simp) (fun i hi hi' => ?_)
  have hi₀ : i < mt.originMessageEnd - mt.originMessageBegin := by simpa using hi
  have hm : mt.originMessageBegin + i ∈ mt.range := mem_range.mpr (by omega)
  rw [List.getElem_map]
  simp only [range,List.getElem_range',Nat.one_mul,slot,Nat.add_sub_cancel_left]
  rw [List.getD_eq_getElem]

/-- The slots of the walkers are the places of the task's arrays. -/
theorem map_slot_perm : (mt.range.map (mt.slot g origin)).Perm
    (List.range (mt.originMessageEnd - mt.originMessageBegin)) := by
  rw [map_slot]
  simpa using slots_starts_perm (mt.keys g origin)

theorem slot_injOn {m m' : Nat} (hm : m ∈ mt.range) (hm' : m' ∈ mt.range)
    (h : mt.slot g origin m = mt.slot g origin m') : m = m' :=
  List.inj_on_of_nodup_map (map_slot_perm.nodup_iff.mpr List.nodup_range) hm hm' h

theorem slot_bounds {m : Nat} (hm : m ∈ mt.range) :
    starts (mt.keys g origin) (g.partitionId mt.socket (origin m)) ≤ mt.slot g origin m ∧
      mt.slot g origin m < starts (mt.keys g origin) (g.partitionId mt.socket (origin m) + 1) := by
  obtain ⟨hi,hk⟩ := List.getElem?_eq_some_iff.mp (getElem?_keys hm)
  have h := Lib.Cursor.slot_bounds (starts (mt.keys g origin)) (mt.keys g origin) _ hi
  rw [hk] at h
  rwa [starts_succ]

/-- Walkers of one partition keep their order. -/
theorem slot_lt_slot {m m' : Nat} (hlt : m < m') (hm : m ∈ mt.range) (hm' : m' ∈ mt.range)
    (hp : g.partitionId mt.socket (origin m) = g.partitionId mt.socket (origin m')) :
    mt.slot g origin m < mt.slot g origin m' := by
  have hb := mem_range.mp hm
  obtain ⟨hi,hk⟩ := List.getElem?_eq_some_iff.mp (getElem?_keys hm)
  obtain ⟨hi',hk'⟩ := List.getElem?_eq_some_iff.mp (getElem?_keys hm')
  refine Lib.Cursor.slot_lt_slot _ _ (by omega) hi' ?_
  rw [hk,hk',hp]

end

/-- What `prepare` leaves: the partitions of the walkers, and all cursors of a partition
behind the walkers of the partitions before it. -/
structure Prepared (g : Groups) (origin : Nat → Nat) (mt : MessageTask) : Prop where
  ids : ∀ m ∈ mt.range, mt.partitionIds m = g.partitionId mt.socket (origin m)
  inside : ∀ m ∈ mt.range, g.partitionId mt.socket (origin m) < mt.partitionNum
  begins : ∀ p < mt.partitionNum, mt.shuffledMessageBegin p = starts (mt.keys g origin) p
  ends : ∀ p < mt.partitionNum, mt.shuffledMessageEnd p = starts (mt.keys g origin) p

section
variable {g : Groups} {mt : MessageTask} {origin : Nat → Nat}

theorem prepare_partitionIds {m : Nat} (hm : m ∈ mt.range) :
    (mt.prepare g origin).partitionIds m = mt.narrowId g (origin m) := by
  have hb := mem_range.mp hm
  unfold prepare
  simp only [foldl_count (fun m => mt.narrowId g (origin m))
    (fun m ids => Function.update ids m (mt.narrowId g (origin m)))]
  rw [range,foldl_update_range' (fun m => mt.narrowId g (origin m))]
  exact if_pos (by omega)

theorem prepare_prepared (hnum : mt.partitionNum < 2 ^ 16)
    (hin : ∀ m ∈ mt.range, g.partitionId mt.socket (origin m) < mt.partitionNum) :
    (mt.prepare g origin).Prepared g origin := by
  have hnarrow : ∀ m ∈ mt.range,
      mt.narrowId g (origin m) = g.partitionId mt.socket (origin m) :=
    fun m hm => u16_of_lt (Nat.lt_trans (hin m hm) hnum)
  have hkeys : mt.range.map (fun m => mt.narrowId g (origin m)) = mt.keys g origin :=
    List.map_congr_left hnarrow
  have hcounts : ∀ p < mt.partitionNum,
      advance ((List.range' 0 mt.partitionNum).foldl (fun ends p => Function.update ends p 0)
        mt.shuffledMessageEnd) (mt.keys g origin) p = (mt.keys g origin).count p := by
    intro p hp
    rw [advance,foldl_update_range' (fun _ => 0)]
    simp [hp]
  have hids := fun m (hm : m ∈ mt.range) =>
    show (mt.prepare g origin).partitionIds m = mt.narrowId g (origin m) from
      prepare_partitionIds hm
  revert hids
  unfold prepare
  simp only [foldl_count (fun m => mt.narrowId g (origin m))
    (fun m ids => Function.update ids m (mt.narrowId g (origin m))),hkeys,
    foldl_starts (mt.keys g origin) mt.shuffledMessageBegin hcounts]
  intro hids
  refine ⟨fun m hm => (hids m hm).trans (hnarrow m hm),hin,?_,?_⟩
  · intro p hp
    exact if_pos hp
  · intro p hp
    have hp' : p < mt.partitionNum := hp
    simp only [foldl_update_range' (fun p =>
      if p < mt.partitionNum then starts (mt.keys g origin) p else mt.shuffledMessageBegin p)]
    rw [if_pos (by omega),if_pos hp']
    rfl

end

end MessageTask

end FlashMob.Message
