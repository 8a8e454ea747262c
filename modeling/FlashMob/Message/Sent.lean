import FlashMob.Message.Manager

namespace FlashMob.Message
open Lib.Cursor Lib.Tiling FlashMob.Graph

/-- A task that serves the same walkers of the same socket, with other cursors and messages. -/
structure SameRange (mt mt' : MessageTask) : Prop where
  socket : mt'.socket = mt.socket
  partitionNum : mt'.partitionNum = mt.partitionNum
  begins : mt'.originMessageBegin = mt.originMessageBegin
  ends : mt'.originMessageEnd = mt.originMessageEnd

namespace SameRange

theorem refl (mt : MessageTask) : SameRange mt mt := ⟨rfl,rfl,rfl,rfl⟩

variable {mt mt' : MessageTask} (h : SameRange mt mt')
include h

theorem range : mt'.range = mt.range := by
  rw [MessageTask.range,MessageTask.range,h.begins,h.ends]

theorem trans {mt'' : MessageTask} (h' : SameRange mt' mt'') : SameRange mt mt'' :=
  ⟨h'.socket.trans h.socket,h'.partitionNum.trans h.partitionNum,h'.begins.trans h.begins,
    h'.ends.trans h.ends⟩

theorem keys (g : Groups) (origin : Nat → Nat) : mt'.keys g origin = mt.keys g origin := by
  rw [MessageTask.keys,MessageTask.keys,h.range,h.socket]

/-- Where the walkers have their slots depends on the range and the socket only. -/
theorem slot (g : Groups) (origin : Nat → Nat) : mt'.slot g origin = mt.slot g origin := by
  funext m
  rw [MessageTask.slot,MessageTask.slot,h.keys,h.begins]

theorem update {tasks : Tasks} {t : Nat} (ht : tasks t = mt) (t' : Nat) :
    SameRange (tasks t') (Function.update tasks t mt' t') := by
  by_cases he : t' = t
  · subst he
    rwa [Function.update_self,ht]
  · rw [Function.update_of_ne he]
    exact .refl _

end SameRange

theorem Ranged.congr {cfg : MultiThreadConfig} {n : Nat} {tasks tasks' : Tasks}
    (h : Ranged cfg n tasks) (hsame : ∀ t, SameRange (tasks t) (tasks' t)) :
    Ranged cfg n tasks' := by
  rw [Ranged,List.map_congr_left (fun t _ => by rw [(hsame t).begins,(hsame t).ends])]
  exact h

namespace MessageTask
variable {g : Groups} {origin : Nat → Nat} {states : Option (Nat → Nat)} {mt mt' : MessageTask}

theorem Shuffled.sameRange (h : Shuffled g origin states mt mt') : SameRange mt mt' := by
  rw [h.same]
  exact ⟨rfl,rfl,rfl,rfl⟩

theorem shuffle_sameRange (g : Groups) (origin : Nat → Nat) (states : Option (Nat → Nat))
    (mt : MessageTask) : SameRange mt ((mt.prepare g origin).shuffle origin states) := by
  cases states with
  | none => exact ⟨rfl,rfl,rfl,rfl⟩
  | some st => exact ⟨rfl,rfl,rfl,rfl⟩

theorem update_sameRange (mt : MessageTask) (target : Nat → Nat) :
    SameRange mt (mt.update target).1 := ⟨rfl,rfl,rfl,rfl⟩

/-- The messages of the task have been sent to their slots. What the slots hold may have been
overwritten since. -/
def Sent (g : Groups) (origin : Nat → Nat) (states : Option (Nat → Nat)) (mt : MessageTask) : Prop :=
  ∃ mt₀ messages, Shuffled g origin states mt₀ (mt.setMessages messages)

/-- What the parallel loop of `shuffle` does to a task. -/
theorem shuffle_sent (hnum : mt.partitionNum < 2 ^ 16)
    (hin : ∀ m ∈ mt.range, g.partitionId mt.socket (origin m) < mt.partitionNum)
    (states : Option (Nat → Nat)) (hmt' : mt' = (mt.prepare g origin).shuffle origin states) :
    Sent g origin states mt' ∧
      ∀ m ∈ mt'.range, mt'.shuffledMessages (mt'.slot g origin m) = origin m := by
  subst hmt'
  have hs := shuffle_shuffled (prepare_prepared hnum hin) states
  refine ⟨⟨_,_,hs⟩,?_⟩
  rw [hs.sameRange.range,hs.sameRange.slot]
  exact hs.messages

theorem sameRange_of_setMessages {contents : Nat → Nat}
    (h : SameRange mt (mt'.setMessages contents)) : SameRange mt mt' :=
  ⟨h.socket,h.partitionNum,h.begins,h.ends⟩

namespace Sent

theorem setMessages (h : Sent g origin states mt) (contents : Nat → Nat) :
    Sent g origin states (mt.setMessages contents) := h

/-- What `shuffle` left, without the contents of the slots. -/
theorem cursors (h : Sent g origin states mt) :
    (∀ m ∈ mt.range, g.partitionId mt.socket (origin m) < mt.partitionNum) ∧
    (∀ p < mt.partitionNum, mt.shuffledMessageBegin p = starts (mt.keys g origin) p) ∧
    (∀ p < mt.partitionNum, mt.shuffledMessageEnd p = starts (mt.keys g origin) (p + 1)) ∧
    ∀ st, states = some st → ∀ m ∈ mt.range, mt.shuffledStates (mt.slot g origin m) = st m := by
  obtain ⟨mt₀,messages,hs⟩ := h
  have hsame := sameRange_of_setMessages hs.sameRange
  have hbegins : (mt.setMessages messages).shuffledMessageBegin = mt₀.shuffledMessageBegin := by
    rw [hs.same]
  change mt.shuffledMessageBegin = _ at hbegins
  rw [hsame.range,hsame.socket,hsame.partitionNum,hbegins,hsame.keys,hsame.slot]
  exact ⟨hs.prepared.inside,hs.prepared.begins,hs.ends,hs.slotStates⟩

variable (h : Sent g origin states mt) {m : Nat}
include h

theorem slot_bounds (hm : m ∈ mt.range) :
    g.partitionId mt.socket (origin m) < mt.partitionNum ∧
      mt.shuffledMessageBegin (g.partitionId mt.socket (origin m)) ≤ mt.slot g origin m ∧
      mt.slot g origin m < mt.shuffledMessageEnd (g.partitionId mt.socket (origin m)) := by
  obtain ⟨hinside,hbegins,hends,_⟩ := h.cursors
  have hp := hinside m hm
  rw [hbegins _ hp,hends _ hp]
  exact ⟨hp,MessageTask.slot_bounds hm⟩

/-- Every slot of a partition is that of a walker in the partition. -/
theorem exists_walker {p i : Nat} (hp : p < mt.partitionNum) (hlo : mt.shuffledMessageBegin p ≤ i)
    (hhi : i < mt.shuffledMessageEnd p) : ∃ m ∈ mt.range,
      g.partitionId mt.socket (origin m) = p ∧ mt.slot g origin m = i := by
  obtain ⟨_,hbegins,hends,_⟩ := h.cursors
  rw [hbegins p hp] at hlo
  rw [hends p hp] at hhi
  have hlen := starts_le_length (mt.keys g origin) (p + 1)
  rw [length_keys] at hlen
  obtain ⟨m,hm,rfl⟩ := (slot_bijOn g origin mt).surjOn (Set.mem_Iio.mpr (Nat.lt_of_lt_of_le hhi hlen))
  have hrange := mem_range.mpr hm
  obtain ⟨hlo',hhi'⟩ : starts (mt.keys g origin) (g.partitionId mt.socket (origin m)) ≤ _ ∧
    _ < starts (mt.keys g origin) (g.partitionId mt.socket (origin m) + 1) :=
    MessageTask.slot_bounds hrange
  refine ⟨m,hrange,?_,rfl⟩
  -- Intervals of different partitions do not meet.
  rcases Nat.lt_trichotomy (g.partitionId mt.socket (origin m)) p with hlt | heq | hgt
  · have := starts_mono (mt.keys g origin) (Nat.add_one_le_iff.mpr hlt)
    omega
  · exact heq
  · have := starts_mono (mt.keys g origin) (Nat.add_one_le_iff.mpr hgt)
    omega

theorem state {st : Nat → Nat} (hst : states = some st) (hm : m ∈ mt.range) :
    mt.shuffledStates (mt.slot g origin m) = st m := h.cursors.2.2.2 st hst m hm

/-- `update` hands every walker what its slot holds now. -/
theorem update_target (target : Nat → Nat) (m : Nat) : (mt.update target).2 m =
    if m ∈ mt.range then mt.shuffledMessages (mt.slot g origin m) else target m := by
  obtain ⟨mt₀,messages,hs⟩ := h
  have hsame := sameRange_of_setMessages hs.sameRange
  rw [hsame.range,hsame.slot]
  exact hs.update_target mt.shuffledMessages target m

end Sent

end MessageTask

end FlashMob.Message
