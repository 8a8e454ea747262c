import FlashMob.Message.Task

namespace FlashMob.Message.MessageTask
open Lib.Cursor Lib.Tiling Lib.Writes FlashMob.Graph

variable {g : Groups} {mt : MessageTask} {origin : Nat → Nat}

theorem Prepared.map_ids (h : mt.Prepared g origin) :
    mt.range.map mt.partitionIds = mt.keys g origin :=
  List.map_congr_left h.ids

/-- The slots are handed out the same way by every loop that starts from prepared cursors. -/
theorem Prepared.slots_eq (h : mt.Prepared g origin) {c : Nat → Nat}
    (hc : ∀ p < mt.partitionNum, c p = starts (mt.keys g origin) p) :
    slots c (mt.keys g origin) = mt.range.map (mt.slot g origin) := by
  rw [map_slot]
  apply slots_congr
  intro p hp
  obtain ⟨m,hm,rfl⟩ := List.mem_map.mp hp
  exact hc _ (h.inside m hm)

/-- A loop over the walkers that takes a slot for each of them. -/
theorem Prepared.claims (h : mt.Prepared g origin) {δ : Type} {c : Nat → Nat}
    (hc : ∀ p < mt.partitionNum, c p = starts (mt.keys g origin) p)
    (f : Nat → Nat → δ → δ) (d : δ) :
    mt.range.foldl (fun (st : (Nat → Nat) × δ) m =>
      (Function.update st.1 (mt.partitionIds m) (st.1 (mt.partitionIds m) + 1),
        f m (st.1 (mt.partitionIds m)) st.2)) (c,d) =
    (advance c (mt.keys g origin),
      mt.range.foldl (fun d m => f m (mt.slot g origin m) d) d) := by
  rw [foldl_claim mt.partitionIds f,h.map_ids,h.slots_eq hc]
  have hzip : mt.range.zip (mt.range.map (mt.slot g origin)) =
      mt.range.map (fun m => (m,mt.slot g origin m)) := by
    conv_lhs => rw [← List.map_id mt.range]
    rw [List.map_map,List.zip_map']
    rfl
  rw [hzip,List.foldl_map]

/-- What `shuffle` leaves: the end of a partition where the next begins, every walker's
content in its slot, and nothing else changed. -/
structure Shuffled (g : Groups) (origin : Nat → Nat) (states : Option (Nat → Nat))
    (mt mt' : MessageTask) : Prop where
  prepared : mt.Prepared g origin
  same : mt' = { mt with
    shuffledMessageEnd := mt'.shuffledMessageEnd
    shuffledMessages := mt'.shuffledMessages
    shuffledStates := mt'.shuffledStates }
  ends : ∀ p < mt.partitionNum, mt'.shuffledMessageEnd p = starts (mt.keys g origin) (p + 1)
  messages : ∀ m ∈ mt.range, mt'.shuffledMessages (mt.slot g origin m) = origin m
  slotStates : ∀ st, states = some st → ∀ m ∈ mt.range,
    mt'.shuffledStates (mt.slot g origin m) = st m
  stale : states = none → mt'.shuffledStates = mt.shuffledStates

/-- Contents stored at the slots of the walkers are found there. -/
theorem stored (f : Nat → Nat) (content : Nat → Nat) {m : Nat} (hm : m ∈ mt.range) :
    mt.range.foldl (fun (msgs : Nat → Nat) m =>
      Function.update msgs (mt.slot g origin m) (content m)) f
      (mt.slot g origin m) = content m := by
  rw [foldl_update (mt.slot g origin)]
  refine writes_of_mem f ?_ (List.mem_map.mpr ⟨m,hm,rfl⟩)
  rw [List.map_map]
  exact map_slot_perm.nodup_iff.mpr List.nodup_range

theorem Prepared.advance_eq (h : mt.Prepared g origin) {p : Nat} (hp : p < mt.partitionNum) :
    advance mt.shuffledMessageEnd (mt.keys g origin) p = starts (mt.keys g origin) (p + 1) := by
  rw [advance,h.ends p hp,starts_succ]

theorem shuffle_shuffled (h : mt.Prepared g origin) (states : Option (Nat → Nat)) :
    Shuffled g origin states mt (mt.shuffle origin states) := by
  cases states with
  | none =>
    have hloop := h.claims h.ends (fun m i msgs => Function.update msgs i (origin m))
      mt.shuffledMessages
    unfold shuffle
    simp only [hloop]
    refine ⟨h,rfl,fun p hp => h.advance_eq hp,fun m hm => stored _ origin hm,?_,fun _ => rfl⟩
    intro _ he
    cases he
  | some st =>
    have hloop := h.claims h.ends (fun m i (d : (Nat → Nat) × (Nat → Nat)) =>
      (Function.update d.1 i (origin m),Function.update d.2 i (st m)))
      (mt.shuffledMessages,mt.shuffledStates)
    rw [foldl_pair (fun (msgs : Nat → Nat) m => Function.update msgs (mt.slot g origin m) (origin m))
      (fun (sts : Nat → Nat) m => Function.update sts (mt.slot g origin m) (st m))] at hloop
    unfold shuffle
    simp only [hloop]
    refine ⟨h,rfl,fun p hp => h.advance_eq hp,fun m hm => stored _ origin hm,?_,?_⟩
    · intro st' he m hm
      cases he
      exact stored _ st hm
    · intro he
      cases he

/-- `update` hands every walker the content of its own slot. -/
theorem Shuffled.update_target {states : Option (Nat → Nat)} {mt' : MessageTask}
    (h : Shuffled g origin states mt mt') (contents target : Nat → Nat) (m : Nat) :
    ((mt'.setMessages contents).update target).2 m =
      if m ∈ mt.range then contents (mt.slot g origin m) else target m := by
  have hloop := h.prepared.claims h.prepared.begins
    (fun m i t => Function.update t m (contents i)) target
  rw [h.same]
  unfold update setMessages
  change (List.foldl _ (mt.shuffledMessageBegin,target) mt.range).2 m = _
  simp only [hloop]
  have hall := foldl_update_range' (fun m => contents (mt.slot g origin m))
    mt.originMessageBegin (mt.originMessageEnd - mt.originMessageBegin) target m
  refine hall.trans ?_
  simp only [range,List.mem_range'_1]

theorem Shuffled.tiles {states : Option (Nat → Nat)} {mt' : MessageTask}
    (h : Shuffled g origin states mt mt') :
    Tiles 0 ((List.range mt.partitionNum).map
      (fun p => (mt'.shuffledMessageBegin p,mt'.shuffledMessageEnd p)))
      (mt.originMessageEnd - mt.originMessageBegin) := by
  have ht := tiles_map_range (fun k => starts_mono (mt.keys g origin) (Nat.le_succ k))
    mt.partitionNum
  rw [starts_zero,starts_eq_length (n := mt.partitionNum),length_keys] at ht
  · have hrows : (List.range mt.partitionNum).map
        (fun p => (mt'.shuffledMessageBegin p,mt'.shuffledMessageEnd p)) =
        (List.range mt.partitionNum).map
        (fun p => (starts (mt.keys g origin) p,starts (mt.keys g origin) (p+1))) := by
      apply List.map_congr_left
      intro p hp
      have hp' := List.mem_range.mp hp
      have hb : mt'.shuffledMessageBegin = mt.shuffledMessageBegin := by rw [h.same]
      rw [hb,h.prepared.begins p hp',h.ends p hp']
    rwa [hrows]
  · intro k hk
    obtain ⟨m,hm,rfl⟩ := List.mem_map.mp hk
    exact h.prepared.inside m hm

theorem slot_bijOn (g : Groups) (origin : Nat → Nat) (mt : MessageTask) :
    Set.BijOn (mt.slot g origin) (Set.Ico mt.originMessageBegin mt.originMessageEnd)
      (Set.Iio (mt.originMessageEnd - mt.originMessageBegin)) := by
  have hp : (mt.range.map (mt.slot g origin)).Perm
      (List.range (mt.originMessageEnd - mt.originMessageBegin)) := map_slot_perm
  refine ⟨?_,?_,?_⟩
  · intro m hm
    have hmem := hp.mem_iff.mp (List.mem_map_of_mem (mem_range.mpr hm))
    exact List.mem_range.mp hmem
  · intro m hm m' hm' he
    exact slot_injOn (mem_range.mpr hm) (mem_range.mpr hm') he
  · intro i hi
    obtain ⟨m,hm,rfl⟩ := List.mem_map.mp (hp.mem_iff.mpr (List.mem_range.mpr hi))
    exact ⟨m,mem_range.mp hm,rfl⟩

/-- The shuffled step is the step of each walker: partitions hold consecutive intervals,
every walker has one slot in the interval of its partition, in walker order, with its own
content, and `update` gives it back what the walk phase made of that content. -/
theorem shuffle_refines_walkers (g : Groups) (mt : MessageTask) (vNum : Nat)
    (originMessages : Nat → Nat) (originStates : Option (Nat → Nat))
    (hnum : mt.partitionNum < 2 ^ 16)
    (hlayout : ∀ v < vNum, g.partitionId mt.socket v < mt.partitionNum)
    (horigin : ∀ m, mt.originMessageBegin ≤ m → m < mt.originMessageEnd →
      originMessages m < vNum) :
    let mt' := (mt.prepare g originMessages).shuffle originMessages originStates
    ∃ slot : Nat → Nat,
      Tiles 0 ((List.range mt.partitionNum).map
        (fun p => (mt'.shuffledMessageBegin p,mt'.shuffledMessageEnd p)))
        (mt.originMessageEnd - mt.originMessageBegin) ∧
      Set.BijOn slot (Set.Ico mt.originMessageBegin mt.originMessageEnd)
        (Set.Iio (mt.originMessageEnd - mt.originMessageBegin)) ∧
      (∀ m, mt.originMessageBegin ≤ m → m < mt.originMessageEnd →
        let p := g.partitionId mt.socket (originMessages m)
        p < mt.partitionNum ∧ mt'.partitionIds m = p ∧
        mt'.shuffledMessageBegin p ≤ slot m ∧ slot m < mt'.shuffledMessageEnd p ∧
        mt'.shuffledMessages (slot m) = originMessages m ∧
        ∀ states, originStates = some states → mt'.shuffledStates (slot m) = states m) ∧
      (∀ m m', mt.originMessageBegin ≤ m → m < m' → m' < mt.originMessageEnd →
        g.partitionId mt.socket (originMessages m) = g.partitionId mt.socket (originMessages m') →
        slot m < slot m') ∧
      ∀ (contents target : Nat → Nat) (m : Nat),
        ((mt'.setMessages contents).update target).2 m =
          if mt.originMessageBegin ≤ m ∧ m < mt.originMessageEnd then contents (slot m)
          else target m := by
  intro mt'
  have hprep : (mt.prepare g originMessages).Prepared g originMessages :=
    prepare_prepared hnum (fun m hm => hlayout _ (horigin m (mem_range.mp hm).1 (mem_range.mp hm).2))
  have hsh : Shuffled g originMessages originStates (mt.prepare g originMessages) mt' :=
    shuffle_shuffled hprep originStates
  have hfields : mt'.shuffledMessageBegin = (mt.prepare g originMessages).shuffledMessageBegin ∧
      mt'.partitionIds = (mt.prepare g originMessages).partitionIds := by
    rw [hsh.same]
    exact ⟨rfl,rfl⟩
  refine ⟨mt.slot g originMessages,hsh.tiles,slot_bijOn g originMessages mt,?_,?_,?_⟩
  · intro m hb he p
    have hm : m ∈ (mt.prepare g originMessages).range := mem_range.mpr ⟨hb,he⟩
    have hp := hprep.inside m hm
    obtain ⟨hlo,hhi⟩ : _ ∧ mt.slot g originMessages m < _ := slot_bounds hm
    refine ⟨hp,?_,?_,?_,hsh.messages m hm,fun st hst => hsh.slotStates st hst m hm⟩
    · rw [hfields.2]
      exact hprep.ids m hm
    · rw [hfields.1,hprep.begins p hp]
      exact hlo
    · rw [hsh.ends p hp]
      exact hhi
  · intro m m' hb hlt he hp
    exact slot_lt_slot hlt (mem_range.mpr ⟨hb,Nat.lt_trans hlt he⟩)
      (mem_range.mpr ⟨by omega,he⟩) hp
  · intro contents target m
    rw [hsh.update_target contents target m]
    have hm : m ∈ (mt.prepare g originMessages).range ↔
      mt.originMessageBegin ≤ m ∧ m < mt.originMessageEnd := mem_range
    simp only [hm]
    rfl

theorem shuffle_refines_four_walkers :
    let g : Groups := ⟨2,3,fun _ => [⟨1,0⟩,⟨2,2⟩]⟩
    let mt : MessageTask := ⟨0,3,2,6,fun _ => 9,fun _ => 9,fun _ => 9,fun _ => 9,fun _ => 9⟩
    let origin : Nat → Nat := fun m => m * 5 % 8
    let mt' := (mt.prepare g origin).shuffle origin (some (fun m => m))
    ∃ slot : Nat → Nat, Set.BijOn slot (Set.Ico 2 6) (Set.Iio 4) ∧
      ∀ contents target : Nat → Nat,
        ((mt'.setMessages contents).update target).2 3 = contents (slot 3) := by
  obtain ⟨slot,_,hbij,_,_,hupdate⟩ := shuffle_refines_walkers ⟨2,3,fun _ => [⟨1,0⟩,⟨2,2⟩]⟩
    ⟨0,3,2,6,fun _ => 9,fun _ => 9,fun _ => 9,fun _ => 9,fun _ => 9⟩ 8
    (fun m => m * 5 % 8) (some (fun m => m))
    (by decide) (by decide) (fun m _ _ => Nat.mod_lt _ (by decide))
  refine ⟨slot,hbij,fun contents target => ?_⟩
  rw [hupdate contents target 3]
  rfl

end FlashMob.Message.MessageTask
