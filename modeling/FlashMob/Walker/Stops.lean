import FlashMob.Walker.Once

namespace FlashMob.WalkerManager
open Lib.Runs Lib.Tiling Lib.Update MultiThreadConfig

/-- How many visits of its rotation a thread has begun or finished. -/
def Pc.begun (cfg : MultiThreadConfig) : Pc → Nat
  | .start | .barrier => 0
  | .visit s i | .fetch s i | .work s i _ _ | .leave s i => s * cfg.socketThreadNum + i
  | .left => cfg.threadNum

/-- How many visits a thread has finished with its last fetch-and-add behind it. -/
def Pc.missed (cfg : MultiThreadConfig) : Pc → Nat
  | .leave s i => s * cfg.socketThreadNum + i + 1
  | x => x.begun cfg

/-- The steps a thread still has before it, but for the chunks it may claim. -/
def Pc.rank (cfg : MultiThreadConfig) : Pc → Nat
  | .start => 4 * cfg.threadNum + 4
  | .barrier => 4 * cfg.threadNum + 3
  | .visit s i => 4 * (cfg.threadNum - (s * cfg.socketThreadNum + i)) + 2
  | .fetch s i => 4 * (cfg.threadNum - (s * cfg.socketThreadNum + i)) + 1
  | .work s i w workEnd => 4 * (cfg.threadNum - (s * cfg.socketThreadNum + i)) + 3 + (workEnd - w)
  | .leave s i => 4 * (cfg.threadNum - (s * cfg.socketThreadNum + i))
  | .left => 0

/-- The loop indices of a thread inside its rotation. -/
def Pc.inLoops (cfg : MultiThreadConfig) : Pc → Prop
  | .visit s i | .fetch s i | .work s i _ _ | .leave s i =>
    s < cfg.socketNum ∧ i < cfg.socketThreadNum
  | _ => True

variable (cfg : MultiThreadConfig) (maxEpochWalkerNum activeWalkerNum : Nat)

def unclaimed (pc : Nat → Pc) (r : Nat × Nat) (ts : ThreadState) : Nat :=
  if pc (cfg.threadAt r.1 r.2) = .start then
    activeEnd cfg maxEpochWalkerNum activeWalkerNum r - threadWalkerBegin cfg maxEpochWalkerNum r
  else ts.last - ts.curr

def poolMeasure (p : Pool) : Nat :=
  4 * (∑ r ∈ Finset.range cfg.socketNum ×ˢ Finset.range cfg.socketThreadNum,
    unclaimed cfg maxEpochWalkerNum activeWalkerNum p.pc r (p.threadStates r)) +
  ∑ t ∈ Finset.range cfg.threadNum, (p.pc t).rank cfg

/-- The cursors stay near the ends of their ranges: each thread overshoots a range once. -/
structure Bounded (p : Pool) : Prop where
  loops : ∀ t < cfg.threadNum, (p.pc t).inLoops cfg
  cursors : ∀ r ∈ Finset.range cfg.socketNum ×ˢ Finset.range cfg.socketThreadNum,
    p.pc (cfg.threadAt r.1 r.2) ≠ .start → (p.threadStates r).curr ≤
      maxEpochWalkerNum + chunkSize +
        chunkSize * ∑ t ∈ Finset.range cfg.threadNum, (p.pc t).missed cfg

variable {cfg maxEpochWalkerNum activeWalkerNum} {p p' : Pool} {t : Nat}

theorem afterVisit_rank (hc : cfg.Valid) {s i : Nat} (hs : s < cfg.socketNum)
    (hi : i < cfg.socketThreadNum) :
    (afterVisit cfg s i).rank cfg < (Pc.leave s i).rank cfg := by
  have hlt := hc.threadAt_lt hs hi
  unfold MultiThreadConfig.threadAt at hlt
  unfold afterVisit
  split_ifs with h1 h2
  · simp only [Pc.rank]; omega
  · simp only [Pc.rank,Nat.add_mul,Nat.one_mul]
    have := hc.socketThreadNum_pos
    omega
  · simp only [Pc.rank]; omega

theorem afterVisit_missed (hc : cfg.Valid) {s i : Nat} (hs : s < cfg.socketNum)
    (hi : i < cfg.socketThreadNum) :
    (afterVisit cfg s i).missed cfg = (Pc.leave s i).missed cfg := by
  unfold afterVisit
  split_ifs with h1 h2
  · simp only [Pc.missed,Pc.begun]; omega
  · simp only [Pc.missed,Pc.begun,Nat.add_mul]; omega
  · have hs' : cfg.socketNum = s + 1 := by omega
    simp only [Pc.missed,Pc.begun,hc.threadNum_eq,hs',Nat.add_mul]
    omega

theorem afterVisit_inLoops (hc : cfg.Valid) {s i : Nat} (hs : s < cfg.socketNum) :
    (afterVisit cfg s i).inLoops cfg := by
  unfold afterVisit
  split_ifs with h1 h2
  · exact ⟨hs,h1⟩
  · exact ⟨h2,hc.socketThreadNum_pos⟩
  · trivial

theorem unclaimed_setPc (x : Pc) (hs : p.pc t ≠ .start) (hx : x ≠ .start) (r : Nat × Nat)
    (ts : ThreadState) :
    unclaimed cfg maxEpochWalkerNum activeWalkerNum (Function.update p.pc t x) r ts =
      unclaimed cfg maxEpochWalkerNum activeWalkerNum p.pc r ts := by
  by_cases he : cfg.threadAt r.1 r.2 = t
  · simp [unclaimed,he,hs,hx]
  · simp [unclaimed,Function.update_of_ne he]

theorem measure_setPc {x : Pc} (ht : t < cfg.threadNum) (hs : p.pc t ≠ .start) (hx : x ≠ .start)
    (hr : x.rank cfg < (p.pc t).rank cfg) :
    poolMeasure cfg maxEpochWalkerNum activeWalkerNum (p.setPc t x) <
      poolMeasure cfg maxEpochWalkerNum activeWalkerNum p := by
  have hpcs := sum_update (fun _ y => Pc.rank cfg y) p.pc x (Finset.mem_range.mpr ht)
  simp only [poolMeasure,Pool.setPc_pc,Pool.setPc_threadStates,unclaimed_setPc x hs hx]
  omega

/-- A fetch-and-add pays for the chunk it starts with the walkers it claims. -/
theorem measure_bump (hc : cfg.Valid) {s i c : Nat} {x : Pc} (ht : t < cfg.threadNum)
    (hctl : Control cfg maxEpochWalkerNum activeWalkerNum p) (hpc : p.pc t = .fetch s i)
    (hx : x ≠ .start) (hr : x.rank cfg + 4 * ((p.threadStates (visited cfg t s i)).last - c) <
      (p.pc t).rank cfg + 4 * ((p.threadStates (visited cfg t s i)).last -
        (p.threadStates (visited cfg t s i)).curr)) :
    poolMeasure cfg maxEpochWalkerNum activeWalkerNum
      ((p.setState (visited cfg t s i) ((p.threadStates (visited cfg t s i)).setCurr c)).setPc t x) <
      poolMeasure cfg maxEpochWalkerNum activeWalkerNum p := by
  generalize hv : visited cfg t s i = r at hr ⊢
  have hmem := hv ▸ visited_mem hc t s i
  have hstarted : p.pc (cfg.threadAt r.1 r.2) ≠ .start :=
    hctl.arrived t ht (by simp [hpc,Pc.running]) _ (exists_owner hc hmem).1
  have hpcs := sum_update (fun _ y => Pc.rank cfg y) p.pc x (Finset.mem_range.mpr ht)
  have hstates := sum_update (unclaimed cfg maxEpochWalkerNum activeWalkerNum p.pc)
    p.threadStates ((p.threadStates r).setCurr c) hmem
  simp only [poolMeasure,Pool.setPc_pc,Pool.setPc_threadStates,Pool.setState_pc,
    Pool.setState_threadStates,unclaimed_setPc x (by simp [hpc] : p.pc t ≠ .start) hx]
  simp only [unclaimed,hstarted,if_false,ThreadState.setCurr_last,ThreadState.setCurr_curr]
    at hstates ⊢
  omega

theorem measure_action (hc : cfg.Valid) {o : Option (Nat × Nat)}
    (hctl : Control cfg maxEpochWalkerNum activeWalkerNum p) (hb : Bounded cfg maxEpochWalkerNum p)
    (ht : t < cfg.threadNum) (ha : Action cfg maxEpochWalkerNum activeWalkerNum t p p' o) :
    poolMeasure cfg maxEpochWalkerNum activeWalkerNum p' <
      poolMeasure cfg maxEpochWalkerNum activeWalkerNum p := by
  have hloop := hb.loops t ht
  cases ha with
  | enter hpc =>
    have hpcs := sum_update (fun _ y => Pc.rank cfg y) p.pc .barrier (Finset.mem_range.mpr ht)
    have hrange : ∀ r ∈ Finset.range cfg.socketNum ×ˢ Finset.range cfg.socketThreadNum,
        unclaimed cfg maxEpochWalkerNum activeWalkerNum (Function.update p.pc t .barrier) r
          (Function.update p.threadStates (localRange cfg t) (initialState cfg maxEpochWalkerNum
            activeWalkerNum (localRange cfg t)) r) =
        unclaimed cfg maxEpochWalkerNum activeWalkerNum p.pc r (p.threadStates r) := by
      intro r hr
      by_cases he : cfg.threadAt r.1 r.2 = t
      · have hlocal : localRange cfg t = r := he ▸ (exists_owner hc hr).2
        simp [unclaimed,he,hpc,hlocal,initialState,activeEnd]
      · have hlocal : r ≠ localRange cfg t := by
          rintro rfl
          exact he (cfg.threadAt_socket t)
        simp [unclaimed,Function.update_of_ne he,Function.update_of_ne hlocal]
    simp only [poolMeasure,Pool.setPc_pc,Pool.setPc_threadStates,Pool.setState_pc,
      Pool.setState_threadStates,Finset.sum_congr rfl hrange]
    rw [hpc] at hpcs
    simp only [Pc.rank] at hpcs
    simp only [Pc.rank]
    omega
  | pass hpc hall =>
    exact measure_setPc ht (by simp [hpc]) (by simp) (by simp [hpc,Pc.rank])
  | look hpc hst => exact measure_setPc ht (by simp [hpc]) (by simp) (by simp [hpc,Pc.rank])
  | skip hpc hst => exact measure_setPc ht (by simp [hpc]) (by simp) (by simp [hpc,Pc.rank])
  | claim hpc hts hlt =>
    subst hts
    refine measure_bump hc ht hctl hpc (by simp) ?_
    simp only [hpc,Pc.rank,chunkSize]
    omega
  | miss hpc hts hge =>
    subst hts
    refine measure_bump hc ht hctl hpc (by simp) ?_
    simp only [hpc,Pc.rank]
    omega
  | process hpc hlt =>
    exact measure_setPc ht (by simp [hpc]) (by simp) (by simp only [hpc,Pc.rank]; omega)
  | chunkDone hpc hge =>
    exact measure_setPc ht (by simp [hpc]) (by simp) (by simp only [hpc,Pc.rank]; omega)
  | complete hpc =>
    rw [hpc] at hloop
    have hstates := sum_update (unclaimed cfg maxEpochWalkerNum activeWalkerNum p.pc)
      p.threadStates ((p.threadStates (visited cfg t 0 0)).setStatus .tcomplete)
      (visited_mem hc t 0 0)
    have hsame : unclaimed cfg maxEpochWalkerNum activeWalkerNum p.pc (visited cfg t 0 0)
        ((p.threadStates (visited cfg t 0 0)).setStatus .tcomplete) =
      unclaimed cfg maxEpochWalkerNum activeWalkerNum p.pc (visited cfg t 0 0)
        (p.threadStates (visited cfg t 0 0)) := rfl
    refine Nat.lt_of_lt_of_le (measure_setPc ht (by simp [hpc]) (by simp)
      (by rw [Pool.setState_pc,hpc]; exact afterVisit_rank hc hloop.1 hloop.2)) ?_
    simp only [poolMeasure,Pool.setState_pc,Pool.setState_threadStates]
    omega
  | advance hpc hne =>
    rw [hpc] at hloop
    exact measure_setPc ht (by simp [hpc]) (by simp)
      (by rw [hpc]; exact afterVisit_rank hc hloop.1 hloop.2)

theorem threadWalker_bounds (hc : cfg.Valid) (m : Nat) {r : Nat × Nat}
    (hr : r ∈ Finset.range cfg.socketNum ×ˢ Finset.range cfg.socketThreadNum) :
    threadWalkerBegin cfg m r ≤ m ∧ threadWalkerEnd cfg m r ≤ m := by
  obtain ⟨h1,h2⟩ := Finset.mem_product.mp hr
  have hrow : (threadWalkers cfg m).getD r.1 [] ∈ threadWalkers cfg m := by
    rw [List.getD_eq_getElem _ _ (by rw [length_threadWalkers]; exact Finset.mem_range.mp h1)]
    exact List.getElem_mem _
  have hlen := length_threadWalkers_row cfg m _ hrow
  have hmem : threadWalker cfg m r ∈ (threadWalkers cfg m).flatten := by
    refine List.mem_flatten.mpr ⟨_,hrow,?_⟩
    unfold threadWalker
    rw [List.getD_eq_getElem (l := (threadWalkers cfg m).getD r.1 []) _
      (by rw [hlen]; exact Finset.mem_range.mp h2)]
    exact List.getElem_mem _
  have hb := (threadWalkers_tiles hc m).mem_bounds hmem
  exact ⟨Nat.le_trans hb.2.1 hb.2.2,hb.2.2⟩

theorem entry_bounded (stale : Nat × Nat → ThreadState) :
    Bounded cfg maxEpochWalkerNum (entry stale) :=
  ⟨fun _ _ => trivial,fun _ _ h => absurd rfl h⟩

/-- Moving one cursor, and with it the counter of finished visits, inside the bound. -/
theorem Bounded.move (hc : cfg.Valid) {x : Pc} {r : Nat × Nat} {ts : ThreadState} (hb : Bounded cfg maxEpochWalkerNum p)
    (ht : t < cfg.threadNum) (hx : x.inLoops cfg) (hm : (p.pc t).missed cfg ≤ x.missed cfg)
    (hs : p.pc t ≠ .start ∨ localRange cfg t = r)
    (hcur : ts.curr ≤ (p.threadStates r).curr + chunkSize * (x.missed cfg - (p.pc t).missed cfg) ∧
      p.pc (cfg.threadAt r.1 r.2) ≠ .start ∨ ts.curr ≤ maxEpochWalkerNum + chunkSize) :
    Bounded cfg maxEpochWalkerNum ((p.setState r ts).setPc t x) := by
  have hpcs := sum_update (fun _ y => Pc.missed cfg y) p.pc x (Finset.mem_range.mpr ht)
  constructor
  · intro t' ht'
    by_cases he : t' = t
    · subst he; simpa using hx
    · simpa [Function.update_of_ne he] using hb.loops t' ht'
  · intro r' hr' hstart
    simp only [Pool.setPc_pc,Pool.setPc_threadStates,Pool.setState_pc,Pool.setState_threadStates,
      chunkSize] at hstart hcur ⊢
    by_cases her : r' = r
    · subst her
      rw [Function.update_self]
      rcases hcur with ⟨hcur,hne⟩ | hcur
      · have hold := hb.cursors r' hr' hne
        simp only [chunkSize] at hold
        omega
      · omega
    · rw [Function.update_of_ne her]
      have hne : p.pc (cfg.threadAt r'.1 r'.2) ≠ .start := by
        by_cases he : cfg.threadAt r'.1 r'.2 = t
        · rcases hs with hs | hs
          · rwa [he]
          · exact absurd ((exists_owner hc hr').2.symm.trans (by rw [he,hs])) her
        · rwa [Function.update_of_ne he] at hstart
      have hold := hb.cursors r' hr' hne
      simp only [chunkSize] at hold
      omega

theorem Bounded.setPc (hc : cfg.Valid) {x : Pc} (hb : Bounded cfg maxEpochWalkerNum p)
    (ht : t < cfg.threadNum) (hs : p.pc t ≠ .start) (hx : x.inLoops cfg)
    (hm : (p.pc t).missed cfg ≤ x.missed cfg) : Bounded cfg maxEpochWalkerNum (p.setPc t x) := by
  have hown : p.pc (cfg.threadAt (localRange cfg t).1 (localRange cfg t).2) ≠ .start := by
    rwa [show cfg.threadAt (localRange cfg t).1 (localRange cfg t).2 = t from cfg.threadAt_socket t]
  have h : Bounded cfg maxEpochWalkerNum
      ((p.setState (localRange cfg t) (p.threadStates (localRange cfg t))).setPc t x) :=
    hb.move hc ht hx hm (Or.inr rfl) (Or.inl ⟨Nat.le_add_right _ _,hown⟩)
  simpa [Pool.setState] using h

theorem bounded_action (hc : cfg.Valid) (hactive : activeWalkerNum ≤ maxEpochWalkerNum)
    {o : Option (Nat × Nat)} (hctl : Control cfg maxEpochWalkerNum activeWalkerNum p)
    (hb : Bounded cfg maxEpochWalkerNum p) (ht : t < cfg.threadNum)
    (ha : Action cfg maxEpochWalkerNum activeWalkerNum t p p' o) :
    Bounded cfg maxEpochWalkerNum p' := by
  have hloop := hb.loops t ht
  have hstarted : (p.pc t).running = true → ∀ s i,
      p.pc (cfg.threadAt (visited cfg t s i).1 (visited cfg t s i).2) ≠ .start :=
    fun hr s i => hctl.arrived t ht hr _ (exists_owner hc (visited_mem hc t s i)).1
  cases ha with
  | enter hpc =>
    refine hb.move hc ht trivial (by simp [hpc,Pc.missed,Pc.begun]) (Or.inr rfl) (Or.inr ?_)
    have := (threadWalker_bounds hc maxEpochWalkerNum (localRange_mem hc ht)).1
    simp only [initialState]
    omega
  | pass hpc hall =>
    exact hb.setPc hc ht (by simp [hpc]) ⟨hc.sockets,hc.socketThreadNum_pos⟩
      (by simp [hpc,Pc.missed,Pc.begun])
  | look hpc hst =>
    rw [hpc] at hloop
    exact hb.setPc hc ht (by simp [hpc]) hloop (by simp [hpc,Pc.missed,Pc.begun])
  | skip hpc hst =>
    rw [hpc] at hloop
    exact hb.setPc hc ht (by simp [hpc]) hloop (by simp [hpc,Pc.missed,Pc.begun])
  | @claim s i ts hpc hts hlt =>
    subst hts
    rw [hpc] at hloop
    refine hb.move hc ht hloop (by simp [hpc,Pc.missed,Pc.begun]) (Or.inl (by simp [hpc]))
      (Or.inr ?_)
    have hlast := (hctl.range_ready hc ht (by simp [hpc,Pc.running]) (visited_mem hc t s i)).1
    simp only [activeEnd] at hlast
    simp only [ThreadState.setCurr_curr]
    omega
  | @miss s i ts hpc hts hge =>
    subst hts
    rw [hpc] at hloop
    refine hb.move hc ht hloop (by simp [hpc,Pc.missed,Pc.begun]) (Or.inl (by simp [hpc]))
      (Or.inl ⟨?_,hstarted (by simp [hpc,Pc.running]) s i⟩)
    simp [hpc,Pc.missed,Pc.begun]
  | process hpc hlt =>
    rw [hpc] at hloop
    exact hb.setPc hc ht (by simp [hpc]) hloop (by simp [hpc,Pc.missed,Pc.begun])
  | chunkDone hpc hge =>
    rw [hpc] at hloop
    exact hb.setPc hc ht (by simp [hpc]) hloop (by simp [hpc,Pc.missed,Pc.begun])
  | complete hpc =>
    rw [hpc] at hloop
    refine hb.move hc ht (afterVisit_inLoops hc hloop.1) (by
      rw [hpc,afterVisit_missed hc hloop.1 hloop.2]) (Or.inl (by simp [hpc])) (Or.inl ⟨?_,?_⟩)
    · exact Nat.le_add_right _ _
    · exact hstarted (by simp [hpc,Pc.running]) 0 0
  | advance hpc hne =>
    rw [hpc] at hloop
    exact hb.setPc hc ht (by simp [hpc]) (afterVisit_inLoops hc hloop.1)
      (by rw [hpc,afterVisit_missed hc hloop.1 hloop.2])

def Sound (cfg : MultiThreadConfig) (maxEpochWalkerNum activeWalkerNum : Nat) (p : Pool) : Prop :=
  Control cfg maxEpochWalkerNum activeWalkerNum p ∧ Bounded cfg maxEpochWalkerNum p

theorem sound_step (hc : cfg.Valid) (hactive : activeWalkerNum ≤ maxEpochWalkerNum)
    {o : Option (Nat × Nat)} (h : Sound cfg maxEpochWalkerNum activeWalkerNum p)
    (hs : PoolStep cfg maxEpochWalkerNum activeWalkerNum p o p') :
    Sound cfg maxEpochWalkerNum activeWalkerNum p' ∧
      poolMeasure cfg maxEpochWalkerNum activeWalkerNum p' <
        poolMeasure cfg maxEpochWalkerNum activeWalkerNum p := by
  obtain ⟨t,ht,hw,hs⟩ := hs
  have ha := threadStep_action hw hs
  exact ⟨⟨control_action hc h.1 ht ha,bounded_action hc hactive h.1 h.2 ht ha⟩,
    measure_action hc h.1 h.2 ht ha⟩

theorem missed_le (hc : cfg.Valid) {x : Pc} (hx : x.inLoops cfg) : x.missed cfg ≤ cfg.threadNum := by
  cases x with
  | start | barrier => exact Nat.zero_le _
  | left => exact Nat.le_refl _
  | visit s i | fetch s i | work s i _ _ | leave s i =>
    have := hc.threadAt_lt hx.1 hx.2
    simp only [MultiThreadConfig.threadAt] at this
    simp only [Pc.missed,Pc.begun]
    omega

/-- A room of `chunk_size` walkers for each visit of each thread keeps every
fetch-and-add below 2^32. -/
theorem noWrap_of_room (hc : cfg.Valid)
    (hroom : maxEpochWalkerNum + chunkSize * (cfg.threadNum * cfg.threadNum + 2) < 2 ^ 32)
    (h : Sound cfg maxEpochWalkerNum activeWalkerNum p) (ht : t < cfg.threadNum) :
    NoWrap cfg t p := by
  intro s i hpc
  have hstart := h.1.arrived t ht (by simp [hpc,Pc.running]) _
    (exists_owner hc (visited_mem hc t s i)).1
  have hcur := h.2.cursors _ (visited_mem hc t s i) hstart
  have hsum : ∑ t ∈ Finset.range cfg.threadNum, (p.pc t).missed cfg ≤
      cfg.threadNum * cfg.threadNum := by
    have h := Finset.sum_le_card_nsmul (Finset.range cfg.threadNum)
      (fun t => (p.pc t).missed cfg) cfg.threadNum
      (fun t ht => missed_le hc (h.2.loops t (Finset.mem_range.mp ht)))
    simpa using h
  have hmul := Nat.mul_le_mul_left chunkSize hsum
  rw [Nat.mul_add] at hroom
  omega

/-- A region that has not finished has a thread that can move: only the barrier blocks,
and it opens once the last thread has written its state. -/
theorem exists_threadStep (maxEpochWalkerNum activeWalkerNum : Nat) (hl : ¬AllLeft cfg p) : ∃ t < cfg.threadNum, ∃ r,
    threadStep cfg maxEpochWalkerNum activeWalkerNum t p = some r := by
  simp only [AllLeft,not_forall] at hl
  obtain ⟨t,ht,hne⟩ := hl
  by_cases hstart : ∃ t' < cfg.threadNum, p.pc t' = .start
  · obtain ⟨t',ht',hpc⟩ := hstart
    exact ⟨t',ht',by simp [threadStep,hpc]⟩
  · refine ⟨t,ht,?_⟩
    have hall : ∀ t' < cfg.threadNum, p.pc t' ≠ .start := fun t' ht' he => hstart ⟨t',ht',he⟩
    cases hpc : p.pc t with
    | start => exact absurd hpc (hall t ht)
    | barrier => simp only [threadStep,hpc,if_pos hall]; exact ⟨_,rfl⟩
    | left => exact absurd hpc hne
    | visit s i => simp only [threadStep,hpc]; split <;> exact ⟨_,rfl⟩
    | fetch s i => simp only [threadStep,hpc]; split <;> exact ⟨_,rfl⟩
    | work s i w workEnd => simp only [threadStep,hpc]; split <;> exact ⟨_,rfl⟩
    | leave s i => simp only [threadStep,hpc]; exact ⟨_,rfl⟩

theorem exists_allLeft (hc : cfg.Valid) (hactive : activeWalkerNum ≤ maxEpochWalkerNum)
    (hroom : maxEpochWalkerNum + chunkSize * (cfg.threadNum * cfg.threadNum + 2) < 2 ^ 32)
    (stale : Nat × Nat → ThreadState) :
    ∃ tr p, Run (PoolStep cfg maxEpochWalkerNum activeWalkerNum) (entry stale) tr p ∧
      AllLeft cfg p := by
  refine exists_finished (Sound cfg maxEpochWalkerNum activeWalkerNum) (AllLeft cfg)
    (poolMeasure cfg maxEpochWalkerNum activeWalkerNum)
    (fun p o p' h hs => sound_step hc hactive h hs) ?_ _ ⟨entry_control stale,entry_bounded stale⟩
  intro p hsound hl
  obtain ⟨t,ht,⟨p',o⟩,hs⟩ := exists_threadStep maxEpochWalkerNum activeWalkerNum hl
  exact ⟨o,p',t,ht,noWrap_of_room hc hroom hsound ht,hs⟩

/-- Once all threads have left the region, `process` has been called exactly once for every
active walker and for no other walker, whatever order the atomic steps had. -/
theorem process_walkers_exactly_once (hc : cfg.Valid)
    (hactive : activeWalkerNum ≤ maxEpochWalkerNum) (stale : Nat × Nat → ThreadState)
    (tr : List (Nat × Nat)) (p : Pool)
    (hr : Run (PoolStep cfg maxEpochWalkerNum activeWalkerNum) (entry stale) tr p)
    (hl : AllLeft cfg p) :
    ∀ w, (tr.map Prod.snd).count w = if w < activeWalkerNum then 1 else 0 := by
  obtain ⟨hctl,hacc⟩ := run_inv hc hr
  exact count_of_allLeft hc hactive hctl hacc hl

theorem process_walkers_two_sockets : ∃ tr p,
    Run (PoolStep ⟨4,2,0⟩ 9000 5000) (entry (fun _ => ⟨7,7,.tcomplete⟩)) tr p ∧
      ∀ w, (tr.map Prod.snd).count w = if w < 5000 then 1 else 0 := by
  have hc : MultiThreadConfig.Valid ⟨4,2,0⟩ := ⟨by decide,by decide,by decide⟩
  have hactive : 5000 ≤ 9000 := by decide
  obtain ⟨tr,p,hr,hl⟩ := exists_allLeft hc hactive (by decide) (fun _ => ⟨7,7,.tcomplete⟩)
  exact ⟨tr,p,hr,process_walkers_exactly_once hc hactive _ tr p hr hl⟩

end FlashMob.WalkerManager
