import FlashMob.Walker.Stops
import Mathlib.Algebra.Order.Floor.Div

namespace FlashMob.WalkerManager
open Lib.Runs Lib.Tiling Lib.Update MultiThreadConfig

variable (cfg : MultiThreadConfig) (maxEpochWalkerNum activeWalkerNum : Nat)

/-- One atomic step of one of the threads, on cursors that may wrap. -/
def WrapStep (p : Pool) (o : Option (Nat × Nat)) (p' : Pool) : Prop :=
  ∃ t < cfg.threadNum, threadStep cfg maxEpochWalkerNum activeWalkerNum t p = some (p', o)

def chunkNum (r : Nat × Nat) : Nat :=
  (activeEnd cfg maxEpochWalkerNum activeWalkerNum r -
    threadWalkerBegin cfg maxEpochWalkerNum r) ⌈/⌉ chunkSize

/-- Behind the chunks of every range one more chunk for each thread stays below 2^32. -/
def Roomy : Prop :=
  ∀ r ∈ Finset.range cfg.socketNum ×ˢ Finset.range cfg.socketThreadNum,
    threadWalkerBegin cfg maxEpochWalkerNum r +
      chunkSize * (chunkNum cfg maxEpochWalkerNum activeWalkerNum r + cfg.threadNum) < 2 ^ 32

/-- The iteration of its rotation in which a thread looks at range `r`. -/
def turn (t : Nat) (r : Nat × Nat) : Nat :=
  (r.1 + (cfg.socketNum - cfg.socketId t)) % cfg.socketNum * cfg.socketThreadNum +
    (r.2 + (cfg.socketThreadNum - cfg.socketOffset t)) % cfg.socketThreadNum

def Pc.overshot (t : Nat) (r : Nat × Nat) (x : Pc) : Nat :=
  if turn cfg t r < x.missed cfg then 1 else 0

def overshoots (p : Pool) (r : Nat × Nat) : Nat :=
  ∑ t ∈ Finset.range cfg.threadNum, (p.pc t).overshot cfg t r

/-- A cursor moves in whole chunks, past the end of its range once for each thread at most. -/
def Tight (p : Pool) : Prop :=
  ∀ r ∈ Finset.range cfg.socketNum ×ˢ Finset.range cfg.socketThreadNum,
    p.pc (cfg.threadAt r.1 r.2) ≠ .start →
    ∃ k ≤ chunkNum cfg maxEpochWalkerNum activeWalkerNum r + overshoots cfg p r,
      (p.threadStates r).curr = threadWalkerBegin cfg maxEpochWalkerNum r + chunkSize * k

variable {cfg maxEpochWalkerNum activeWalkerNum} {p p' : Pool} {t : Nat}

theorem Roomy.mono {n : Nat} (h : Roomy cfg maxEpochWalkerNum activeWalkerNum)
    (hle : n ≤ activeWalkerNum) : Roomy cfg maxEpochWalkerNum n := by
  intro r hr
  have hactive : activeEnd cfg maxEpochWalkerNum n r ≤
      activeEnd cfg maxEpochWalkerNum activeWalkerNum r := by
    simp only [activeEnd]
    omega
  have hchunks : chunkNum cfg maxEpochWalkerNum n r ≤
      chunkNum cfg maxEpochWalkerNum activeWalkerNum r := by
    refine (ceilDiv_le_iff_le_smul (by decide)).mpr (Nat.le_trans (Nat.sub_le_sub_right hactive _) ?_)
    exact (ceilDiv_le_iff_le_smul (by decide)).mp (Nat.le_refl _)
  have hmul := Nat.mul_le_mul_left chunkSize (Nat.add_le_add_right hchunks cfg.threadNum)
  exact Nat.lt_of_le_of_lt (Nat.add_le_add_left hmul _) (h r hr)

/-- Going round a circle and back. -/
theorem rotate_back {n a i : Nat} (ha : a < n) (hi : i < n) : ((a + i) % n + (n - a)) % n = i := by
  rw [Nat.mod_add_mod,show a + i + (n - a) = i + n by omega,Nat.add_mod_right,Nat.mod_eq_of_lt hi]

theorem turn_visited (hc : cfg.Valid) (ht : t < cfg.threadNum) {s i : Nat} (hs : s < cfg.socketNum)
    (hi : i < cfg.socketThreadNum) :
    turn cfg t (visited cfg t s i) = s * cfg.socketThreadNum + i := by
  simp only [turn,visited]
  rw [rotate_back (hc.socketId_lt ht) hs,rotate_back (hc.socketOffset_lt t) hi]

theorem Pc.overshot_le (r : Nat × Nat) (x : Pc) : x.overshot cfg t r ≤ 1 := by
  rw [Pc.overshot]
  split_ifs <;> omega

/-- A thread that is not past the range leaves room for its own fetch-and-add. -/
theorem overshoots_lt {r : Nat × Nat} (ht : t < cfg.threadNum)
    (hturn : (p.pc t).missed cfg ≤ turn cfg t r) : overshoots cfg p r < cfg.threadNum := by
  have hlt : overshoots cfg p r < ∑ _ ∈ Finset.range cfg.threadNum, 1 := by
    refine Finset.sum_lt_sum (fun t _ => Pc.overshot_le r (p.pc t))
      ⟨t,Finset.mem_range.mpr ht,?_⟩
    rw [Pc.overshot,if_neg (Nat.not_lt.mpr hturn)]
    exact Nat.one_pos
  simpa using hlt

theorem overshoots_setPc (x : Pc) (r r' : Nat × Nat) (ts : ThreadState) (ht : t < cfg.threadNum) :
    overshoots cfg ((p.setState r' ts).setPc t x) r + (p.pc t).overshot cfg t r =
      overshoots cfg p r + x.overshot cfg t r :=
  sum_update (fun t y => Pc.overshot cfg t r y) p.pc x (Finset.mem_range.mpr ht)

theorem overshoots_mono {x : Pc} {r r' : Nat × Nat} {ts : ThreadState} (ht : t < cfg.threadNum)
    (hm : (p.pc t).missed cfg ≤ x.missed cfg) :
    overshoots cfg p r ≤ overshoots cfg ((p.setState r' ts).setPc t x) r := by
  have hpcs := overshoots_setPc (p := p) x r r' ts ht
  have hle : (p.pc t).overshot cfg t r ≤ x.overshot cfg t r := by
    simp only [Pc.overshot]
    split_ifs <;> omega
  omega

/-- Leaving a range after a fetch-and-add in vain counts. -/
theorem overshoots_succ {x : Pc} {r r' : Nat × Nat} {ts : ThreadState} (ht : t < cfg.threadNum)
    (hold : (p.pc t).missed cfg ≤ turn cfg t r) (hnew : turn cfg t r < x.missed cfg) :
    overshoots cfg ((p.setState r' ts).setPc t x) r = overshoots cfg p r + 1 := by
  have hpcs := overshoots_setPc (p := p) x r r' ts ht
  simpa only [Pc.overshot,if_neg (Nat.not_lt.mpr hold),if_pos hnew,Nat.add_zero] using hpcs

theorem entry_tight (stale : Nat × Nat → ThreadState) :
    Tight cfg maxEpochWalkerNum activeWalkerNum (entry stale) :=
  fun _ _ h => absurd rfl h

/-- A step that writes at most one cursor, and keeps it in its place. -/
theorem Tight.move (hc : cfg.Valid) {x : Pc} {r : Nat × Nat} {ts : ThreadState}
    (h : Tight cfg maxEpochWalkerNum activeWalkerNum p) (ht : t < cfg.threadNum)
    (hm : (p.pc t).missed cfg ≤ x.missed cfg)
    (hs : p.pc t ≠ .start ∨ localRange cfg t = r)
    (hcur : r ∈ Finset.range cfg.socketNum ×ˢ Finset.range cfg.socketThreadNum →
      ∃ k ≤ chunkNum cfg maxEpochWalkerNum activeWalkerNum r +
        overshoots cfg ((p.setState r ts).setPc t x) r,
        ts.curr = threadWalkerBegin cfg maxEpochWalkerNum r + chunkSize * k) :
    Tight cfg maxEpochWalkerNum activeWalkerNum ((p.setState r ts).setPc t x) := by
  intro r' hr' hstart
  by_cases her : r' = r
  · subst her
    simpa using hcur hr'
  · have hne : p.pc (cfg.threadAt r'.1 r'.2) ≠ .start := by
      by_cases he : cfg.threadAt r'.1 r'.2 = t
      · rcases hs with hs | hs
        · rwa [he]
        · exact absurd ((exists_owner hc hr').2.symm.trans (by rw [he,hs])) her
      · simpa [Function.update_of_ne he] using hstart
    obtain ⟨k,hk,hcurr⟩ := h r' hr' hne
    refine ⟨k,Nat.le_trans hk (Nat.add_le_add_left (overshoots_mono ht hm) _),?_⟩
    simpa [Function.update_of_ne her] using hcurr

theorem Tight.setPc (hc : cfg.Valid) {x : Pc} (h : Tight cfg maxEpochWalkerNum activeWalkerNum p)
    (ht : t < cfg.threadNum) (hs : p.pc t ≠ .start)
    (hm : (p.pc t).missed cfg ≤ x.missed cfg) :
    Tight cfg maxEpochWalkerNum activeWalkerNum (p.setPc t x) := by
  have hmove : Tight cfg maxEpochWalkerNum activeWalkerNum
      ((p.setState (localRange cfg t) (p.threadStates (localRange cfg t))).setPc t x) := by
    refine h.move hc ht hm (Or.inl hs) (fun hr => ?_)
    obtain ⟨k,hk,hcurr⟩ := h _ hr (by
      rwa [show cfg.threadAt (localRange cfg t).1 (localRange cfg t).2 = t from
        cfg.threadAt_socket t])
    exact ⟨k,Nat.le_trans hk (Nat.add_le_add_left (overshoots_mono ht hm) _),hcurr⟩
  simpa [Pool.setState] using hmove

theorem tight_action (hc : cfg.Valid) {o : Option (Nat × Nat)}
    (hctl : Control cfg maxEpochWalkerNum activeWalkerNum p) (hb : Bounded cfg maxEpochWalkerNum p)
    (h : Tight cfg maxEpochWalkerNum activeWalkerNum p) (ht : t < cfg.threadNum)
    (ha : Action cfg maxEpochWalkerNum activeWalkerNum t p p' o) :
    Tight cfg maxEpochWalkerNum activeWalkerNum p' := by
  have hloop := hb.loops t ht
  have hcursor : (p.pc t).running = true → ∀ s i, ∃ k ≤ chunkNum cfg maxEpochWalkerNum
      activeWalkerNum (visited cfg t s i) + overshoots cfg p (visited cfg t s i),
      (p.threadStates (visited cfg t s i)).curr =
        threadWalkerBegin cfg maxEpochWalkerNum (visited cfg t s i) + chunkSize * k :=
    fun hr s i => h _ (visited_mem hc t s i)
      (hctl.arrived t ht hr _ (exists_owner hc (visited_mem hc t s i)).1)
  cases ha with
  | enter hpc =>
    exact h.move hc ht (by simp [hpc,Pc.missed,Pc.begun]) (Or.inr rfl)
      (fun _ => ⟨0,Nat.zero_le _,rfl⟩)
  | pass hpc hall => exact h.setPc hc ht (by simp [hpc]) (by simp [hpc,Pc.missed,Pc.begun])
  | look hpc hst => exact h.setPc hc ht (by simp [hpc]) (by simp [hpc,Pc.missed,Pc.begun])
  | skip hpc hst => exact h.setPc hc ht (by simp [hpc]) (by simp [hpc,Pc.missed,Pc.begun])
  | @claim s i ts hpc hts hlt =>
    subst hts
    refine h.move hc ht (by simp [hpc,Pc.missed,Pc.begun]) (Or.inl (by simp [hpc])) (fun _ => ?_)
    obtain ⟨k,_,hcurr⟩ := hcursor (by simp [hpc,Pc.running]) s i
    have hlast := (hctl.range_ready hc ht (by simp [hpc,Pc.running]) (visited_mem hc t s i)).1
    -- The cursor was below the end, so that the chunk it passes is one of the range.
    have hk : k < chunkNum cfg maxEpochWalkerNum activeWalkerNum (visited cfg t s i) := by
      rw [chunkNum,← not_le,ceilDiv_le_iff_le_smul (by decide),smul_eq_mul]
      omega
    refine ⟨k + 1,by omega,?_⟩
    rw [ThreadState.setCurr_curr,hcurr,Nat.mul_add,Nat.mul_one,Nat.add_assoc]
  | @miss s i ts hpc hts hge =>
    subst hts
    rw [hpc] at hloop
    obtain ⟨k,hk,hcurr⟩ := hcursor (by simp [hpc,Pc.running]) s i
    have hturn := turn_visited hc ht hloop.1 hloop.2
    refine h.move hc ht (by simp [hpc,Pc.missed,Pc.begun]) (Or.inl (by simp [hpc])) (fun _ => ?_)
    rw [overshoots_succ ht (by rw [hpc,hturn]; exact Nat.le_refl _)
      (by rw [hturn]; exact Nat.lt_succ_self _)]
    refine ⟨k + 1,by omega,?_⟩
    rw [ThreadState.setCurr_curr,hcurr,Nat.mul_add,Nat.mul_one,Nat.add_assoc]
  | process hpc hlt => exact h.setPc hc ht (by simp [hpc]) (by simp [hpc,Pc.missed,Pc.begun])
  | chunkDone hpc hge => exact h.setPc hc ht (by simp [hpc]) (by simp [hpc,Pc.missed,Pc.begun])
  | complete hpc =>
    rw [hpc] at hloop
    have hm : (p.pc t).missed cfg ≤ (afterVisit cfg 0 0).missed cfg := by
      rw [hpc,afterVisit_missed hc hloop.1 hloop.2]
    refine h.move hc ht hm (Or.inl (by simp [hpc])) (fun _ => ?_)
    obtain ⟨k,hk,hcurr⟩ := hcursor (by simp [hpc,Pc.running]) 0 0
    exact ⟨k,Nat.le_trans hk (Nat.add_le_add_left (overshoots_mono ht hm) _),hcurr⟩
  | advance hpc hne =>
    rw [hpc] at hloop
    exact h.setPc hc ht (by simp [hpc]) (by rw [hpc,afterVisit_missed hc hloop.1 hloop.2])

theorem Tight.noWrap (hc : cfg.Valid) (hroom : Roomy cfg maxEpochWalkerNum activeWalkerNum)
    (hsound : Sound cfg maxEpochWalkerNum activeWalkerNum p)
    (h : Tight cfg maxEpochWalkerNum activeWalkerNum p) (ht : t < cfg.threadNum) :
    NoWrap cfg t p := by
  intro s i hpc
  have hloop := hsound.2.loops t ht
  rw [hpc] at hloop
  have hmem := visited_mem hc t s i
  obtain ⟨k,hk,hcurr⟩ := h _ hmem
    (hsound.1.arrived t ht (by simp [hpc,Pc.running]) _ (exists_owner hc hmem).1)
  have hlt := overshoots_lt (p := p) (r := visited cfg t s i) ht
    (by rw [hpc,turn_visited hc ht hloop.1 hloop.2]; exact Nat.le_refl _)
  have hle := Nat.mul_le_mul_left chunkSize (show k + 1 ≤ chunkNum cfg maxEpochWalkerNum
    activeWalkerNum (visited cfg t s i) + cfg.threadNum by omega)
  have := hroom _ hmem
  rw [Nat.mul_add,Nat.mul_one] at hle
  omega

theorem tight_step (hc : cfg.Valid) (hactive : activeWalkerNum ≤ maxEpochWalkerNum)
    {o : Option (Nat × Nat)} (hsound : Sound cfg maxEpochWalkerNum activeWalkerNum p)
    (h : Tight cfg maxEpochWalkerNum activeWalkerNum p)
    (hw : ∀ t < cfg.threadNum, NoWrap cfg t p)
    (hs : WrapStep cfg maxEpochWalkerNum activeWalkerNum p o p') :
    PoolStep cfg maxEpochWalkerNum activeWalkerNum p o p' ∧
      Sound cfg maxEpochWalkerNum activeWalkerNum p' ∧
      Tight cfg maxEpochWalkerNum activeWalkerNum p' := by
  obtain ⟨t,ht,hstep⟩ := hs
  have hpool : PoolStep cfg maxEpochWalkerNum activeWalkerNum p o p' := ⟨t,ht,hw t ht,hstep⟩
  exact ⟨hpool,(sound_step hc hactive hsound hpool).1,
    tight_action hc hsound.1 hsound.2 h ht (threadStep_action (hw t ht) hstep)⟩

theorem run_tight (hc : cfg.Valid) (hactive : activeWalkerNum ≤ maxEpochWalkerNum)
    (hroom : Roomy cfg maxEpochWalkerNum activeWalkerNum) {stale : Nat × Nat → ThreadState}
    {tr : List (Nat × Nat)}
    (hr : Run (WrapStep cfg maxEpochWalkerNum activeWalkerNum) (entry stale) tr p) :
    Run (PoolStep cfg maxEpochWalkerNum activeWalkerNum) (entry stale) tr p ∧
      Sound cfg maxEpochWalkerNum activeWalkerNum p ∧
      Tight cfg maxEpochWalkerNum activeWalkerNum p := by
  induction hr with
  | start => exact ⟨.start,⟨entry_control stale,entry_bounded stale⟩,entry_tight stale⟩
  | next _ hs ih =>
    obtain ⟨hrun,hsound,htight⟩ := ih
    obtain ⟨hpool,hkept⟩ := tight_step hc hactive hsound htight
      (fun t ht => htight.noWrap hc hroom hsound ht) hs
    exact ⟨hrun.next hpool,hkept⟩

/-- At any time a walker has been processed at most once, and only if it is active. -/
theorem Accounted.count_le (hc : cfg.Valid) {tr : List (Nat × Nat)}
    (h : Accounted cfg maxEpochWalkerNum activeWalkerNum tr p) (w : Nat) :
    (tr.map Prod.snd).count w ≤ if w < activeWalkerNum then 1 else 0 := by
  have hterm : ∀ r ∈ Finset.range cfg.socketNum ×ˢ Finset.range cfg.socketThreadNum,
      claimed cfg maxEpochWalkerNum activeWalkerNum p.pc w r (p.threadStates r) ≤
        (fun q : Nat × Nat => (if q.1 ≤ w ∧ w < q.2 then 1 else 0) *
          (if w < activeWalkerNum then 1 else 0)) (threadWalker cfg maxEpochWalkerNum r) := by
    intro r _
    rw [claimed]
    by_cases hcl : p.pc (cfg.threadAt r.1 r.2) ≠ .start ∧
      threadWalkerBegin cfg maxEpochWalkerNum r ≤ w ∧
        w < min (p.threadStates r).curr (activeEnd cfg maxEpochWalkerNum activeWalkerNum r)
    · obtain ⟨_,hlo,hhi⟩ := id hcl
      simp only [activeEnd,threadWalkerBegin,threadWalkerEnd] at hlo hhi
      rw [if_pos hcl,if_pos (show w < activeWalkerNum by omega)]
      simp only [if_pos (show (threadWalker cfg maxEpochWalkerNum r).1 ≤ w ∧
        w < (threadWalker cfg maxEpochWalkerNum r).2 by omega)]
      decide
    · rw [if_neg hcl]
      exact Nat.zero_le _
  have hsum := sum_threadWalker cfg maxEpochWalkerNum (fun q : Nat × Nat =>
    (if q.1 ≤ w ∧ w < q.2 then 1 else 0) * (if w < activeWalkerNum then 1 else 0))
  rw [List.sum_map_mul_right,(threadWalkers_tiles hc maxEpochWalkerNum).sum_indicator] at hsum
  have hle := Finset.sum_le_sum hterm
  have hold := h w
  rw [hsum] at hle
  split_ifs at hle ⊢ <;> omega

section
variable (hc : cfg.Valid) (hactive : activeWalkerNum ≤ maxEpochWalkerNum)
  (hroom : Roomy cfg maxEpochWalkerNum activeWalkerNum) {stale : Nat × Nat → ThreadState}
  {tr : List (Nat × Nat)}
  (hr : Run (WrapStep cfg maxEpochWalkerNum activeWalkerNum) (entry stale) tr p)
include hc hactive hroom hr

theorem wrap_measure {o : Option (Nat × Nat)}
    (hs : WrapStep cfg maxEpochWalkerNum activeWalkerNum p o p') :
    poolMeasure cfg maxEpochWalkerNum activeWalkerNum p' <
      poolMeasure cfg maxEpochWalkerNum activeWalkerNum p := by
  obtain ⟨_,hsound,htight⟩ := run_tight hc hactive hroom hr
  obtain ⟨hpool,_⟩ := tight_step hc hactive hsound htight
    (fun t ht => htight.noWrap hc hroom hsound ht) hs
  exact (sound_step hc hactive hsound hpool).2

theorem mem_processed (hl : AllLeft cfg p) {w : Nat} (hw : w < activeWalkerNum) :
    w ∈ tr.map Prod.snd := by
  obtain ⟨hrun,_⟩ := run_tight hc hactive hroom hr
  obtain ⟨hctl,hacc⟩ := run_inv hc hrun
  have hcount := count_of_allLeft hc hactive hctl hacc hl w
  rw [if_pos hw] at hcount
  exact List.count_pos_iff.mp (by omega)

end

theorem exists_wrapped (hc : cfg.Valid) (hactive : activeWalkerNum ≤ maxEpochWalkerNum)
    (hroom : Roomy cfg maxEpochWalkerNum activeWalkerNum) (stale : Nat × Nat → ThreadState) :
    ∃ tr p, Run (WrapStep cfg maxEpochWalkerNum activeWalkerNum) (entry stale) tr p ∧
      AllLeft cfg p := by
  refine exists_finished
    (fun p => ∃ tr, Run (WrapStep cfg maxEpochWalkerNum activeWalkerNum) (entry stale) tr p)
    (AllLeft cfg) (poolMeasure cfg maxEpochWalkerNum activeWalkerNum) ?_ ?_ _ ⟨[],.start⟩
  · rintro p o p' ⟨tr,hr⟩ hs
    exact ⟨⟨_,hr.next hs⟩,wrap_measure hc hactive hroom hr hs⟩
  · intro p _ hl
    obtain ⟨t,ht,⟨p',o⟩,hs⟩ := exists_threadStep maxEpochWalkerNum activeWalkerNum hl
    exact ⟨o,p',t,ht,hs⟩

variable (cfg maxEpochWalkerNum activeWalkerNum) in
/-- What it means that a run to `p` and whatever follows it stay inside 32 bits. -/
structure StaysBelow (tr : List (Nat × Nat)) (p : Pool) : Prop where
  /-- Neither `curr + chunk_size` nor `work_begin + chunk_size` wraps. -/
  noWrap : ∀ t < cfg.threadNum, NoWrap cfg t p
  notTwice : ∀ w, (tr.map Prod.snd).count w ≤ if w < activeWalkerNum then 1 else 0
  notSkipped : AllLeft cfg p →
    ∀ w, (tr.map Prod.snd).count w = if w < activeWalkerNum then 1 else 0
  /-- No run from here goes on for ever, -/
  stops : Acc (fun q' q => ∃ o, WrapStep cfg maxEpochWalkerNum activeWalkerNum q o q') p
  /-- and none gets stuck before all threads have left. -/
  moves : ¬AllLeft cfg p → ∃ o p', WrapStep cfg maxEpochWalkerNum activeWalkerNum p o p'

/-- When every range has room behind it, no sum on cursors wraps under any interleaving: no
walker is processed twice or skipped, and all the loops stop. -/
theorem process_walkers_in_32_bits (hc : cfg.Valid)
    (hactive : activeWalkerNum ≤ maxEpochWalkerNum)
    (hroom : Roomy cfg maxEpochWalkerNum activeWalkerNum) (stale : Nat × Nat → ThreadState)
    (tr : List (Nat × Nat)) (p : Pool)
    (hr : Run (WrapStep cfg maxEpochWalkerNum activeWalkerNum) (entry stale) tr p) :
    StaysBelow cfg maxEpochWalkerNum activeWalkerNum tr p := by
  obtain ⟨hrun,hsound,htight⟩ := run_tight hc hactive hroom hr
  obtain ⟨hctl,hacc⟩ := run_inv hc hrun
  refine ⟨fun t ht => htight.noWrap hc hroom hsound ht,hacc.count_le hc,
    fun hl => count_of_allLeft hc hactive hctl hacc hl,?_,?_⟩
  · refine acc_of_measure (fun q => Sound cfg maxEpochWalkerNum activeWalkerNum q ∧
      Tight cfg maxEpochWalkerNum activeWalkerNum q)
      (poolMeasure cfg maxEpochWalkerNum activeWalkerNum) ?_ ⟨hsound,htight⟩
    rintro q o q' ⟨hq,ht⟩ hs
    obtain ⟨hpool,hkept⟩ := tight_step hc hactive hq ht
      (fun t h => ht.noWrap hc hroom hq h) hs
    exact ⟨hkept,(sound_step hc hactive hq hpool).2⟩
  · intro hl
    obtain ⟨t,ht,⟨p',o⟩,hs⟩ := exists_threadStep maxEpochWalkerNum activeWalkerNum hl
    exact ⟨o,p',t,ht,hs⟩

theorem process_walkers_in_32_bits_two_sockets : ∃ tr p,
    Run (WrapStep ⟨4,2,0⟩ 9000 5000) (entry (fun _ => ⟨7,7,.tcomplete⟩)) tr p ∧
      AllLeft ⟨4,2,0⟩ p ∧ StaysBelow ⟨4,2,0⟩ 9000 5000 tr p := by
  have hc : MultiThreadConfig.Valid ⟨4,2,0⟩ := ⟨by decide,by decide,by decide⟩
  have hroom : Roomy ⟨4,2,0⟩ 9000 5000 := by unfold Roomy; decide
  have hactive : 5000 ≤ 9000 := by decide
  obtain ⟨tr,p,hr,hl⟩ := exists_wrapped hc hactive hroom (fun _ => ⟨7,7,.tcomplete⟩)
  exact ⟨tr,p,hr,hl,process_walkers_in_32_bits hc hactive hroom _ tr p hr⟩

theorem cursors_action (hc : cfg.Valid) (hmax : maxEpochWalkerNum < 2 ^ 32)
    {o : Option (Nat × Nat)} (ht : t < cfg.threadNum) (hw : NoWrap cfg t p)
    (h : ∀ r, (p.threadStates r).curr < 2 ^ 32)
    (ha : Action cfg maxEpochWalkerNum activeWalkerNum t p p' o) :
    ∀ r, (p'.threadStates r).curr < 2 ^ 32 := by
  have hset : ∀ (r : Nat × Nat) (ts : ThreadState), ts.curr < 2 ^ 32 → ∀ r',
      (Function.update p.threadStates r ts r').curr < 2 ^ 32 := by
    intro r ts hts r'
    by_cases he : r' = r
    · rwa [he,Function.update_self]
    · rw [Function.update_of_ne he]
      exact h r'
  cases ha with
  | enter hpc =>
    refine hset _ _ ?_
    have := (threadWalker_bounds hc maxEpochWalkerNum (localRange_mem hc ht)).1
    simp only [initialState]
    omega
  | claim hpc hts hlt =>
    subst hts
    exact hset _ _ (hw _ _ hpc)
  | miss hpc hts hge =>
    subst hts
    exact hset _ _ (hw _ _ hpc)
  | complete hpc => exact hset _ _ (h _)
  | pass hpc hall => exact h
  | look hpc hst => exact h
  | skip hpc hst => exact h
  | process hpc hlt => exact h
  | chunkDone hpc hge => exact h
  | advance hpc hne => exact h

/-- One thread with the largest number of walkers: the last chunk ends beyond 2^32, so that
the cursor cannot both pass the walkers and stay below. -/
theorem one_thread_wraps : ¬ ∀ (cfg : MultiThreadConfig) (maxEpochWalkerNum activeWalkerNum : Nat)
    (stale : Nat × Nat → ThreadState) (tr : List (Nat × Nat)) (p : Pool), cfg.Valid →
    1 ≤ maxEpochWalkerNum → maxEpochWalkerNum ≤ 2 ^ 32 - 2 → activeWalkerNum ≤ maxEpochWalkerNum →
    Run (WrapStep cfg maxEpochWalkerNum activeWalkerNum) (entry stale) tr p →
    StaysBelow cfg maxEpochWalkerNum activeWalkerNum tr p := by
  intro hall
  obtain ⟨m,hm⟩ : ∃ m : Nat, m = 2 ^ 32 - 2 := ⟨_,rfl⟩
  have hc : MultiThreadConfig.Valid ⟨1,1,0⟩ := ⟨by decide,by decide,by decide⟩
  obtain ⟨stale,hstale⟩ : ∃ stale : Nat × Nat → ThreadState, ∀ r, (stale r).curr < 2 ^ 32 :=
    ⟨fun _ => ⟨0,0,.tcomplete⟩,fun _ => Nat.two_pow_pos 32⟩
  let reached : Pool → Prop := fun p =>
    (∃ tr, Run (WrapStep ⟨1,1,0⟩ m m) (entry stale) tr p) ∧ Sound ⟨1,1,0⟩ m m p ∧
      Tight ⟨1,1,0⟩ m m p ∧ ∀ r, (p.threadStates r).curr < 2 ^ 32
  have hkeep : ∀ p o p', reached p → WrapStep ⟨1,1,0⟩ m m p o p' →
      reached p' ∧ poolMeasure ⟨1,1,0⟩ m m p' < poolMeasure ⟨1,1,0⟩ m m p := by
    rintro p o p' ⟨⟨tr,hr⟩,hsound,htight,hcurs⟩ hs
    have hno := (hall ⟨1,1,0⟩ m m stale tr p hc (by omega) (by omega) (Nat.le_refl m) hr).noWrap
    obtain ⟨hpool,hsound',htight'⟩ := tight_step hc (Nat.le_refl m) hsound htight hno hs
    obtain ⟨t,ht,hw,hstep⟩ := id hpool
    exact ⟨⟨⟨_,hr.next hs⟩,hsound',htight',
      cursors_action hc (by omega) ht hw hcurs (threadStep_action hw hstep)⟩,
      (sound_step hc (Nat.le_refl m) hsound hpool).2⟩
  have hmoves : ∀ p, reached p → ¬AllLeft ⟨1,1,0⟩ p → ∃ o p', WrapStep ⟨1,1,0⟩ m m p o p' := by
    intro p _ hl
    obtain ⟨t,ht,⟨p',o⟩,hs⟩ := exists_threadStep m m hl
    exact ⟨o,p',t,ht,hs⟩
  have hentry : reached (entry stale) :=
    ⟨⟨[],.start⟩,⟨entry_control _,entry_bounded _⟩,entry_tight _,hstale⟩
  obtain ⟨tr,p,hrun,hl⟩ := exists_finished reached (AllLeft ⟨1,1,0⟩) (poolMeasure ⟨1,1,0⟩ m m)
    hkeep hmoves (entry stale) hentry
  obtain ⟨_,hsound,htight,hcurs⟩ := hrun.invariant (fun _ q => reached q) hentry
    (fun _ q o q' hq hs => (hkeep q o q' hq hs).1)
  have hpc := hl 0 Nat.one_pos
  have hdrained := hsound.1.drained 0 Nat.one_pos (Or.inl (by rw [hpc]; rfl))
  have hend : activeEnd ⟨1,1,0⟩ m m (0,0) = min (0 + (0 + m - 0)) m := rfl
  change activeEnd ⟨1,1,0⟩ m m (0,0) ≤ (p.threadStates (0,0)).curr at hdrained
  obtain ⟨k,_,hcurr⟩ := htight (0,0) (by decide) (by
    change p.pc 0 ≠ .start
    rw [hpc]
    decide)
  change _ = 0 + 64 * k at hcurr
  have := hcurs (0,0)
  omega

end FlashMob.WalkerManager
