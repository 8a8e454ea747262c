import FlashMob.Walker.Process

namespace FlashMob.WalkerManager
open Lib.Runs Lib.Tiling Lib.Update MultiThreadConfig

/-- The thread is past the visit to its own range. -/
def Pc.past : Pc → Bool
  | .start | .barrier => false
  | .visit s i | .fetch s i | .work s i _ _ | .leave s i => !decide (s = 0 ∧ i = 0)
  | .left => true

/-- The thread is past the barrier. -/
def Pc.running : Pc → Bool
  | .start | .barrier => false
  | _ => true

/-- The thread has claimed `w` and not processed it yet. -/
def Pc.holds (w : Nat) : Pc → Nat
  | .work _ _ a b => if a ≤ w ∧ w < b then 1 else 0
  | _ => 0

@[simp] theorem afterVisit_past (cfg : MultiThreadConfig) (s i : Nat) :
    (afterVisit cfg s i).past = true := by
  unfold afterVisit; split_ifs <;> simp [Pc.past]

@[simp] theorem afterVisit_holds (cfg : MultiThreadConfig) (s i w : Nat) :
    (afterVisit cfg s i).holds w = 0 := by
  unfold afterVisit; split_ifs <;> rfl

@[simp] theorem afterVisit_ne_start (cfg : MultiThreadConfig) (s i : Nat) :
    afterVisit cfg s i ≠ .start := by
  unfold afterVisit; split_ifs <;> simp

variable (cfg : MultiThreadConfig) (maxEpochWalkerNum activeWalkerNum : Nat)

def activeEnd (r : Nat × Nat) : Nat :=
  min (threadWalkerEnd cfg maxEpochWalkerNum r) activeWalkerNum

/-- What holds of the threads and their ranges between atomic steps. -/
structure Control (p : Pool) : Prop where
  /-- Nobody passes the barrier before everybody has arrived. -/
  arrived : ∀ t < cfg.threadNum, (p.pc t).running = true →
    ∀ t' < cfg.threadNum, p.pc t' ≠ .start
  ready : ∀ t < cfg.threadNum, p.pc t ≠ .start →
    (p.threadStates (localRange cfg t)).last =
        activeEnd cfg maxEpochWalkerNum activeWalkerNum (localRange cfg t) ∧
      threadWalkerBegin cfg maxEpochWalkerNum (localRange cfg t) ≤
        (p.threadStates (localRange cfg t)).curr
  /-- Only the owner ends the work on a range, after its own visit. -/
  working : ∀ t < cfg.threadNum, p.pc t ≠ .start → (p.pc t).past = false →
    (p.threadStates (localRange cfg t)).status = .tworking
  /-- The owner leaves its own range only when the cursor has reached the end. -/
  drained : ∀ t < cfg.threadNum, (p.pc t).past = true ∨ p.pc t = .leave 0 0 →
    activeEnd cfg maxEpochWalkerNum activeWalkerNum (localRange cfg t) ≤
      (p.threadStates (localRange cfg t)).curr

/-- One if walker `w` of range `r` has been claimed, else zero. -/
def claimed (pc : Nat → Pc) (w : Nat) (r : Nat × Nat) (ts : ThreadState) : Nat :=
  if pc (cfg.threadAt r.1 r.2) ≠ .start ∧ threadWalkerBegin cfg maxEpochWalkerNum r ≤ w ∧
    w < min ts.curr (activeEnd cfg maxEpochWalkerNum activeWalkerNum r) then 1 else 0

/-- Each claimed walker was processed once, or its claimer is about to process it. -/
def Accounted (tr : List (Nat × Nat)) (p : Pool) : Prop :=
  ∀ w, (tr.map Prod.snd).count w + ∑ t ∈ Finset.range cfg.threadNum, (p.pc t).holds w =
    ∑ r ∈ Finset.range cfg.socketNum ×ˢ Finset.range cfg.socketThreadNum,
      claimed cfg maxEpochWalkerNum activeWalkerNum p.pc w r (p.threadStates r)

variable {cfg maxEpochWalkerNum activeWalkerNum} {p p' : Pool} {t : Nat}

theorem entry_control (stale : Nat × Nat → ThreadState) :
    Control cfg maxEpochWalkerNum activeWalkerNum (entry stale) := by
  refine ⟨?_,?_,?_,?_⟩
  · intro t _ hr; cases hr
  · intro t _ h; exact absurd rfl h
  · intro t _ h; exact absurd rfl h
  · intro t _ h; rcases h with h | h <;> cases h

theorem entry_accounted (stale : Nat × Nat → ThreadState) :
    Accounted cfg maxEpochWalkerNum activeWalkerNum [] (entry stale) := by
  intro w
  simp [entry,claimed,Pc.holds]

theorem Control.setPc {x : Pc} (h : Control cfg maxEpochWalkerNum activeWalkerNum p)
    (ht : t < cfg.threadNum) (hs : p.pc t ≠ .start) (hx : x ≠ .start)
    (hrun : x.running = true → ∀ t' < cfg.threadNum, p.pc t' ≠ .start)
    (hpast : x.past = false → (p.pc t).past = false)
    (hdrain : x.past = true ∨ x = .leave 0 0 →
      activeEnd cfg maxEpochWalkerNum activeWalkerNum (localRange cfg t) ≤
        (p.threadStates (localRange cfg t)).curr) :
    Control cfg maxEpochWalkerNum activeWalkerNum (p.setPc t x) := by
  have hne : ∀ t', (Function.update p.pc t x) t' ≠ .start → p.pc t' ≠ .start := by
    intro t' h'
    by_cases he : t' = t
    · exact he ▸ hs
    · rwa [Function.update_of_ne he] at h'
  refine ⟨?_,?_,?_,?_⟩
  · intro t₁ h₁ hr t₂ h₂
    have hall : ∀ t' < cfg.threadNum, p.pc t' ≠ .start := by
      by_cases he : t₁ = t
      · subst he; simp only [Pool.setPc_pc,Function.update_self] at hr; exact hrun hr
      · simp only [Pool.setPc_pc,Function.update_of_ne he] at hr; exact h.arrived t₁ h₁ hr
    by_cases he : t₂ = t
    · subst he; simpa using hx
    · simpa only [Pool.setPc_pc,Function.update_of_ne he] using hall t₂ h₂
  · intro t' ht' hs'
    exact h.ready t' ht' (hne t' hs')
  · intro t' ht' hs' hp'
    refine h.working t' ht' (hne t' hs') ?_
    by_cases he : t' = t
    · subst he; simp only [Pool.setPc_pc,Function.update_self] at hp'; exact hpast hp'
    · simpa only [Pool.setPc_pc,Function.update_of_ne he] using hp'
  · intro t' ht' hp'
    by_cases he : t' = t
    · subst he; simp only [Pool.setPc_pc,Function.update_self] at hp'; exact hdrain hp'
    · simp only [Pool.setPc_pc,Function.update_of_ne he] at hp'; exact h.drained t' ht' hp'

/-- A fetch-and-add moves one cursor forward and nothing else. -/
theorem Control.bump {r : Nat × Nat} {c : Nat}
    (h : Control cfg maxEpochWalkerNum activeWalkerNum p) (hc : (p.threadStates r).curr ≤ c) :
    Control cfg maxEpochWalkerNum activeWalkerNum
      (p.setState r ((p.threadStates r).setCurr c)) := by
  refine ⟨h.arrived,?_,?_,?_⟩
  · intro t ht hs
    obtain ⟨h1,h2⟩ := h.ready t ht hs
    by_cases he : localRange cfg t = r
    · simp only [Pool.setState_threadStates,he,Function.update_self] at h1 h2 ⊢
      exact ⟨h1,Nat.le_trans h2 hc⟩
    · simpa only [Pool.setState_threadStates,Function.update_of_ne he] using And.intro h1 h2
  · intro t ht hs hp
    have h1 := h.working t ht hs hp
    by_cases he : localRange cfg t = r
    · simpa only [Pool.setState_threadStates,he,Function.update_self,
        ThreadState.setCurr_status] using h1
    · simpa only [Pool.setState_threadStates,Function.update_of_ne he] using h1
  · intro t ht hp
    have h1 := h.drained t ht hp
    by_cases he : localRange cfg t = r
    · simp only [Pool.setState_threadStates,he,Function.update_self] at h1 ⊢
      exact Nat.le_trans h1 hc
    · simpa only [Pool.setState_threadStates,Function.update_of_ne he] using h1

theorem Control.range_ready (hc : cfg.Valid) (h : Control cfg maxEpochWalkerNum activeWalkerNum p)
    (ht : t < cfg.threadNum) (hr : (p.pc t).running = true) {r : Nat × Nat}
    (hm : r ∈ Finset.range cfg.socketNum ×ˢ Finset.range cfg.socketThreadNum) :
    (p.threadStates r).last = activeEnd cfg maxEpochWalkerNum activeWalkerNum r ∧
      threadWalkerBegin cfg maxEpochWalkerNum r ≤ (p.threadStates r).curr := by
  obtain ⟨howner,he⟩ := exists_owner hc hm
  have hready := h.ready _ howner (h.arrived t ht hr _ howner)
  rwa [he] at hready

theorem Control.enter (h : Control cfg maxEpochWalkerNum activeWalkerNum p)
    (ht : t < cfg.threadNum) (hpc : p.pc t = .start) :
    Control cfg maxEpochWalkerNum activeWalkerNum
      ((p.setState (localRange cfg t) (initialState cfg maxEpochWalkerNum activeWalkerNum
        (localRange cfg t))).setPc t .barrier) := by
  have hother : ∀ {t'}, t' ≠ t → localRange cfg t' ≠ localRange cfg t :=
    fun hne he => hne (localRange_inj he)
  refine ⟨?_,?_,?_,?_⟩
  · intro t₁ h₁ hr
    by_cases he : t₁ = t
    · subst he; simp [Pc.running] at hr
    · simp only [Pool.setPc_pc,Pool.setState_pc,Function.update_of_ne he] at hr
      exact absurd hpc (h.arrived t₁ h₁ hr t ht)
  · intro t' ht' hs
    by_cases he : t' = t
    · subst he; simp [initialState,activeEnd]
    · simp only [Pool.setPc_pc,Pool.setState_pc,Function.update_of_ne he] at hs
      simpa only [Pool.setPc_threadStates,Pool.setState_threadStates,
        Function.update_of_ne (hother he)] using h.ready t' ht' hs
  · intro t' ht' hs hp
    by_cases he : t' = t
    · subst he; simp [initialState]
    · simp only [Pool.setPc_pc,Pool.setState_pc,Function.update_of_ne he] at hs hp
      simpa only [Pool.setPc_threadStates,Pool.setState_threadStates,
        Function.update_of_ne (hother he)] using h.working t' ht' hs hp
  · intro t' ht' hp
    by_cases he : t' = t
    · subst he; simp [Pc.past] at hp
    · simp only [Pool.setPc_pc,Pool.setState_pc,Function.update_of_ne he] at hp
      simpa only [Pool.setPc_threadStates,Pool.setState_threadStates,
        Function.update_of_ne (hother he)] using h.drained t' ht' hp

theorem Control.complete (hc : cfg.Valid) (h : Control cfg maxEpochWalkerNum activeWalkerNum p)
    (ht : t < cfg.threadNum) (hpc : p.pc t = .leave 0 0) :
    Control cfg maxEpochWalkerNum activeWalkerNum
      ((p.setState (visited cfg t 0 0)
        ((p.threadStates (visited cfg t 0 0)).setStatus .tcomplete)).setPc t
          (afterVisit cfg 0 0)) := by
  rw [visited_zero hc ht]
  have hother : ∀ {t'}, t' ≠ t → localRange cfg t' ≠ localRange cfg t :=
    fun hne he => hne (localRange_inj he)
  have hs : p.pc t ≠ .start := by simp [hpc]
  refine ⟨?_,?_,?_,?_⟩
  · intro t₁ _ _ t₂ h₂
    by_cases he : t₂ = t
    · subst he; simp
    · simpa only [Pool.setPc_pc,Pool.setState_pc,Function.update_of_ne he] using
        h.arrived t ht (by simp [hpc,Pc.running]) t₂ h₂
  · intro t' ht' hs'
    by_cases he : t' = t
    · subst he; simpa using h.ready t' ht' hs
    · simp only [Pool.setPc_pc,Pool.setState_pc,Function.update_of_ne he] at hs'
      simpa only [Pool.setPc_threadStates,Pool.setState_threadStates,
        Function.update_of_ne (hother he)] using h.ready t' ht' hs'
  · intro t' ht' hs' hp
    by_cases he : t' = t
    · subst he; simp at hp
    · simp only [Pool.setPc_pc,Pool.setState_pc,Function.update_of_ne he] at hs' hp
      simpa only [Pool.setPc_threadStates,Pool.setState_threadStates,
        Function.update_of_ne (hother he)] using h.working t' ht' hs' hp
  · intro t' ht' hp
    by_cases he : t' = t
    · subst he; simpa using h.drained t' ht' (Or.inr hpc)
    · simp only [Pool.setPc_pc,Pool.setState_pc,Function.update_of_ne he] at hp
      simpa only [Pool.setPc_threadStates,Pool.setState_threadStates,
        Function.update_of_ne (hother he)] using h.drained t' ht' hp

/-- A running thread that stays at the same range does nothing to the ranges. -/
theorem Control.stay {x : Pc} (h : Control cfg maxEpochWalkerNum activeWalkerNum p)
    (ht : t < cfg.threadNum) (hrun : (p.pc t).running = true) (hx : x ≠ .start)
    (hpast : x.past = (p.pc t).past) (hleave : x ≠ .leave 0 0) :
    Control cfg maxEpochWalkerNum activeWalkerNum (p.setPc t x) := by
  refine h.setPc ht ?_ hx (fun _ => h.arrived t ht hrun) (fun hp => hpast ▸ hp) ?_
  · intro hs
    rw [hs] at hrun
    cases hrun
  · rintro (hp | hl)
    · exact h.drained t ht (Or.inl (hpast ▸ hp))
    · exact absurd hl hleave

theorem control_action (hc : cfg.Valid) {o : Option (Nat × Nat)}
    (h : Control cfg maxEpochWalkerNum activeWalkerNum p) (ht : t < cfg.threadNum)
    (ha : Action cfg maxEpochWalkerNum activeWalkerNum t p p' o) :
    Control cfg maxEpochWalkerNum activeWalkerNum p' := by
  cases ha with
  | enter hpc => exact h.enter ht hpc
  | pass hpc hall =>
    exact h.setPc ht (by simp [hpc]) (by simp) (fun _ => hall) (by simp [hpc,Pc.past])
      (by simp [Pc.past])
  | look hpc hst =>
    exact h.stay ht (by simp [hpc,Pc.running]) (by simp) (by simp [hpc,Pc.past]) (by simp)
  | @skip s i hpc hst =>
    refine h.setPc ht (by simp [hpc]) (by simp)
      (fun _ => h.arrived t ht (by simp [hpc,Pc.running])) (by simp [hpc,Pc.past]) ?_
    intro _
    -- The owner's own range still works, so a skipped range is a foreign one.
    by_cases h0 : s = 0 ∧ i = 0
    · obtain ⟨rfl,rfl⟩ := h0
      have hw := h.working t ht (by simp [hpc]) (by simp [hpc,Pc.past])
      rw [← visited_zero hc ht,hst] at hw
      cases hw
    · exact h.drained t ht (Or.inl (by simp [hpc,Pc.past,h0]))
  | @claim s i ts hpc hts hlt =>
    subst hts
    exact (h.bump (Nat.le_add_right _ _)).stay ht (by simp [hpc,Pc.running]) (by simp)
      (by simp [hpc,Pc.past]) (by simp)
  | @miss s i ts hpc hts hge =>
    subst hts
    refine (h.bump (Nat.le_add_right _ _)).setPc ht (by simp [hpc]) (by simp)
      (fun _ => h.arrived t ht (by simp [hpc,Pc.running])) (by simp [hpc,Pc.past]) ?_
    intro _
    by_cases h0 : s = 0 ∧ i = 0
    · obtain ⟨rfl,rfl⟩ := h0
      have hlast := (h.range_ready hc ht (by simp [hpc,Pc.running]) (visited_mem hc t 0 0)).1
      rw [visited_zero hc ht] at hge hlast
      simp only [visited_zero hc ht,Pool.setState_threadStates,Function.update_self,
        ThreadState.setCurr_curr]
      omega
    · exact (h.bump (Nat.le_add_right _ _)).drained t ht (Or.inl (by simp [hpc,Pc.past,h0]))
  | process hpc hlt =>
    exact h.stay ht (by simp [hpc,Pc.running]) (by simp) (by simp [hpc,Pc.past]) (by simp)
  | chunkDone hpc hge =>
    exact h.stay ht (by simp [hpc,Pc.running]) (by simp) (by simp [hpc,Pc.past]) (by simp)
  | complete hpc => exact h.complete hc ht hpc
  | @advance s i hpc hne =>
    exact h.setPc ht (by simp [hpc]) (by simp)
      (fun _ => h.arrived t ht (by simp [hpc,Pc.running])) (by simp)
      (fun _ => h.drained t ht (Or.inl (by simp [hpc,Pc.past,hne])))

theorem claimed_setPc {x : Pc} (hs : p.pc t ≠ .start) (hx : x ≠ .start) (w : Nat) (r : Nat × Nat)
    (ts : ThreadState) :
    claimed cfg maxEpochWalkerNum activeWalkerNum (Function.update p.pc t x) w r ts =
      claimed cfg maxEpochWalkerNum activeWalkerNum p.pc w r ts := by
  by_cases he : cfg.threadAt r.1 r.2 = t
  · simp [claimed,he,hs,hx]
  · simp [claimed,Function.update_of_ne he]

/-- A step that leaves the claimed walkers alone moves one of them at most from its
claimer's chunk to the trace. -/
theorem Accounted.setPc {tr : List (Nat × Nat)} {x : Pc} {o : Option (Nat × Nat)}
    (h : Accounted cfg maxEpochWalkerNum activeWalkerNum tr p) (ht : t < cfg.threadNum)
    (hs : p.pc t ≠ .start) (hx : x ≠ .start)
    (hw : ∀ w, (o.toList.map Prod.snd).count w + x.holds w = (p.pc t).holds w) :
    Accounted cfg maxEpochWalkerNum activeWalkerNum (tr ++ o.toList) (p.setPc t x) := by
  intro w
  have hpcs := sum_update (fun _ y => Pc.holds w y) p.pc x (Finset.mem_range.mpr ht)
  have hold := h w
  have hmove := hw w
  simp only [Pool.setPc_pc,Pool.setPc_threadStates,claimed_setPc hs hx,List.map_append,
    List.count_append]
  omega

/-- Moving the cursor of one range claims the walkers it passed over. -/
theorem Accounted.claim (hc : cfg.Valid) {tr : List (Nat × Nat)} {s i : Nat} {x : Pc}
    (hctl : Control cfg maxEpochWalkerNum activeWalkerNum p)
    (h : Accounted cfg maxEpochWalkerNum activeWalkerNum tr p)
    (ht : t < cfg.threadNum) (hpc : p.pc t = .fetch s i) (hx : x ≠ .start)
    (hw : ∀ w, x.holds w = if (p.threadStates (visited cfg t s i)).curr ≤ w ∧
      w < min ((p.threadStates (visited cfg t s i)).curr + chunkSize)
        (p.threadStates (visited cfg t s i)).last then 1 else 0) :
    Accounted cfg maxEpochWalkerNum activeWalkerNum tr
      ((p.setState (visited cfg t s i) ((p.threadStates (visited cfg t s i)).setCurr
        ((p.threadStates (visited cfg t s i)).curr + chunkSize))).setPc t x) := by
  generalize hr : visited cfg t s i = r at hw ⊢
  have hmem : r ∈ Finset.range cfg.socketNum ×ˢ Finset.range cfg.socketThreadNum :=
    hr ▸ visited_mem hc t s i
  obtain ⟨hlast,hbegin⟩ := hctl.range_ready hc ht (by simp [hpc,Pc.running]) hmem
  have hstarted : p.pc (cfg.threadAt r.1 r.2) ≠ .start :=
    hctl.arrived t ht (by simp [hpc,Pc.running]) _ (exists_owner hc hmem).1
  intro w
  have hpcs := sum_update (fun _ y => Pc.holds w y) p.pc x (Finset.mem_range.mpr ht)
  have hstates := sum_update (fun r ts => claimed cfg maxEpochWalkerNum activeWalkerNum p.pc w r ts)
    p.threadStates ((p.threadStates r).setCurr ((p.threadStates r).curr + chunkSize)) hmem
  have hs : p.pc t ≠ .start := by simp [hpc]
  have hterm : claimed cfg maxEpochWalkerNum activeWalkerNum p.pc w r (p.threadStates r) + x.holds w =
      claimed cfg maxEpochWalkerNum activeWalkerNum p.pc w r
        ((p.threadStates r).setCurr ((p.threadStates r).curr + chunkSize)) := by
    rw [hw w]
    simp only [claimed,hstarted,ne_eq,not_false_eq_true,true_and,hlast,ThreadState.setCurr_curr]
    split_ifs <;> omega
  have hzero : (p.pc t).holds w = 0 := by rw [hpc]; rfl
  have hold := h w
  simp only [Pool.setPc_pc,Pool.setPc_threadStates,Pool.setState_pc,Pool.setState_threadStates,
    claimed_setPc hs hx]
  omega

theorem accounted_action (hc : cfg.Valid) {tr : List (Nat × Nat)} {o : Option (Nat × Nat)}
    (hctl : Control cfg maxEpochWalkerNum activeWalkerNum p)
    (h : Accounted cfg maxEpochWalkerNum activeWalkerNum tr p) (ht : t < cfg.threadNum)
    (ha : Action cfg maxEpochWalkerNum activeWalkerNum t p p' o) :
    Accounted cfg maxEpochWalkerNum activeWalkerNum (tr ++ o.toList) p' := by
  cases ha with
  | enter hpc =>
    intro w
    have hpcs := sum_update (fun _ y => Pc.holds w y) p.pc .barrier (Finset.mem_range.mpr ht)
    have hzero : (p.pc t).holds w = 0 := by rw [hpc]; rfl
    -- The cursor starts at the begin of the range, so that nothing of it is claimed yet.
    have hclaimed : ∀ r ∈ Finset.range cfg.socketNum ×ˢ Finset.range cfg.socketThreadNum,
        claimed cfg maxEpochWalkerNum activeWalkerNum (Function.update p.pc t .barrier) w r
          (Function.update p.threadStates (localRange cfg t) (initialState cfg maxEpochWalkerNum
            activeWalkerNum (localRange cfg t)) r) =
        claimed cfg maxEpochWalkerNum activeWalkerNum p.pc w r (p.threadStates r) := by
      intro r hr
      by_cases he : cfg.threadAt r.1 r.2 = t
      · have hlocal : localRange cfg t = r := he ▸ (exists_owner hc hr).2
        simp [claimed,he,hpc,hlocal,initialState]
        omega
      · have hlocal : r ≠ localRange cfg t := by
          rintro rfl
          exact he (cfg.threadAt_socket t)
        simp [claimed,Function.update_of_ne he,Function.update_of_ne hlocal]
    have hold := h w
    simp only [Pool.setPc_pc,Pool.setPc_threadStates,Pool.setState_pc,Pool.setState_threadStates,
      Finset.sum_congr rfl hclaimed,Option.toList_none,List.append_nil]
    have hnone : Pc.holds w .barrier = 0 := rfl
    omega
  | pass hpc hall => exact h.setPc ht (by simp [hpc]) (by simp) (by simp [hpc,Pc.holds])
  | look hpc hst => exact h.setPc ht (by simp [hpc]) (by simp) (by simp [hpc,Pc.holds])
  | skip hpc hst => exact h.setPc ht (by simp [hpc]) (by simp) (by simp [hpc,Pc.holds])
  | claim hpc hts hlt =>
    subst hts
    simpa using h.claim hc hctl ht hpc (x := .work _ _ _ _) (by simp) (fun w => rfl)
  | miss hpc hts hge =>
    subst hts
    simpa using h.claim hc hctl ht hpc (x := .leave _ _) (by simp) (fun w => by
      simp only [Pc.holds]
      split_ifs
      · omega
      · rfl)
  | @process s i w workEnd hpc hlt =>
    refine h.setPc ht (by simp [hpc]) (by simp) ?_
    intro w'
    simp only [Option.toList_some,List.map_cons,List.map_nil,List.count_singleton,hpc,Pc.holds,
      beq_iff_eq]
    split_ifs <;> omega
  | chunkDone hpc hge =>
    refine h.setPc ht (by simp [hpc]) (by simp) ?_
    intro w'
    simp only [Option.toList_none,List.map_nil,List.count_nil,hpc,Pc.holds]
    split_ifs <;> omega
  | @complete hpc =>
    have hstate : Accounted cfg maxEpochWalkerNum activeWalkerNum tr (p.setState (visited cfg t 0 0)
        ((p.threadStates (visited cfg t 0 0)).setStatus .tcomplete)) := by
      intro w
      have hstates := sum_update
        (fun r ts => claimed cfg maxEpochWalkerNum activeWalkerNum p.pc w r ts) p.threadStates
        ((p.threadStates (visited cfg t 0 0)).setStatus .tcomplete) (visited_mem hc t 0 0)
      have hsame : claimed cfg maxEpochWalkerNum activeWalkerNum p.pc w (visited cfg t 0 0)
          ((p.threadStates (visited cfg t 0 0)).setStatus .tcomplete) =
        claimed cfg maxEpochWalkerNum activeWalkerNum p.pc w (visited cfg t 0 0)
          (p.threadStates (visited cfg t 0 0)) := rfl
      have hold := h w
      simp only [Pool.setState_pc,Pool.setState_threadStates]
      omega
    exact hstate.setPc ht (by simp [hpc]) (by simp)
      (fun w => by rw [afterVisit_holds,Pool.setState_pc,hpc]; rfl)
  | advance hpc hne =>
    exact h.setPc ht (by simp [hpc]) (by simp) (fun w => by rw [afterVisit_holds,hpc]; rfl)

theorem run_inv (hc : cfg.Valid) {stale : Nat × Nat → ThreadState} {tr : List (Nat × Nat)}
    (hr : Run (PoolStep cfg maxEpochWalkerNum activeWalkerNum) (entry stale) tr p) :
    Control cfg maxEpochWalkerNum activeWalkerNum p ∧
      Accounted cfg maxEpochWalkerNum activeWalkerNum tr p := by
  refine hr.invariant (fun tr p => Control cfg maxEpochWalkerNum activeWalkerNum p ∧
    Accounted cfg maxEpochWalkerNum activeWalkerNum tr p)
    ⟨entry_control stale,entry_accounted stale⟩ ?_
  rintro tr p o p' ⟨hctl,hacc⟩ ⟨t,ht,hw,hs⟩
  have ha := threadStep_action hw hs
  exact ⟨control_action hc hctl ht ha,accounted_action hc hctl hacc ht ha⟩

/-- When every owner has left, the ranges are claimed up to their ends, and these ends
cut the tiling of all walkers at the active ones. -/
theorem count_of_allLeft (hc : cfg.Valid) (hactive : activeWalkerNum ≤ maxEpochWalkerNum)
    {tr : List (Nat × Nat)} (hctl : Control cfg maxEpochWalkerNum activeWalkerNum p)
    (hacc : Accounted cfg maxEpochWalkerNum activeWalkerNum tr p) (hl : AllLeft cfg p) (w : Nat) :
    (tr.map Prod.snd).count w = if w < activeWalkerNum then 1 else 0 := by
  have hzero : ∑ t ∈ Finset.range cfg.threadNum, (p.pc t).holds w = 0 :=
    Finset.sum_eq_zero (fun t ht => by rw [hl t (Finset.mem_range.mp ht)]; rfl)
  have hterm : ∀ r ∈ Finset.range cfg.socketNum ×ˢ Finset.range cfg.socketThreadNum,
      claimed cfg maxEpochWalkerNum activeWalkerNum p.pc w r (p.threadStates r) =
        (fun q : Nat × Nat => (if q.1 ≤ w ∧ w < q.2 then 1 else 0) *
          (if w < activeWalkerNum then 1 else 0)) (threadWalker cfg maxEpochWalkerNum r) := by
    intro r hr
    obtain ⟨howner,he⟩ := exists_owner hc hr
    have hd := hctl.drained _ howner (Or.inl (by rw [hl _ howner]; rfl))
    rw [he] at hd
    simp only [claimed,hl _ howner,activeEnd,threadWalkerBegin,threadWalkerEnd] at hd ⊢
    split_ifs <;> simp_all
  have hsum := sum_threadWalker cfg maxEpochWalkerNum (fun q : Nat × Nat =>
    (if q.1 ≤ w ∧ w < q.2 then 1 else 0) * (if w < activeWalkerNum then 1 else 0))
  rw [List.sum_map_mul_right,(threadWalkers_tiles hc maxEpochWalkerNum).sum_indicator] at hsum
  have hold := hacc w
  rw [hzero,Nat.add_zero,Finset.sum_congr rfl hterm,hsum] at hold
  rw [hold]
  split_ifs <;> omega

end FlashMob.WalkerManager
