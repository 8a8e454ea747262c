import FlashMob.Walker.Ranges
import FlashMob.Lib.Runs

namespace FlashMob.WalkerManager
open Lib.Runs Lib.Tiling MultiThreadConfig

/-- `ThreadState`; `last` is the field `end`. -/
structure ThreadState where
  curr : Nat
  last : Nat
  status : TaskStatus

def ThreadState.setCurr (ts : ThreadState) (c : Nat) : ThreadState := { ts with curr := c }
def ThreadState.setStatus (ts : ThreadState) (st : TaskStatus) : ThreadState :=
  { ts with status := st }

@[simp] theorem ThreadState.setCurr_curr (ts : ThreadState) (c : Nat) :
    (ts.setCurr c).curr = c := rfl
@[simp] theorem ThreadState.setCurr_last (ts : ThreadState) (c : Nat) :
    (ts.setCurr c).last = ts.last := rfl
@[simp] theorem ThreadState.setCurr_status (ts : ThreadState) (c : Nat) :
    (ts.setCurr c).status = ts.status := rfl
@[simp] theorem ThreadState.setStatus_curr (ts : ThreadState) (st : TaskStatus) :
    (ts.setStatus st).curr = ts.curr := rfl
@[simp] theorem ThreadState.setStatus_last (ts : ThreadState) (st : TaskStatus) :
    (ts.setStatus st).last = ts.last := rfl

/-- Where a thread stands inside the parallel region of `process_walkers`. The indices are
`s_i` and `t_i` of its two loops. -/
inductive Pc
  | start
  | barrier
  | visit (s i : Nat)
  | fetch (s i : Nat)
  | work (s i w workEnd : Nat)
  | leave (s i : Nat)
  | left
  deriving DecidableEq

structure Pool where
  threadStates : Nat × Nat → ThreadState
  pc : Nat → Pc

def Pool.setPc (p : Pool) (t : Nat) (x : Pc) : Pool :=
  { p with pc := Function.update p.pc t x }

def Pool.setState (p : Pool) (r : Nat × Nat) (ts : ThreadState) : Pool :=
  { p with threadStates := Function.update p.threadStates r ts }

@[simp] theorem Pool.setPc_pc (p : Pool) (t : Nat) (x : Pc) :
    (p.setPc t x).pc = Function.update p.pc t x := rfl
@[simp] theorem Pool.setPc_threadStates (p : Pool) (t : Nat) (x : Pc) :
    (p.setPc t x).threadStates = p.threadStates := rfl
@[simp] theorem Pool.setState_pc (p : Pool) (r : Nat × Nat) (ts : ThreadState) :
    (p.setState r ts).pc = p.pc := rfl
@[simp] theorem Pool.setState_threadStates (p : Pool) (r : Nat × Nat) (ts : ThreadState) :
    (p.setState r ts).threadStates = Function.update p.threadStates r ts := rfl

def chunkSize : Nat := 64

def localRange (cfg : MultiThreadConfig) (t : Nat) : Nat × Nat :=
  (cfg.socketId t, cfg.socketOffset t)

/-- The range a thread looks at in iteration `(s_i, t_i)` of its own rotation. -/
def visited (cfg : MultiThreadConfig) (t s i : Nat) : Nat × Nat :=
  ((cfg.socketId t + s) % cfg.socketNum, (cfg.socketOffset t + i) % cfg.socketThreadNum)

def afterVisit (cfg : MultiThreadConfig) (s i : Nat) : Pc :=
  if i + 1 < cfg.socketThreadNum then .visit s (i + 1)
  else if s + 1 < cfg.socketNum then .visit (s + 1) 0
  else .left

variable (cfg : MultiThreadConfig) (maxEpochWalkerNum activeWalkerNum : Nat)

/-- The state a thread writes for its own range before the barrier. -/
def initialState (r : Nat × Nat) : ThreadState :=
  ⟨threadWalkerBegin cfg maxEpochWalkerNum r,
    min (threadWalkerEnd cfg maxEpochWalkerNum r) activeWalkerNum, .tworking⟩

/-- One atomic step of thread `t`, and the call of `process` it makes, if any. A thread has
no step while it waits at the barrier and after it left the region. -/
def threadStep (t : Nat) (p : Pool) : Option (Pool × Option (Nat × Nat)) :=
  match p.pc t with
  | .start =>
    let r := localRange cfg t
    some ((p.setState r (initialState cfg maxEpochWalkerNum activeWalkerNum r)).setPc t .barrier,
      none)
  | .barrier =>
    if ∀ t' < cfg.threadNum, p.pc t' ≠ .start then some (p.setPc t (.visit 0 0), none) else none
  | .visit s i =>
    if (p.threadStates (visited cfg t s i)).status = .tworking then
      some (p.setPc t (.fetch s i), none)
    else some (p.setPc t (.leave s i), none)
  | .fetch s i =>
    let r := visited cfg t s i
    let ts := p.threadStates r
    let workBegin := ts.curr
    let q := p.setState r (ts.setCurr (u32 (workBegin + chunkSize)))
    if workBegin < ts.last then
      some (q.setPc t (.work s i workBegin (min (u32 (workBegin + chunkSize)) ts.last)), none)
    else some (q.setPc t (.leave s i), none)
  | .work s i w workEnd =>
    if w < workEnd then some (p.setPc t (.work s i (w + 1) workEnd), some (t, w))
    else some (p.setPc t (.visit s i), none)
  | .leave s i =>
    let r := visited cfg t s i
    let q := if s = 0 ∧ i = 0 then
      p.setState r ((p.threadStates r).setStatus .tcomplete) else p
    some (q.setPc t (afterVisit cfg s i), none)
  | .left => none

/-- The next fetch-and-add of thread `t` stays below 2^32. -/
def NoWrap (t : Nat) (p : Pool) : Prop :=
  ∀ s i, p.pc t = .fetch s i → (p.threadStates (visited cfg t s i)).curr + chunkSize < 2 ^ 32

/-- One atomic step of one of the threads, on cursors that do not wrap. -/
def PoolStep (p : Pool) (o : Option (Nat × Nat)) (p' : Pool) : Prop :=
  ∃ t < cfg.threadNum, NoWrap cfg t p ∧
    threadStep cfg maxEpochWalkerNum activeWalkerNum t p = some (p', o)

/-- The threads enter the region; what an earlier region left in the thread states is arbitrary. -/
def entry (stale : Nat × Nat → ThreadState) : Pool := ⟨stale, fun _ => .start⟩

/-- All threads have left the region. -/
def AllLeft (p : Pool) : Prop := ∀ t < cfg.threadNum, p.pc t = .left

variable {cfg maxEpochWalkerNum activeWalkerNum}

theorem visited_zero (hc : cfg.Valid) {t : Nat} (ht : t < cfg.threadNum) :
    visited cfg t 0 0 = localRange cfg t := by
  have h2 : cfg.socketOffset t % cfg.socketThreadNum = cfg.socketOffset t :=
    Nat.mod_eq_of_lt (hc.socketOffset_lt t)
  simp [visited,localRange,Nat.mod_eq_of_lt (hc.socketId_lt ht),h2]

theorem visited_mem (hc : cfg.Valid) (t s i : Nat) : visited cfg t s i ∈
    Finset.range cfg.socketNum ×ˢ Finset.range cfg.socketThreadNum := by
  simp [visited,Nat.mod_lt _ hc.sockets,Nat.mod_lt _ hc.socketThreadNum_pos]

/-- A range inside the configuration has one owner, the thread at its place. -/
theorem exists_owner (hc : cfg.Valid) {r : Nat × Nat}
    (hr : r ∈ Finset.range cfg.socketNum ×ˢ Finset.range cfg.socketThreadNum) :
    cfg.threadAt r.1 r.2 < cfg.threadNum ∧ localRange cfg (cfg.threadAt r.1 r.2) = r := by
  obtain ⟨h1,h2⟩ := Finset.mem_product.mp hr
  have h2 := Finset.mem_range.mp h2
  refine ⟨hc.threadAt_lt (Finset.mem_range.mp h1) h2,?_⟩
  simp [localRange,hc.socketId_threadAt h2,Valid.socketOffset_threadAt h2]

theorem localRange_mem (hc : cfg.Valid) {t : Nat} (ht : t < cfg.threadNum) : localRange cfg t ∈
    Finset.range cfg.socketNum ×ˢ Finset.range cfg.socketThreadNum := by
  simp [localRange,hc.socketId_lt ht,hc.socketOffset_lt t]

theorem localRange_inj {t t' : Nat} (h : localRange cfg t = localRange cfg t') : t = t' := by
  rw [← cfg.threadAt_socket t,← cfg.threadAt_socket t']
  simp only [localRange,Prod.mk.injEq] at h
  rw [h.1,h.2]

/-- Everything a step of thread `t` can do, case by case. -/
inductive Action (cfg : MultiThreadConfig) (maxEpochWalkerNum activeWalkerNum t : Nat) (p : Pool) :
    Pool → Option (Nat × Nat) → Prop
  | enter (hpc : p.pc t = .start) : Action cfg maxEpochWalkerNum activeWalkerNum t p
      ((p.setState (localRange cfg t) (initialState cfg maxEpochWalkerNum activeWalkerNum
        (localRange cfg t))).setPc t .barrier) none
  | pass (hpc : p.pc t = .barrier) (hall : ∀ t' < cfg.threadNum, p.pc t' ≠ .start) :
      Action cfg maxEpochWalkerNum activeWalkerNum t p (p.setPc t (.visit 0 0)) none
  | look {s i : Nat} (hpc : p.pc t = .visit s i)
      (hst : (p.threadStates (visited cfg t s i)).status = .tworking) :
      Action cfg maxEpochWalkerNum activeWalkerNum t p (p.setPc t (.fetch s i)) none
  | skip {s i : Nat} (hpc : p.pc t = .visit s i)
      (hst : (p.threadStates (visited cfg t s i)).status = .tcomplete) :
      Action cfg maxEpochWalkerNum activeWalkerNum t p (p.setPc t (.leave s i)) none
  | claim {s i : Nat} {ts : ThreadState} (hpc : p.pc t = .fetch s i)
      (hts : p.threadStates (visited cfg t s i) = ts) (hlt : ts.curr < ts.last) :
      Action cfg maxEpochWalkerNum activeWalkerNum t p
        ((p.setState (visited cfg t s i) (ts.setCurr (ts.curr + chunkSize))).setPc t
          (.work s i ts.curr (min (ts.curr + chunkSize) ts.last))) none
  | miss {s i : Nat} {ts : ThreadState} (hpc : p.pc t = .fetch s i)
      (hts : p.threadStates (visited cfg t s i) = ts) (hge : ts.last ≤ ts.curr) :
      Action cfg maxEpochWalkerNum activeWalkerNum t p
        ((p.setState (visited cfg t s i) (ts.setCurr (ts.curr + chunkSize))).setPc t
          (.leave s i)) none
  | process {s i w workEnd : Nat} (hpc : p.pc t = .work s i w workEnd) (hlt : w < workEnd) :
      Action cfg maxEpochWalkerNum activeWalkerNum t p
        (p.setPc t (.work s i (w + 1) workEnd)) (some (t,w))
  | chunkDone {s i w workEnd : Nat} (hpc : p.pc t = .work s i w workEnd) (hge : workEnd ≤ w) :
      Action cfg maxEpochWalkerNum activeWalkerNum t p (p.setPc t (.visit s i)) none
  | complete (hpc : p.pc t = .leave 0 0) : Action cfg maxEpochWalkerNum activeWalkerNum t p
      ((p.setState (visited cfg t 0 0)
        ((p.threadStates (visited cfg t 0 0)).setStatus .tcomplete)).setPc t
          (afterVisit cfg 0 0)) none
  | advance {s i : Nat} (hpc : p.pc t = .leave s i) (hne : ¬(s = 0 ∧ i = 0)) :
      Action cfg maxEpochWalkerNum activeWalkerNum t p (p.setPc t (afterVisit cfg s i)) none

theorem threadStep_action {t : Nat} {p p' : Pool} {o : Option (Nat × Nat)}
    (hw : NoWrap cfg t p)
    (h : threadStep cfg maxEpochWalkerNum activeWalkerNum t p = some (p',o)) :
    Action cfg maxEpochWalkerNum activeWalkerNum t p p' o := by
  unfold threadStep at h
  cases hpc : p.pc t with
  | start => simp only [hpc,Option.some.injEq,Prod.mk.injEq] at h; obtain ⟨rfl,rfl⟩ := h; exact .enter hpc
  | barrier =>
    simp only [hpc,Option.ite_none_right_eq_some,Option.some.injEq,Prod.mk.injEq] at h
    obtain ⟨hall,rfl,rfl⟩ := h
    exact .pass hpc hall
  | visit s i =>
    simp only [hpc] at h
    split at h
    · rename_i hst
      cases h
      exact .look hpc hst
    · rename_i hst
      cases h
      refine .skip hpc ?_
      cases hs : (p.threadStates (visited cfg t s i)).status with
      | tworking => exact absurd hs hst
      | tcomplete => rfl
  | fetch s i =>
    simp only [hpc,u32_of_lt (hw s i hpc)] at h
    split at h
    · rename_i hlt
      cases h
      exact .claim hpc rfl hlt
    · rename_i hge
      cases h
      exact .miss hpc rfl (Nat.le_of_not_lt hge)
  | work s i w workEnd =>
    simp only [hpc] at h
    split at h
    · rename_i hlt
      cases h
      exact .process hpc hlt
    · rename_i hge
      cases h
      exact .chunkDone hpc (Nat.le_of_not_lt hge)
  | leave s i =>
    simp only [hpc] at h
    cases h
    by_cases h0 : s = 0 ∧ i = 0
    · obtain ⟨rfl,rfl⟩ := h0
      exact .complete hpc
    · rw [if_neg h0]
      exact .advance hpc h0
  | left => simp [hpc] at h

end FlashMob.WalkerManager
