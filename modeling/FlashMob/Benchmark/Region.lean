import FlashMob.Benchmark.Tasks
import FlashMob.Lib.Runs
import FlashMob.Lib.Update

namespace FlashMob.Benchmark
open Floating Lib.Keyed Lib.Runs Lib.Update

/-- Where a thread stands in the two parallel regions of `mini_benchmark`. In the first one it fills
its edges and its walkers with random vertices, and waits for the other threads. In the second one
it takes a degree, runs the tasks of the degree, and enters each result under the lock. -/
inductive Pc (D : Type)
  | edges (e : Nat)
  | walkers (w : Nat)
  | filled
  | claim
  | run (degree : Nat) (todo : List BmkTask)
  | lock (item : MiniBMKItem D) (todo : List BmkTask)
  | add (item : MiniBMKItem D) (todo : List BmkTask)
  | unlock (degree : Nat) (todo : List BmkTask)
  | finish
  | spin
  | left

/-- What is fixed during the regions. -/
structure BmkRegion where
  threadNum : Nat
  maxThreadWalkerNum : Nat
  testDegrees : List Nat
  bmkTasks : Nat → List BmkTask

/-- The shared variables, and the threads. -/
structure BmkState (D : Type) where
  progress : Nat
  finishedThreadNum : Nat
  catManagerLock : Option Nat
  catManager : MiniBMKCatManager D
  pc : Nat → Pc D

def BmkArgs.region {D : Type} [Floating D] (args : BmkArgs D) (m : MiniBMKCatManager D) :
    BmkRegion := ⟨args.threadNum,args.maxThreadWalkerNum,args.testDegrees,args.bmkTasks m⟩

def BmkState.entry {D : Type} (m : MiniBMKCatManager D) : BmkState D :=
  ⟨0,0,none,m,fun _ => .edges 0⟩

namespace Pc
variable {D : Type}

def filling : Pc D → Bool
  | edges _ | walkers _ => true
  | _ => false

end Pc

section
variable {D : Type}

def BmkState.move (st : BmkState D) (t : Nat) (pc : Pc D) : BmkState D :=
  { st with pc := Function.update st.pc t pc }

/-- One atomic step of thread `t`, and the item that it entered. The measured time is
any. A round of the last loop that finds a thread still at work changes nothing here. The loop over
the edges counts in 64 bits, that over the walkers in 32 bits. -/
inductive ThreadStep (g : BmkRegion) (t : Nat) (st : BmkState D) :
    Option (MiniBMKItem D) → BmkState D → Prop
  | edge {e : Nat} (hpc : st.pc t = .edges e) (hlt : e < threadEdgeNum) :
      ThreadStep g t st none (st.move t (.edges (e + 1)))
  | edges {e : Nat} (hpc : st.pc t = .edges e) (hge : threadEdgeNum ≤ e) :
      ThreadStep g t st none (st.move t (.walkers 0))
  | walker {w : Nat} (hpc : st.pc t = .walkers w) (hlt : w < g.maxThreadWalkerNum) :
      ThreadStep g t st none (st.move t (.walkers (u32 (w + 1))))
  | walkers {w : Nat} (hpc : st.pc t = .walkers w) (hge : g.maxThreadWalkerNum ≤ w) :
      ThreadStep g t st none (st.move t .filled)
  | enter (hpc : st.pc t = .filled) (hall : ∀ u < g.threadNum, (st.pc u).filling = false) :
      ThreadStep g t st none (st.move t .claim)
  | claim {degree : Nat} (hpc : st.pc t = .claim) (hd : g.testDegrees[st.progress]? = some degree) :
      ThreadStep g t st none
        ({ st with progress := u32 (st.progress + 1) }.move t (.run degree (g.bmkTasks degree)))
  | exhausted (hpc : st.pc t = .claim) (hd : g.testDegrees.length ≤ st.progress) :
      ThreadStep g t st none ({ st with progress := u32 (st.progress + 1) }.move t .finish)
  | next {degree : Nat} (hpc : st.pc t = .run degree []) : ThreadStep g t st none (st.move t .claim)
  | measure {degree : Nat} {task : BmkTask} {todo : List BmkTask} (time : D)
      (hpc : st.pc t = .run degree (task :: todo)) :
      ThreadStep g t st none (st.move t (.lock ⟨task.ptnBits,degree,task.sclass,time⟩ todo))
  | lock {item : MiniBMKItem D} {todo : List BmkTask} (hpc : st.pc t = .lock item todo)
      (hfree : st.catManagerLock = none) :
      ThreadStep g t st none ({ st with catManagerLock := some t }.move t (.add item todo))
  | add {item : MiniBMKItem D} {todo : List BmkTask} {m : MiniBMKCatManager D}
      (hpc : st.pc t = .add item todo) (hadd : st.catManager.addItem item = some m) :
      ThreadStep g t st (some item) ({ st with catManager := m }.move t (.unlock item.degree todo))
  | unlock {degree : Nat} {todo : List BmkTask} (hpc : st.pc t = .unlock degree todo) :
      ThreadStep g t st none ({ st with catManagerLock := none }.move t (.run degree todo))
  | finish (hpc : st.pc t = .finish) :
      ThreadStep g t st none
        ({ st with finishedThreadNum := st.finishedThreadNum + 1 }.move t .spin)
  | leave (hpc : st.pc t = .spin) (hall : st.finishedThreadNum = g.threadNum) :
      ThreadStep g t st none (st.move t .left)

def BmkStep (g : BmkRegion) (st : BmkState D) (o : Option (MiniBMKItem D)) (st' : BmkState D) :
    Prop :=
  ∃ t < g.threadNum, ThreadStep g t st o st'

def BmkState.AllLeft (g : BmkRegion) (st : BmkState D) : Prop := ∀ t < g.threadNum, st.pc t = .left

end

def BmkRegion.keysOf (g : BmkRegion) (degrees : List Nat) : List (ℕ ×ₗ ℕ ×ₗ ℕ) :=
  degrees.flatMap (fun d => (g.bmkTasks d).map (fun task => task.key d))

def BmkRegion.keys (g : BmkRegion) : List (ℕ ×ₗ ℕ ×ₗ ℕ) := g.keysOf g.testDegrees

namespace Pc
variable {D : Type}

/-- The keys of the tasks that a thread has taken and not entered yet. -/
def keys : Pc D → List (ℕ ×ₗ ℕ ×ₗ ℕ)
  | run degree todo | unlock degree todo => todo.map (fun task => task.key degree)
  | lock item todo | add item todo => item.key :: todo.map (fun task => task.key item.degree)
  | _ => []

def past : Pc D → Nat
  | finish | spin | left => 1
  | _ => 0

def counted : Pc D → Nat
  | spin | left => 1
  | _ => 0

def holds : Pc D → Bool
  | add _ _ | unlock _ _ => true
  | _ => false

def item? : Pc D → Option (MiniBMKItem D)
  | lock item _ | add item _ => some item
  | _ => none

/-- The steps of a thread until it has left, when it takes no more degrees. -/
def work (g : BmkRegion) : Pc D → Nat
  | edges e => threadEdgeNum - e + g.maxThreadWalkerNum + 6
  | walkers w => g.maxThreadWalkerNum - w + 5
  | filled => 4
  | claim => 3
  | run _ todo => 4 * todo.length + 4
  | lock _ todo => 4 * todo.length + 7
  | add _ todo => 4 * todo.length + 6
  | unlock _ todo => 4 * todo.length + 5
  | finish => 2
  | spin => 1
  | left => 0

end Pc

section
variable {D : Type} {g : BmkRegion} {m₀ : MiniBMKCatManager D} {tr : List (MiniBMKItem D)}
  {st st' : BmkState D} {t : Nat}

theorem BmkState.sum_move (f : Pc D → Nat) (st : BmkState D) (pc : Pc D) (ht : t < g.threadNum) :
    ∑ u ∈ Finset.range g.threadNum, f ((st.move t pc).pc u) + f (st.pc t) =
      ∑ u ∈ Finset.range g.threadNum, f (st.pc u) + f pc :=
  sum_update (fun _ pc => f pc) st.pc pc (Finset.mem_range.mpr ht)

/-- What the two counters say about the threads. -/
structure Counts (g : BmkRegion) (st : BmkState D) : Prop where
  progress : st.progress ≤
    g.testDegrees.length + ∑ t ∈ Finset.range g.threadNum, (st.pc t).past
  drained : ∀ t < g.threadNum, (st.pc t).past = 1 → g.testDegrees.length ≤ st.progress
  finished : st.finishedThreadNum = ∑ t ∈ Finset.range g.threadNum, (st.pc t).counted
  left : ∀ t < g.threadNum, st.pc t = .left → st.finishedThreadNum = g.threadNum

/-- The lock is held by the thread that is between `lock` and `unlock`. -/
structure Locked (g : BmkRegion) (st : BmkState D) : Prop where
  holder : ∀ t < g.threadNum, (st.pc t).holds = true ↔ st.catManagerLock = some t
  held : ∀ t, st.catManagerLock = some t → t < g.threadNum

/-- The times that the threads have measured and not entered yet have a property. -/
def TimesIn (P : D → Prop) (g : BmkRegion) (st : BmkState D) : Prop :=
  ∀ t < g.threadNum, ∀ item ∈ (st.pc t).item?, P item.stepTime

/-- Each task has been entered, is with a thread or has not been taken. -/
def BmkAccounted (g : BmkRegion) (tr : List (MiniBMKItem D)) (st : BmkState D) : Prop :=
  ∀ k, (tr.map MiniBMKItem.key).count k +
      ∑ t ∈ Finset.range g.threadNum, (st.pc t).keys.count k +
      (g.keysOf (g.testDegrees.drop st.progress)).count k = g.keys.count k

/-- The catalogue holds what was there before and what was entered. -/
structure Entered (m₀ : MiniBMKCatManager D) (tr : List (MiniBMKItem D)) (st : BmkState D) :
    Prop where
  items : ∀ y, y ∈ st.catManager.catSet.items ↔ y ∈ m₀.catSet.items ∨ y ∈ tr
  newItemNum : st.catManager.newItemNum = m₀.newItemNum + tr.length

end

end FlashMob.Benchmark
