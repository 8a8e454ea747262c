import FlashMob.Lib.Stdio
import FlashMob.Types

namespace FlashMob.Config
open Floating Lib.Stdio

/-- What the machine reports, through `sysinfo.hpp`, libnuma and `getcpu`. -/
structure Machine where
  maxCoreNum : Nat
  maxSocketNum : Nat
  sysMem : Nat
  l2CacheSize : Nat
  numaAvailable : Bool
  /-- Whether `numa_run_on_node` returns zero. -/
  runOnNode : Int → Bool
  /-- The node of a thread, unless `getcpu` fails or `sched_getcpu` names another core. -/
  threadNode : Nat → Option Int
  /-- What lies in memory behind the array of the socket mapping. -/
  behindMapping : Nat → Int

structure NumaFlags where
  threadNum : Option Nat
  socketNum : Option Nat
  socketMapping : Option (List Char)
  memQuota : Option Nat

structure NumaOptions where
  mtcfg : MultiThreadConfig
  socketMapping : List Int
  memQuota : Nat

/-- Numbers are read from the text, each with a comma behind it or without. -/
def scanMapping : Nat → List Char → List Int
  | 0, _ => []
  | fuel+1, s =>
    match scanInt s with
    | none => []
    | some (n,',' :: rest) => n :: scanMapping fuel rest
    | some (n,rest) => n :: scanMapping fuel rest

/-- `get_socket_mapping`; the index is not checked. -/
def getSocketMapping (m : Machine) (socketMapping : List Int) (socket : Nat) : Int :=
  if socketMapping = [] then socket else socketMapping.getD socket (m.behindMapping socket)

def osMem : Nat := 2 ^ 31

def quota (R : Type) [Floating R] (m : Machine) (socketNum : Nat) : Option Nat → Option Nat
  | some q =>
    if u64 (q <<< 30) ≤ u64 (m.sysMem * socketNum) / m.maxSocketNum then some (u64 (q <<< 30))
    else none
  | none => some (toNat (div (mul (mul (ofNat (m.sysMem - osMem)) (div (ofNat 9) (ofNat 10)))
      (ofNat socketNum)) (ofNat m.maxSocketNum) : R))

/-- `NumaOptionHelper::parse`, unless a `CHECK` fails. -/
def parse (R : Type) [Floating R] (m : Machine) (flags : NumaFlags) : Option NumaOptions :=
  let socketNum := flags.socketNum.getD m.maxSocketNum
  let threadNum := flags.threadNum.getD (m.maxCoreNum / m.maxSocketNum * socketNum)
  let socketMapping := match flags.socketMapping with
    | some text => scanMapping text.length text
    | none => (List.range socketNum).map Int.ofNat
  if socketMapping.length = socketNum ∧
      (∀ s < socketNum, getSocketMapping m socketMapping s < m.maxSocketNum) ∧
      osMem ≤ m.sysMem then
    (quota R m socketNum flags.memQuota).map (fun memQuota =>
      ⟨⟨threadNum,socketNum,m.l2CacheSize⟩,socketMapping,memQuota⟩)
  else none

/-- Whether `init_concurrency` gets through. With fewer threads than sockets it divides by zero. -/
def initConcurrency (m : Machine) (o : NumaOptions) : Bool :=
  let node := fun t => getSocketMapping m o.socketMapping (o.mtcfg.socketId t)
  m.numaAvailable && decide (o.mtcfg.socketNum ≤ m.maxSocketNum) &&
    decide (0 < o.mtcfg.socketThreadNum) &&
    (List.range o.mtcfg.threadNum).all (fun t => m.runOnNode (node t)) &&
    (List.range o.mtcfg.threadNum).all (fun t => m.threadNode t == some (node t))

structure Accepted (R : Type) [Floating R] (m : Machine) (flags : NumaFlags)
    (cfg : MultiThreadConfig) : Prop where
  parsed : ∃ o, parse R m flags = some o ∧ o.mtcfg = cfg ∧ initConcurrency m o = true
  sockets : 1 ≤ cfg.socketNum
  threads : 1 ≤ cfg.threadNum

/-- The threads are numbered so that every parallel region addresses each task once. -/
structure ThreadsNumbered (cfg : MultiThreadConfig) : Prop where
  defined : 0 < cfg.threadNum / cfg.socketNum
  bijective : Set.BijOn (fun t => (cfg.socketId t,cfg.socketOffset t)) (Set.Iio cfg.threadNum)
    (Set.Iio cfg.socketNum ×ˢ Set.Iio cfg.socketThreadNum)

theorem threadsNumbered_of_valid {cfg : MultiThreadConfig} (hc : cfg.Valid) :
    ThreadsNumbered cfg := by
  refine ⟨hc.socketThreadNum_pos,?_,?_,?_⟩
  · intro t ht
    exact ⟨hc.socketId_lt ht,hc.socketOffset_lt t⟩
  · intro t _ t' _ he
    obtain ⟨hid,hoffset⟩ := Prod.mk.inj he
    rw [← cfg.threadAt_socket t,hid,hoffset,cfg.threadAt_socket]
  · rintro ⟨s,i⟩ ⟨hs,hi⟩
    refine ⟨cfg.threadAt s i,hc.threadAt_lt hs hi,?_⟩
    exact Prod.ext (hc.socketId_threadAt hi) (MultiThreadConfig.Valid.socketOffset_threadAt hi)

/-- When threads are left over, the first of them is on a socket that does not exist. -/
theorem ThreadsNumbered.divides {cfg : MultiThreadConfig} (h : ThreadsNumbered cfg) :
    cfg.socketNum ∣ cfg.threadNum := by
  have hle : cfg.socketNum * cfg.socketThreadNum ≤ cfg.threadNum := Nat.mul_div_le _ _
  rcases Nat.lt_or_eq_of_le hle with hlt | heq
  · have hin := (h.bijective.mapsTo (Set.mem_Iio.mpr hlt)).1
    have hid : cfg.socketId (cfg.socketNum * cfg.socketThreadNum) = cfg.socketNum :=
      Nat.mul_div_cancel _ h.defined
    rw [Set.mem_Iio,hid] at hin
    exact absurd hin (Nat.lt_irrefl _)
  · exact Dvd.intro _ heq

theorem Accepted.cfg_eq {R : Type} [Floating R] {m : Machine} {flags : NumaFlags}
    {cfg : MultiThreadConfig} (h : Accepted R m flags cfg) :
    cfg.threadNum = flags.threadNum.getD (m.maxCoreNum / m.maxSocketNum * cfg.socketNum) := by
  obtain ⟨o,hparse,rfl,_⟩ := h.parsed
  rw [parse] at hparse
  split_ifs at hparse
  obtain ⟨memQuota,_,rfl⟩ := Option.map_eq_some_iff.mp hparse
  rfl

/-- Neither of the functions that accept a configuration asks whether the threads can be shared out
among the sockets. -/
theorem threads_numbered_iff {R : Type} [Floating R] {m : Machine} {flags : NumaFlags}
    {cfg : MultiThreadConfig} (h : Accepted R m flags cfg) : ThreadsNumbered cfg ↔
    flags.threadNum = none ∨ ∃ threadNum, flags.threadNum = some threadNum ∧
      cfg.socketNum ∣ threadNum := by
  have hnum := h.cfg_eq
  cases hflag : flags.threadNum with
  | none =>
    -- The number that is chosen without the option is a multiple.
    rw [hflag,Option.getD_none] at hnum
    have hd : cfg.socketNum ∣ cfg.threadNum := hnum ▸ Nat.dvd_mul_left _ _
    exact ⟨fun _ => Or.inl rfl,fun _ => threadsNumbered_of_valid ⟨h.sockets,h.threads,hd⟩⟩
  | some threadNum =>
    rw [hflag,Option.getD_some] at hnum
    constructor
    · exact fun hn => Or.inr ⟨threadNum,rfl,hnum ▸ hn.divides⟩
    · rintro (hnone | ⟨n,hn,hd⟩)
      · cases hnone
      · obtain rfl := Option.some.inj hn
        exact threadsNumbered_of_valid ⟨h.sockets,h.threads,hnum ▸ hd⟩

theorem threads_numbered_two_sockets :
    let flags : NumaFlags := ⟨some 4,some 2,none,some 8⟩
    ThreadsNumbered ⟨4,2,2 ^ 20⟩ ↔ flags.threadNum = none ∨ ∃ threadNum,
      flags.threadNum = some threadNum ∧ 2 ∣ threadNum := by
  intro flags
  let m : Machine := ⟨8,2,2 ^ 34,2 ^ 20,true,fun n => decide (n < 2),
    fun t => some (if t < 2 then 0 else 1),fun _ => 0⟩
  have hparse : parse ℚ m flags = some ⟨⟨4,2,2 ^ 20⟩,[0,1],8 * 2 ^ 30⟩ := by
    rw [parse,if_pos (by decide),quota,if_pos (by decide)]
    rfl
  have h : Accepted ℚ m flags ⟨4,2,2 ^ 20⟩ := ⟨⟨_,hparse,rfl,by decide⟩,by decide,by decide⟩
  exact threads_numbered_iff h

/-- Three threads on two sockets: the third is on a socket of number two, whose mapping is what lies
behind the array. When that is a node on which the thread can run, nothing is noticed. -/
theorem threads_not_numbered : ∃ (m : Machine) (flags : NumaFlags) (cfg : MultiThreadConfig),
    flags.threadNum = some 3 ∧ flags.socketNum = some 2 ∧ Accepted ℚ m flags cfg ∧
    cfg.socketId 2 = 2 ∧ ¬ ThreadsNumbered cfg := by
  let m : Machine := ⟨8,2,2 ^ 34,2 ^ 20,true,fun n => decide (n < 2),
    fun t => some (if t = 1 then 1 else 0),fun _ => 0⟩
  have hparse : parse ℚ m ⟨some 3,some 2,none,some 8⟩ =
      some ⟨⟨3,2,2 ^ 20⟩,[0,1],8 * 2 ^ 30⟩ := by
    rw [parse,if_pos (by decide),quota,if_pos (by decide)]
    rfl
  have h : Accepted ℚ m ⟨some 3,some 2,none,some 8⟩ ⟨3,2,2 ^ 20⟩ :=
    ⟨⟨_,hparse,rfl,by decide⟩,by decide,by decide⟩
  refine ⟨m,_,_,rfl,rfl,h,rfl,fun hn => ?_⟩
  exact absurd hn.divides (by decide)

end FlashMob.Config
