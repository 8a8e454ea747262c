import FlashMob.Graph.Sockets
import FlashMob.Lib.Runs
import FlashMob.Lib.Update

namespace FlashMob.WalkManager
open Lib.Runs Lib.Update FlashMob.Graph

/-- Where a thread stands inside the parallel region of `walk`. It holds the messages of
its partition that it has not walked yet. -/
inductive Pc (ι : Type)
  | check
  | claim
  | walk (todo : List ι)
  | left

/-- What a thread does in the region: it takes a partition, found at an index of
`socket_partitions[socket]`, or walks one message of the partition it took. -/
inductive Event (ι : Type)
  | take (thread socket : Nat) (index : Int) (partition : Nat)
  | message (thread : Nat) (item : ι)

/-- The three progress counters of every socket, and the threads. -/
structure Progress (ι : Type) where
  partitionProgress : Nat → Nat
  hdvPartitionProgress : Nat → Nat
  ldvPartitionProgress : Nat → Nat
  pc : Nat → Pc ι

/-- What is fixed during the region: the sockets' partitions, the threads with their
sockets and roles, and the messages found at a partition. -/
structure Region (ι : Type) where
  socketNum : Nat
  partitionNum : Nat
  threadNum : Nat
  socket : Nat → Nat
  hdvThread : Nat → Bool
  messages : Nat → List ι

variable {ι : Type}

def Region.nums (g : Region ι) (s : Nat) : Nat := socketPartitionNums g.socketNum g.partitionNum s

def Region.partitions (g : Region ι) (s : Nat) : List Nat :=
  socketPartitions g.socketNum g.partitionNum s

/-- One atomic step of thread `t`. The positions are computed in `int`. -/
def threadStep (g : Region ι) (t : Nat) (st : Progress ι) :
    Option (Progress ι × Option (Event ι)) :=
  let s := g.socket t
  match st.pc t with
  | .check =>
    let progress := st.partitionProgress s
    some ({ st with
      partitionProgress := Function.update st.partitionProgress s (progress + 1)
      pc := Function.update st.pc t (if progress < g.nums s then .claim else .left) }, none)
  | .claim =>
    if g.hdvThread t then
      let index : Int := st.hdvPartitionProgress s
      let p := (g.partitions s).getD index.toNat 0
      some ({ st with
        hdvPartitionProgress :=
          Function.update st.hdvPartitionProgress s (st.hdvPartitionProgress s + 1)
        pc := Function.update st.pc t (.walk (g.messages p)) }, some (.take t s index p))
    else
      let index : Int := (g.nums s : Int) - st.ldvPartitionProgress s - 1
      let p := (g.partitions s).getD index.toNat 0
      some ({ st with
        ldvPartitionProgress :=
          Function.update st.ldvPartitionProgress s (st.ldvPartitionProgress s + 1)
        pc := Function.update st.pc t (.walk (g.messages p)) }, some (.take t s index p))
  | .walk (x :: todo) =>
    some ({ st with pc := Function.update st.pc t (.walk todo) }, some (.message t x))
  | .walk [] => some ({ st with pc := Function.update st.pc t .check }, none)
  | .left => none

def RegionStep (g : Region ι) (st : Progress ι) (o : Option (Event ι)) (st' : Progress ι) : Prop :=
  ∃ t < g.threadNum, threadStep g t st = some (st', o)

def entry : Progress ι := ⟨fun _ => 0, fun _ => 0, fun _ => 0, fun _ => .check⟩

/-- Every thread has left its loop. -/
def AllLeft (g : Region ι) (st : Progress ι) : Prop := ∀ t < g.threadNum, st.pc t = .left

/-- The indices used into `socket_partitions[s]`, in the order of the claims. -/
def indices (s : Nat) (tr : List (Event ι)) : List Int :=
  tr.filterMap (fun
    | .take _ s' index _ => if s' = s then some index else none
    | .message _ _ => none)

/-- The partitions taken on socket `s`, in the order of the claims. -/
def taken (s : Nat) (tr : List (Event ι)) : List Nat :=
  tr.filterMap (fun
    | .take _ s' _ p => if s' = s then some p else none
    | .message _ _ => none)

/-- The partitions taken on any socket. -/
def allTaken (tr : List (Event ι)) : List Nat :=
  tr.filterMap (fun
    | .take _ _ _ p => some p
    | .message _ _ => none)

/-- The messages walked, each with the thread that walked it. -/
def walked (tr : List (Event ι)) : List (Nat × ι) :=
  tr.filterMap (fun
    | .take _ _ _ _ => none
    | .message t x => some (t,x))

def Pc.claims : Pc ι → Nat
  | .claim => 1
  | _ => 0

def Pc.todo : Pc ι → List ι
  | .walk l => l
  | _ => []

/-- Threads of socket `s` that passed the guard and have not claimed a position yet. -/
def claiming (g : Region ι) (s : Nat) (st : Progress ι) : Nat :=
  ∑ t ∈ Finset.range g.threadNum, if g.socket t = s then (st.pc t).claims else 0

/-- The positions claimed so far: a prefix from one end and a suffix from the other. -/
def claimed (n hdv ldv : Nat) : List Int :=
  (List.range hdv).map (fun k : Nat => (k : Int)) ++
    (List.range ldv).map (fun k : Nat => (n : Int) - k - 1)

/-- The guard counter bounds the two claim counters together with the claims under way. -/
structure Inv (g : Region ι) (tr : List (Event ι)) (st : Progress ι) : Prop where
  guard : ∀ s, st.hdvPartitionProgress s + st.ldvPartitionProgress s + claiming g s st =
    min (st.partitionProgress s) (g.nums s)
  positions : ∀ s, (indices s tr).Perm
    (claimed (g.nums s) (st.hdvPartitionProgress s) (st.ldvPartitionProgress s))
  named : ∀ t s index p, Event.take t s index p ∈ tr →
    s = g.socket t ∧ p = (g.partitions s).getD index.toNat 0
  drained : ∀ t < g.threadNum, st.pc t = .left →
    g.nums (g.socket t) ≤ st.partitionProgress (g.socket t)

@[simp] theorem indices_append (s : Nat) (tr tr' : List (Event ι)) :
    indices s (tr ++ tr') = indices s tr ++ indices s tr' := List.filterMap_append

@[simp] theorem allTaken_append (tr tr' : List (Event ι)) :
    allTaken (tr ++ tr') = allTaken tr ++ allTaken tr' := List.filterMap_append

@[simp] theorem walked_append (tr tr' : List (Event ι)) :
    walked (tr ++ tr') = walked tr ++ walked tr' := List.filterMap_append

theorem walked_silent {tr : List (Event ι)} {o : Option (Event ι)}
    (ho : ∀ t x, o ≠ some (.message t x)) : walked (tr ++ o.toList) = walked tr := by
  rw [walked_append]
  match o with
  | none => exact List.append_nil _
  | some (.take ..) => exact List.append_nil _
  | some (.message t x) => exact absurd rfl (ho t x)

variable {g : Region ι} {st st' : Progress ι} {t : Nat}

theorem nums_eq (g : Region ι) (s : Nat) : g.nums s = (g.partitions s).length :=
  socketPartitionNums_eq _ _ _

theorem claiming_update (st : Progress ι) (s : Nat) (x : Pc ι) (ht : t < g.threadNum) :
    claiming g s { st with pc := Function.update st.pc t x } +
        (if g.socket t = s then (st.pc t).claims else 0) =
      claiming g s st + (if g.socket t = s then x.claims else 0) :=
  sum_update (fun t y => if g.socket t = s then Pc.claims y else 0) st.pc x
    (Finset.mem_range.mpr ht)

/-- Everything a step of thread `t` can do, case by case. -/
inductive Action (g : Region ι) (t : Nat) (st : Progress ι) :
    Progress ι → Option (Event ι) → Prop
  | pass (hpc : st.pc t = .check) (hlt : st.partitionProgress (g.socket t) < g.nums (g.socket t)) :
      Action g t st { st with
        partitionProgress := Function.update st.partitionProgress (g.socket t)
          (st.partitionProgress (g.socket t) + 1)
        pc := Function.update st.pc t .claim } none
  | leave (hpc : st.pc t = .check)
      (hge : g.nums (g.socket t) ≤ st.partitionProgress (g.socket t)) :
      Action g t st { st with
        partitionProgress := Function.update st.partitionProgress (g.socket t)
          (st.partitionProgress (g.socket t) + 1)
        pc := Function.update st.pc t .left } none
  | front {p : Nat} (hpc : st.pc t = .claim)
      (hp : p = (g.partitions (g.socket t)).getD
        (st.hdvPartitionProgress (g.socket t) : Int).toNat 0) :
      Action g t st { st with
        hdvPartitionProgress := Function.update st.hdvPartitionProgress (g.socket t)
          (st.hdvPartitionProgress (g.socket t) + 1)
        pc := Function.update st.pc t (.walk (g.messages p)) }
        (some (.take t (g.socket t) (st.hdvPartitionProgress (g.socket t)) p))
  | back {p : Nat} (hpc : st.pc t = .claim)
      (hp : p = (g.partitions (g.socket t)).getD ((g.nums (g.socket t) : Int) -
        st.ldvPartitionProgress (g.socket t) - 1).toNat 0) :
      Action g t st { st with
        ldvPartitionProgress := Function.update st.ldvPartitionProgress (g.socket t)
          (st.ldvPartitionProgress (g.socket t) + 1)
        pc := Function.update st.pc t (.walk (g.messages p)) }
        (some (.take t (g.socket t) ((g.nums (g.socket t) : Int) -
          st.ldvPartitionProgress (g.socket t) - 1) p))
  | message {x : ι} {todo : List ι} (hpc : st.pc t = .walk (x :: todo)) :
      Action g t st { st with pc := Function.update st.pc t (.walk todo) } (some (.message t x))
  | next (hpc : st.pc t = .walk []) :
      Action g t st { st with pc := Function.update st.pc t .check } none

theorem threadStep_action {o : Option (Event ι)} (h : threadStep g t st = some (st',o)) :
    Action g t st st' o := by
  unfold threadStep at h
  cases hpc : st.pc t with
  | check =>
    simp only [hpc,Option.some.injEq,Prod.mk.injEq] at h
    obtain ⟨rfl,rfl⟩ := h
    by_cases hlt : st.partitionProgress (g.socket t) < g.nums (g.socket t)
    · rw [if_pos hlt]; exact .pass hpc hlt
    · rw [if_neg hlt]; exact .leave hpc (Nat.le_of_not_lt hlt)
  | claim =>
    simp only [hpc] at h
    split at h
    · cases h; exact .front hpc rfl
    · cases h; exact .back hpc rfl
  | walk todo =>
    cases todo with
    | nil => simp only [hpc] at h; cases h; exact .next hpc
    | cons x todo => simp only [hpc] at h; cases h; exact .message hpc
  | left => simp [hpc] at h

end FlashMob.WalkManager
