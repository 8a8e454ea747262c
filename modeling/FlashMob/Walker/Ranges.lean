import FlashMob.Types
import FlashMob.Lib.Tiling
import FlashMob.Lib.Update

namespace FlashMob.WalkerManager
open Lib.Tiling

/-- The loop that hands `remain` walkers from `begin` on to `parts` consecutive owners:
each takes at most `hint`, the last takes what remains. -/
def splitWalkers (hint : Nat) : Nat → Nat → Nat → List (Nat × Nat)
  | 0, _, _ => []
  | 1, begin_, remain => [(begin_, begin_ + remain)]
  | n+2, begin_, remain =>
    let walkerNum := min hint remain
    (begin_, begin_ + walkerNum) ::
      splitWalkers hint (n+1) (begin_ + walkerNum) (remain - walkerNum)

def pageWalkerNum : Nat := pageSize / min sizeofVertexId sizeofPartitionId

def chunkWalkerNum : Nat := memoryDataAlignment / min sizeofVertexId sizeofPartitionId

def hintSocketWalkerNum (cfg : MultiThreadConfig) (maxEpochWalkerNum : Nat) : Nat :=
  maxEpochWalkerNum / cfg.socketNum / pageWalkerNum * pageWalkerNum

def hintThreadWalkerNum (cfg : MultiThreadConfig) (maxEpochWalkerNum : Nat) : Nat :=
  maxEpochWalkerNum / cfg.threadNum / chunkWalkerNum * chunkWalkerNum

/-- `socket_walker_begin` and `socket_walker_end`. -/
def socketWalkers (cfg : MultiThreadConfig) (maxEpochWalkerNum : Nat) : List (Nat × Nat) :=
  splitWalkers (hintSocketWalkerNum cfg maxEpochWalkerNum) cfg.socketNum 0 maxEpochWalkerNum

/-- `thread_walker_begin` and `thread_walker_end`, a row for each socket. -/
def threadWalkers (cfg : MultiThreadConfig) (maxEpochWalkerNum : Nat) :
    List (List (Nat × Nat)) :=
  (socketWalkers cfg maxEpochWalkerNum).map (fun r =>
    splitWalkers (hintThreadWalkerNum cfg maxEpochWalkerNum) cfg.socketThreadNum r.1 (r.2 - r.1))

def threadWalker (cfg : MultiThreadConfig) (maxEpochWalkerNum : Nat) (r : Nat × Nat) : Nat × Nat :=
  ((threadWalkers cfg maxEpochWalkerNum).getD r.1 []).getD r.2 (0,0)

def threadWalkerBegin (cfg : MultiThreadConfig) (maxEpochWalkerNum : Nat) (r : Nat × Nat) : Nat :=
  (threadWalker cfg maxEpochWalkerNum r).1

def threadWalkerEnd (cfg : MultiThreadConfig) (maxEpochWalkerNum : Nat) (r : Nat × Nat) : Nat :=
  (threadWalker cfg maxEpochWalkerNum r).2

/-- The `CHECK` of `alloc_walker_array` for the walkers `r` of a socket. The factors are of type
`size_t`. -/
def pageCheck (sizeofT len : Nat) (r : Nat × Nat) : Bool :=
  r.2 ≤ r.1 || u64 (u64 (sizeofT * len) * r.1) % pageSize == 0

/-- Whether `alloc_walker_array` gets through its loop over the sockets. -/
def allocWalkerArrayChecks (cfg : MultiThreadConfig) (maxEpochWalkerNum sizeofT len : Nat) : Bool :=
  (socketWalkers cfg maxEpochWalkerNum).all (pageCheck sizeofT len)

@[simp] theorem length_splitWalkers (hint n b r : Nat) :
    (splitWalkers hint n b r).length = n := by
  induction n generalizing b r with
  | zero => rfl
  | succ n ih =>
    cases n with
    | zero => rfl
    | succ n => simp [splitWalkers,ih]

theorem splitWalkers_tiles (hint n b r : Nat) (hn : 0 < n) :
    Tiles b (splitWalkers hint n b r) (b + r) := by
  induction n generalizing b r with
  | zero => omega
  | succ n ih =>
    cases n with
    | zero => simp [splitWalkers]
    | succ n =>
      refine ⟨rfl,by omega,?_⟩
      have h := ih (b + min hint r) (r - min hint r) (by omega)
      rwa [show b + min hint r + (r - min hint r) = b + r by omega] at h

/-- When the walkers are enough for all owners, every range begins at a multiple. -/
theorem dvd_splitWalkers {q hint : Nat} (hq : q ∣ hint) {n b r : Nat} (hb : q ∣ b)
    (hr : hint * n ≤ r) : ∀ x ∈ splitWalkers hint n b r, q ∣ x.1 := by
  induction n generalizing b r with
  | zero => simp [splitWalkers]
  | succ n ih =>
    cases n with
    | zero =>
      intro x hx
      rw [List.mem_singleton.mp hx]
      exact hb
    | succ n =>
      have hroom : hint * (n + 1) + hint ≤ r := hr
      have hmin : min hint r = hint := Nat.min_eq_left (by omega)
      intro x hx
      rw [splitWalkers,hmin] at hx
      rcases List.mem_cons.mp hx with rfl | hx
      · exact hb
      · exact ih (Nat.dvd_add hb hq) (by omega) x hx

theorem pageCheck_of_dvd {sizeofT : Nat} (hsize : 2 ∣ sizeofT) (len : Nat) {r : Nat × Nat}
    (hr : pageWalkerNum ∣ r.1) : pageCheck sizeofT len r = true := by
  have hpage : pageSize ∣ sizeofT * len * r.1 := by
    have hmul := Nat.mul_dvd_mul (Dvd.dvd.mul_right hsize len) hr
    rwa [show 2 * pageWalkerNum = pageSize from rfl] at hmul
  have hwrap : u64 (u64 (sizeofT * len) * r.1) = u64 (sizeofT * len * r.1) := by
    rw [u64,u64,u64,Nat.mod_mul_mod]
  have hzero : u64 (sizeofT * len * r.1) % pageSize = 0 := by
    rw [u64,Nat.mod_mod_of_dvd _ (show pageSize ∣ 2 ^ 64 by decide)]
    exact Nat.mod_eq_zero_of_dvd hpage
  rw [pageCheck,hwrap,hzero]
  simp

section
variable {cfg : MultiThreadConfig} (hc : cfg.Valid) (maxEpochWalkerNum : Nat)

/-- Every socket begins on a page, in arrays of any element size and length. -/
theorem allocWalkerArray_checks {sizeofT : Nat} (hsize : 2 ∣ sizeofT) (len : Nat) :
    allocWalkerArrayChecks cfg maxEpochWalkerNum sizeofT len = true := by
  have hpages : pageWalkerNum ∣ hintSocketWalkerNum cfg maxEpochWalkerNum := Nat.dvd_mul_left _ _
  have hroom : hintSocketWalkerNum cfg maxEpochWalkerNum * cfg.socketNum ≤ maxEpochWalkerNum :=
    Nat.le_trans (Nat.mul_le_mul_right _ (Nat.div_mul_le_self _ _)) (Nat.div_mul_le_self _ _)
  refine List.all_eq_true.mpr (fun r hr => pageCheck_of_dvd hsize len ?_)
  exact dvd_splitWalkers hpages (Nat.dvd_zero _) hroom r hr

include hc

theorem socketWalkers_tiles :
    Tiles 0 (socketWalkers cfg maxEpochWalkerNum) maxEpochWalkerNum := by
  have h := splitWalkers_tiles (hintSocketWalkerNum cfg maxEpochWalkerNum) cfg.socketNum 0
    maxEpochWalkerNum hc.sockets
  rwa [Nat.zero_add] at h

/-- The ranges of the threads of a socket are consecutive and cover those of the socket. -/
theorem threadWalkers_rows : List.Forall₂ (fun r row => Tiles r.1 row r.2)
    (socketWalkers cfg maxEpochWalkerNum) (threadWalkers cfg maxEpochWalkerNum) := by
  apply List.forall₂_map_right_iff.mpr
  apply List.forall₂_same.mpr
  intro r hr
  have hle := ((socketWalkers_tiles hc maxEpochWalkerNum).mem_bounds hr).2.1
  have h := splitWalkers_tiles (hintThreadWalkerNum cfg maxEpochWalkerNum) cfg.socketThreadNum
    r.1 (r.2 - r.1) hc.socketThreadNum_pos
  rwa [Nat.add_sub_cancel' hle] at h

/-- Over sockets and threads, the ranges are consecutive and cover every walker. -/
theorem threadWalkers_tiles :
    Tiles 0 (threadWalkers cfg maxEpochWalkerNum).flatten maxEpochWalkerNum := by
  refine tiles_flatten (socketWalkers_tiles hc maxEpochWalkerNum)
    (List.Forall₂.imp ?_ (threadWalkers_rows hc maxEpochWalkerNum))
  intro r row h _
  exact h

end

theorem length_threadWalkers (cfg : MultiThreadConfig) (m : Nat) :
    (threadWalkers cfg m).length = cfg.socketNum := by
  simp [threadWalkers,socketWalkers]

theorem length_threadWalkers_row (cfg : MultiThreadConfig) (m : Nat) :
    ∀ row ∈ threadWalkers cfg m, row.length = cfg.socketThreadNum := by
  intro row hrow
  obtain ⟨r,_,rfl⟩ := List.mem_map.mp hrow
  exact length_splitWalkers _ _ _ _

/-- Summing over all threads' ranges is summing over the tiling. -/
theorem sum_threadWalker (cfg : MultiThreadConfig) (m : Nat) (f : Nat × Nat → Nat) :
    ∑ r ∈ Finset.range cfg.socketNum ×ˢ Finset.range cfg.socketThreadNum,
      f (threadWalker cfg m r) = ((threadWalkers cfg m).flatten.map f).sum := by
  rw [Finset.sum_product,← length_threadWalkers cfg m,List.map_flatten,List.sum_flatten,
    List.map_map]
  rw [← Lib.Update.sum_range_getD (threadWalkers cfg m) []]
  apply Finset.sum_congr rfl
  intro s hs
  have hrow := length_threadWalkers_row cfg m ((threadWalkers cfg m).getD s []) (by
    rw [List.getD_eq_getElem _ _ (Finset.mem_range.mp hs)]
    exact List.getElem_mem _)
  rw [← hrow]
  exact Lib.Update.sum_range_getD _ (0,0) f

end FlashMob.WalkerManager
