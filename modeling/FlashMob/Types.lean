import Mathlib

namespace FlashMob

/-- Results of `uint32_t` arithmetic (`vertex_id_t`, `walker_id_t`) are reduced. -/
def u32 (n : Nat) : Nat := n % 2 ^ 32

/-- Subtraction of 32-bit numbers. -/
def u32Sub (a b : Nat) : Nat := u32 (a + 2 ^ 32 - b)

/-- Results of `uint64_t` and `size_t` arithmetic. -/
def u64 (n : Nat) : Nat := n % 2 ^ 64

/-- Subtraction of 64-bit numbers. -/
def u64Sub (a b : Nat) : Nat := u64 (a + 2 ^ 64 - u64 b)

/-- Narrowing to `partition_id_t`. -/
def u16 (n : Nat) : Nat := n % 2 ^ 16

theorem u32_of_lt {n : Nat} (h : n < 2 ^ 32) : u32 n = n := Nat.mod_eq_of_lt h

theorem u16_of_lt {n : Nat} (h : n < 2 ^ 16) : u16 n = n := Nat.mod_eq_of_lt h

theorem u32_lt (n : Nat) : u32 n < 2 ^ 32 := Nat.mod_lt _ (by omega)

theorem u64_of_lt {n : Nat} (h : n < 2 ^ 64) : u64 n = n := Nat.mod_eq_of_lt h

theorem u64_lt (n : Nat) : u64 n < 2 ^ 64 := Nat.mod_lt _ (by omega)

/-- A difference is right after its first number has wrapped. -/
theorem u64Sub_u64 {a b : Nat} (h : b ≤ a) : u64Sub (u64 a) b = u64 (a - b) := by
  simp only [u64Sub,u64]
  omega

theorem u32Sub_of_le {a b : Nat} (hle : b ≤ a) (ha : a < 2 ^ 32) : u32Sub a b = a - b := by
  rw [u32Sub,u32,show a + 2 ^ 32 - b = a - b + 2 ^ 32 by omega,Nat.add_mod_right,
    Nat.mod_eq_of_lt (by omega)]

/-- Rounding up computes `n - 1` from a sum `n` that may just have wrapped to zero. -/
theorem u32Sub_u32_one {n : Nat} (hpos : 0 < n) (hle : n ≤ 2 ^ 32) : u32Sub (u32 n) 1 = n - 1 := by
  rcases Nat.lt_or_eq_of_le hle with h | rfl
  · rw [u32_of_lt h,u32Sub_of_le hpos h]
  · rfl

/-- `UINT_MAX`, the mark of a name that has no id yet. -/
def uintMax : Nat := 2 ^ 32 - 1

-- constants.hpp and memory.hpp, as built without UNIT_TEST
def cacheLineSize : Nat := 64
def pageSize : Nat := 4096
def maxPartitionNum : Nat := 2048
def maxGroupNum : Nat := 128
def minPartitionBits : Nat := 4
def similarDegreeDirectSamplerMaxHintNum : Nat := 8
def memoryDataAlignment : Nat := cacheLineSize

def sizeofVertexId : Nat := 4
def sizeofPartitionId : Nat := 2
/-- `AdjList` is packed: a 4-byte degree and an 8-byte pointer. -/
def sizeofAdjList : Nat := 12
def sizeofAdjUnit : Nat := 4

inductive TaskStatus
  | tworking
  | tcomplete
  deriving DecidableEq, Repr

inductive SamplerClass
  | classExclusiveBufferSampler
  | classDirectSampler
  | classSamplerHintNum
  | classUniformDegreeDirectSampler
  | classSimilarDegreeDirectSampler
  | classBaseSampler
  deriving DecidableEq, Repr

namespace SamplerClass

/-- The value of an enumerator. -/
def code : SamplerClass → Nat
  | classExclusiveBufferSampler => 0
  | classDirectSampler => 1
  | classSamplerHintNum => 2
  | classUniformDegreeDirectSampler => 3
  | classSimilarDegreeDirectSampler => 4
  | classBaseSampler => 5

/-- `static_cast<SamplerClass>`; there is no enumerator for other numbers. -/
def ofCode : Nat → Option SamplerClass
  | 0 => some classExclusiveBufferSampler
  | 1 => some classDirectSampler
  | 2 => some classSamplerHintNum
  | 3 => some classUniformDegreeDirectSampler
  | 4 => some classSimilarDegreeDirectSampler
  | 5 => some classBaseSampler
  | _ => none

@[simp] theorem ofCode_code (c : SamplerClass) : ofCode c.code = some c := by
  cases c <;> rfl

theorem code_lt (c : SamplerClass) : c.code < 2 ^ 32 := by
  cases c <;> decide

theorem code_injective : Function.Injective code := fun a b h =>
  Option.some.inj (by rw [← ofCode_code a,h,ofCode_code b])

end SamplerClass

structure MultiThreadConfig where
  threadNum : Nat
  socketNum : Nat
  l2CacheSize : Nat
  deriving Repr

namespace MultiThreadConfig

def socketThreadNum (cfg : MultiThreadConfig) : Nat := cfg.threadNum / cfg.socketNum

def socketId (cfg : MultiThreadConfig) (thread : Nat) : Nat :=
  thread / (cfg.threadNum / cfg.socketNum)

def socketOffset (cfg : MultiThreadConfig) (thread : Nat) : Nat :=
  thread % (cfg.threadNum / cfg.socketNum)

/-- Each socket has the same, non-zero number of threads. -/
structure Valid (cfg : MultiThreadConfig) : Prop where
  sockets : 0 < cfg.socketNum
  threads : 0 < cfg.threadNum
  divides : cfg.socketNum ∣ cfg.threadNum

variable {cfg : MultiThreadConfig}

theorem Valid.threadNum_eq (h : cfg.Valid) :
    cfg.threadNum = cfg.socketNum * cfg.socketThreadNum :=
  (Nat.mul_div_cancel' h.divides).symm

theorem Valid.socketThreadNum_pos (h : cfg.Valid) : 0 < cfg.socketThreadNum :=
  Nat.div_pos (Nat.le_of_dvd h.threads h.divides) h.sockets

theorem Valid.socketId_lt (h : cfg.Valid) {t : Nat} (ht : t < cfg.threadNum) :
    cfg.socketId t < cfg.socketNum := by
  apply Nat.div_lt_of_lt_mul
  rw [Nat.mul_comm]
  exact h.threadNum_eq ▸ ht

theorem Valid.socketOffset_lt (h : cfg.Valid) (t : Nat) :
    cfg.socketOffset t < cfg.socketThreadNum := Nat.mod_lt _ h.socketThreadNum_pos

/-- The thread that sits at an offset of a socket. -/
def threadAt (cfg : MultiThreadConfig) (s i : Nat) : Nat := s * cfg.socketThreadNum + i

theorem Valid.threadAt_lt (h : cfg.Valid) {s i : Nat} (hs : s < cfg.socketNum)
    (hi : i < cfg.socketThreadNum) : cfg.threadAt s i < cfg.threadNum := by
  rw [h.threadNum_eq]
  have : (s + 1) * cfg.socketThreadNum ≤ cfg.socketNum * cfg.socketThreadNum :=
    Nat.mul_le_mul_right _ hs
  rw [Nat.add_mul] at this
  simp only [threadAt]
  omega

theorem Valid.socketId_threadAt (h : cfg.Valid) {s i : Nat} (hi : i < cfg.socketThreadNum) :
    cfg.socketId (cfg.threadAt s i) = s := by
  change (s * cfg.socketThreadNum + i) / cfg.socketThreadNum = s
  rw [Nat.mul_comm,Nat.mul_add_div h.socketThreadNum_pos,Nat.div_eq_of_lt hi,Nat.add_zero]

theorem Valid.socketOffset_threadAt {s i : Nat} (hi : i < cfg.socketThreadNum) :
    cfg.socketOffset (cfg.threadAt s i) = i := by
  change (s * cfg.socketThreadNum + i) % cfg.socketThreadNum = i
  rw [Nat.mul_comm,Nat.mul_add_mod,Nat.mod_eq_of_lt hi]

theorem threadAt_socket (cfg : MultiThreadConfig) (t : Nat) :
    cfg.threadAt (cfg.socketId t) (cfg.socketOffset t) = t := by
  change t / cfg.socketThreadNum * cfg.socketThreadNum + t % cfg.socketThreadNum = t
  rw [Nat.mul_comm]
  exact Nat.div_add_mod t _

end MultiThreadConfig

/-- The operations on `double` and `real_t` that the program uses. No law is assumed, so
what is proved for every instance holds under any rounding. -/
class Floating (R : Type) where
  ofNat : Nat → R
  minusOne : R
  add : R → R → R
  mul : R → R → R
  div : R → R → R
  lt : R → R → Bool
  le : R → R → Bool
  /-- Conversion to an unsigned integer. -/
  toNat : R → Nat

/-- Exact arithmetic in an ordered field. -/
instance Floating.exact (K : Type) [Field K] [LinearOrder K] [FloorSemiring K] : Floating K where
  ofNat n := n
  minusOne := -1
  add := (· + ·)
  mul := (· * ·)
  div := (· / ·)
  lt a b := decide (a < b)
  le a b := decide (a ≤ b)
  toNat := Nat.floor

namespace Floating
variable {R : Type} [Floating R]

/-- `std::min` and `std::max`. -/
def stdMin (a b : R) : R := if lt b a then b else a
def stdMax (a b : R) : R := if lt a b then b else a

variable {K : Type} [Field K] [LinearOrder K] [FloorSemiring K] {a b : K} {n : Nat}

@[simp] theorem exact_lt : lt a b = decide (a < b) := rfl
@[simp] theorem exact_le : le a b = decide (a ≤ b) := rfl
@[simp] theorem exact_add : add a b = a + b := rfl
@[simp] theorem exact_mul : mul a b = a * b := rfl
@[simp] theorem exact_div : div a b = a / b := rfl
@[simp] theorem exact_minusOne : (minusOne : K) = -1 := rfl
@[simp] theorem exact_ofNat : (ofNat n : K) = n := rfl

@[simp] theorem exact_stdMin : stdMin a b = min a b := by
  rw [stdMin,exact_lt,min_comm,min_def']
  simp only [decide_eq_true_eq]
  split_ifs <;> order

@[simp] theorem exact_stdMax : stdMax a b = max a b := by
  rw [stdMax,exact_lt,max_def']
  simp only [decide_eq_true_eq]
  split_ifs <;> order

end Floating

/-- `RandGen::gen`: a random integer from `[0, upper_bound)` and the generator after the draw. -/
class RandGen (ρ : Type) where
  gen : Nat → ρ → Nat × ρ
  gen_lt : ∀ b s, 0 < b → (gen b s).1 < b

/-- `RandGen::gen_float`. -/
class RandGenFloat (ρ R : Type) where
  genFloat : R → ρ → R × ρ

end FlashMob
