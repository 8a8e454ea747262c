import Mathlib

namespace FlashMob.Graph

/-- `BloomFilter`: one word for each slot of the table. -/
structure BloomFilter where
  hashBitmask : BitVec 64
  table : Nat → BitVec 64
  sz : Nat

namespace BloomFilter

def getHash (bf : BloomFilter) (x : BitVec 64) : BitVec 64 :=
  let x := (x ^^^ (x >>> 30)) * 0xbf58476d1ce4e5b9
  let x := (x ^^^ (x >>> 27)) * 0x94d049bb133111eb
  let x := x ^^^ (x >>> 31)
  x &&& bf.hashBitmask

/-- The four 16-bit words of a value, the lowest first. -/
def words (n : BitVec 64) : List Nat :=
  (List.range 4).map (fun i => ((n >>> (16 * i)).setWidth 16).toNat)

def getBloom (n : BitVec 64) : BitVec 64 :=
  ((words n).foldl (fun (st : BitVec 64 × Nat × Nat) word =>
    let sum1 := (st.2.1 + word) % 65535
    let sum2 := (st.2.2 + sum1) % 65535
    (st.1 ||| (1 <<< (sum2 % 64)), sum1, sum2)) (0,0,0)).1

def getValue (v1 v2 : Nat) : BitVec 64 :=
  let v := if v2 < v1 then (v2,v1) else (v1,v2)
  (BitVec.ofNat 64 v.1 <<< 32) ||| BitVec.ofNat 64 v.2

/-- The loop of `cal_hash_table_capacity`; a 64-bit number is doubled at most 62 times. -/
def searchCapacity (itemNum : Nat) : Nat → Nat → Nat
  | 0, capacity => capacity
  | fuel+1, capacity =>
    if capacity ≤ itemNum / 4 then searchCapacity itemNum fuel (capacity * 2) else capacity

def calHashTableCapacity (itemNum : Nat) : Nat := searchCapacity itemNum 62 4

def calHashTableSize (itemNum : Nat) : Nat := 8 * calHashTableCapacity itemNum

def create (itemNum : Nat) : BloomFilter :=
  let htCapacity := calHashTableCapacity itemNum
  ⟨BitVec.ofNat 64 (htCapacity - 1),fun _ => 0,8 * htCapacity⟩

/-- `insert`: the fetch-and-or on the word of the value. -/
def insert (bf : BloomFilter) (v1 v2 : Nat) : BloomFilter :=
  let value := getValue v1 v2
  let slot := (bf.getHash value).toNat
  { bf with table := Function.update bf.table slot (bf.table slot ||| getBloom value) }

def exist (bf : BloomFilter) (v1 v2 : Nat) : Bool :=
  let value := getValue v1 v2
  let bloom := getBloom value
  bloom == (bf.table (bf.getHash value).toNat &&& bloom)

/-- A slot that has the bits of a value keeps them. -/
theorem or_keeps {t b c : BitVec 64} (h : b = t &&& b) : b = (t ||| c) &&& b := by
  have hb : ∀ i : Nat, b.getLsbD i = (t.getLsbD i && b.getLsbD i) := fun i => by
    conv_lhs => rw [h]
    exact BitVec.getLsbD_and
  apply BitVec.eq_of_getLsbD_eq
  intro i hi
  rw [BitVec.getLsbD_and,BitVec.getLsbD_or]
  have hbit := hb i
  revert hbit
  cases t.getLsbD i <;> cases b.getLsbD i <;> cases c.getLsbD i <;> decide

theorem or_adds (t b : BitVec 64) : b = (t ||| b) &&& b := by
  apply BitVec.eq_of_getLsbD_eq
  intro i hi
  rw [BitVec.getLsbD_and,BitVec.getLsbD_or]
  cases b.getLsbD i <;> simp

theorem exist_insert (bf : BloomFilter) (u v : Nat) : (bf.insert u v).exist u v = true := by
  simp only [exist,insert,getHash,beq_iff_eq,Function.update_self]
  exact or_adds _ _

theorem exist_insert_of_exist {bf : BloomFilter} {u v : Nat} (h : bf.exist u v = true)
    (u' v' : Nat) : (bf.insert u' v').exist u v = true := by
  simp only [exist,insert,beq_iff_eq] at h ⊢
  by_cases hs : (bf.getHash (getValue u v)).toNat = (bf.getHash (getValue u' v')).toNat
  · change getBloom (getValue u v) = Function.update bf.table _ _ (bf.getHash (getValue u v)).toNat &&& _
    rw [hs,Function.update_self,← hs]
    exact or_keeps h
  · change getBloom (getValue u v) = Function.update bf.table _ _ (bf.getHash (getValue u v)).toNat &&& _
    rw [Function.update_of_ne hs]
    exact h

/-- What has been inserted is found, whatever else was inserted and in whatever order. -/
theorem exist_of_mem {ops : List (Nat × Nat)} {u v : Nat} (h : (u,v) ∈ ops) (bf : BloomFilter) :
    (ops.foldl (fun bf op => bf.insert op.1 op.2) bf).exist u v = true := by
  induction ops using List.reverseRecOn with
  | nil => simp at h
  | append_singleton ops op ih =>
    rw [List.foldl_append,List.foldl_cons,List.foldl_nil]
    rcases List.mem_append.mp h with hm | hm
    · exact exist_insert_of_exist (ih hm) _ _
    · rw [List.mem_singleton] at hm
      subst hm
      exact exist_insert _ u v

end BloomFilter

end FlashMob.Graph
