import FlashMob.Lib.Rejection
import FlashMob.Sampler.Uniform
import FlashMob.Walk.Draws

namespace FlashMob

/-- Words in place of a generator, with the numbers that `XorRandGen` makes of a word. -/
structure WordStream where
  words : Nat → BitVec 64

namespace WordStream

def tail (s : WordStream) : WordStream := ⟨fun n => s.words (n + 1)⟩

instance : RandGen WordStream where
  gen upperBound s := (u32 (s.words 0).toNat % upperBound,s.tail)
  gen_lt _ _ h := Nat.mod_lt _ h

instance : WordGen WordStream where
  word s := s.words 0
  next := tail
  gen_eq _ _ := rfl

instance {R : Type} [Floating R] : RandGenFloat WordStream R where
  genFloat upperBound s := (floatOf upperBound (s.words 0),s.tail)

instance {R : Type} [Floating R] : WordGenFloat WordStream R where
  genFloat_eq _ _ := rfl

/-- The streams of the threads, from one table of words. -/
def ofTable (words : Nat × Nat → BitVec 64) (t : Nat) : WordStream := ⟨fun n => words (t,n)⟩

theorem iterate_tail (s : WordStream) (n : Nat) : tail^[n] s = ⟨fun i => s.words (n + i)⟩ := by
  induction n with
  | zero => simp only [Function.iterate_zero_apply,Nat.zero_add]
  | succ n ih =>
    rw [Function.iterate_succ_apply',ih,tail]
    simp only [Nat.add_assoc,Nat.add_comm 1]

theorem wordOf_ofTable (words : Nat × Nat → BitVec 64) (o : Nat × Nat) :
    Sampling.wordOf (ofTable words) o = words o := by
  change (tail^[o.2] (ofTable words o.1)).words 0 = words o
  rw [iterate_tail]
  rfl

end WordStream

namespace WalkManager
open FlashMob.Graph FlashMob.Sampling Lib.Prefetch Lib.Rejection Lib.Remainders

/-- An attempt of the rejection loop with the words of its sample and of its test. -/
def attempt {R : Type} [Floating R] (content : Slot → Nat) (adj : AdjList) (upperBound : R)
    (accept : Nat → R → Bool) (words : BitVec 64 × BitVec 64) : Option Nat :=
  let nextVertex := sampledBy content adj words.1
  if accept nextVertex (floatOf upperBound words.2) then some nextVertex else none

section
variable {ρ R : Type} [RandGen ρ] [WordGen ρ] [Floating R] [RandGenFloat ρ R] [WordGenFloat ρ R]
  {g : NeighborGraph} {adj : Nat → AdjList} {b e p v : Nat} (hlo : b ≤ v) (hhi : v < e)
  (hpos : 0 < (adj v).degree) (hflush : (adj v).degree + 16 ≤ 2 ^ 32) (t : Nat) {wm : Node2vec R}
  {socket previous : Nat} {accept : Nat → R → Bool}
  (haccept : ∀ y prob, node2vecAccept wm g previous v y prob socket = some (accept y prob))
include hlo hhi hpos hflush haccept

/-- Which draws the attempts of the loop make does not depend on what is drawn: the loop ends with
the first attempt that is accepted, of attempts that share no draw. -/
theorem node2vecWalkMessage_first {len : Nat} (hlen : 0 < len) {l : Ledger Nat (Nat × Nat)}
    {served : List (Nat × Nat)} (hs : l.Sound served) (n : Nat) :
    ∃ cells : Fin n → (Nat × Nat) × (Nat × Nat), Apart cells ∧
      (∀ i, (cells i).1 ∉ served ∧ (cells i).2 ∉ served) ∧
      ∀ (rands : Nat → ρ) (smp : Sampler), Sampler.Follows g.edges adj b e rands l p smp →
        smp.batchLength adj v = len →
        (node2vecWalkMessage wm g socket previous v n smp (drawnWith rands (t,l.used t))).map
            Moved.nextVertex =
          first (attempt g.edges (adj v) wm.n2vUpperbound accept)
            (fun i => (wordOf rands (cells i).1,wordOf rands (cells i).2)) := by
  induction n generalizing l served with
  | zero =>
    refine ⟨fun i => i.elim0,⟨fun i => i.elim0,fun i => i.elim0,fun i => i.elim0⟩,
      fun i => i.elim0,fun rands smp _ _ => ?_⟩
    rw [first_zero]
    rfl
  | succ n ih =>
    obtain ⟨o,os,hq⟩ := l.exists_queue t (p,v) hlen
    obtain ⟨hserve,hfresh⟩ := hs.serve hq
    have htest : (t,(l.serve t (p,v) len).used t) ∈ (l.serve t (p,v) len).batch t 1 :=
      Ledger.mem_batch.mpr ⟨rfl,Nat.le_refl _,Nat.lt_succ_self _⟩
    have hnew := (hserve.batch_fresh htest).1
    obtain ⟨cells,hapart,hcells,hloop⟩ := ih (hserve.make t 1)
    have hserved : ∀ q, q ∈ served ++ [o] → q ∈ served ++ [o] ++ (l.serve t (p,v) len).batch t 1 :=
      fun q hq => List.mem_append_left _ hq
    have ho : o ∈ served ++ [o] := List.mem_append_right _ List.mem_cons_self
    have hold : ∀ q ∈ served, q ∈ served ++ [o] := fun q hq => List.mem_append_left _ hq
    refine ⟨Fin.cons (o,(t,(l.serve t (p,v) len).used t)) cells,hapart.cons ?_ (fun i => ⟨?_,?_⟩)
      (fun i => ⟨?_,?_⟩),fun i => ?_,fun rands smp hf hbatch => ?_⟩
    · exact fun he => hnew ((show o = _ from he) ▸ ho)
    · exact fun he => (hcells i).1 (he ▸ hserved o ho)
    · exact fun he => (hcells i).1 (he ▸ List.mem_append_right _ htest)
    · exact fun he => (hcells i).2 (he ▸ hserved o ho)
    · exact fun he => (hcells i).2 (he ▸ List.mem_append_right _ htest)
    · cases i using Fin.cases with
      | zero => exact ⟨hfresh,fun hin => hnew (hold _ hin)⟩
      | succ i =>
        exact ⟨fun hin => (hcells i).1 (hserved _ (hold _ hin)),
          fun hin => (hcells i).2 (hserved _ (hold _ hin))⟩
    · have hreturns := hf.serves.returns hflush
      obtain ⟨⟨o',os',hq',hvalue⟩,hfollows,hrand,hlength⟩ := hf.traced hlo hhi hpos (by omega) t
      rw [hbatch] at hq' hfollows hrand
      obtain rfl : o' = o := (List.cons.inj (hq'.symm.trans hq)).1
      have hmade : Sampler.Follows g.edges adj b e rands ((l.serve t (p,v) len).make t 1) p
          (smp.sample g.edges v (drawnWith rands (t,l.used t))).2.1 := hfollows.congr (fun _ => rfl)
      have hnext := hloop rands _ hmade ((congrFun hlength v).trans hbatch)
      rw [Ledger.used_make_self,← drawnWith_succ,← hrand] at hnext
      have hprob : wordOf rands (t,(l.serve t (p,v) len).used t) =
          WordGen.word (smp.sample g.edges v (drawnWith rands (t,l.used t))).2.2 := by
        rw [hrand]
        rfl
      rw [node2vecWalkMessage,first_tail]
      simp only [if_pos hreturns,WordGenFloat.genFloat_eq,haccept,Fin.cons_zero,Fin.cons_succ,← hnext,
        attempt,hprob,← hvalue]
      split
      · next hnone => cases hnone
      · next htrue =>
        rw [if_pos (Option.some.inj htrue)]
        rfl
      · next hfalse =>
        rw [if_neg (by rw [Option.some.inj hfalse]; exact Bool.false_ne_true),Option.map_map]
        rfl

end

/-- The words that an attempt leads to `y` with. -/
theorem ncard_attempt {R : Type} [Floating R] (content : Slot → Nat) (adj : AdjList) (upperBound : R)
    (accept : Nat → R → Bool) (y : Nat) :
    Set.ncard { words | attempt content adj upperBound accept words = some y } =
      Set.ncard { word | sampledBy content adj word = y } *
        Set.ncard { word | accept y (floatOf upperBound word) = true } := by
  rw [← Set.ncard_prod]
  congr 1
  ext words
  simp only [Set.mem_ofPred_eq,Set.mem_prod,attempt]
  constructor
  · intro h
    split at h
    · next haccept =>
      cases h
      exact ⟨rfl,haccept⟩
    · cases h
  · rintro ⟨rfl,haccept⟩
    rw [if_pos haccept]

section
variable {K : Type} [Field K] [LinearOrder K] [FloorSemiring K]

theorem floatOf_zero (upperBound : K) : floatOf upperBound 0 = 0 := by
  rw [floatOf,Floating.exact_mul,Floating.exact_div,Floating.exact_ofNat]
  norm_num

variable [IsStrictOrderedRing K]

/-- In exact arithmetic a test accepts up to its bound, by steps of one in 65535. -/
theorem ncard_test {bound upperBound : K} (hbound : 0 ≤ bound) (hle : bound ≤ upperBound)
    (hpos : 0 < upperBound) : Set.ncard { word | floatOf upperBound word ≤ bound } =
      2 ^ 48 * (⌊65535 * bound / upperBound⌋₊ + 1) := by
  have hfew : ⌊65535 * bound / upperBound⌋₊ < 2 ^ 16 := by
    rw [Nat.floor_lt (div_nonneg (mul_nonneg (by norm_num) hbound) hpos.le)]
    have hone : 65535 * bound / upperBound ≤ 65535 := by
      rw [div_le_iff₀ hpos]
      exact mul_le_mul_of_nonneg_left hle (by norm_num)
    exact lt_of_le_of_lt hone (by norm_num)
  have hset : { word : BitVec 64 | floatOf upperBound word ≤ bound } =
      { word | word.toNat % 2 ^ 16 ≤ ⌊65535 * bound / upperBound⌋₊ } := by
    ext word
    have hmask : (word &&& 0xFFFF).toNat = word.toNat % 2 ^ 16 := by
      rw [BitVec.toNat_and]
      exact Nat.and_two_pow_sub_one_eq_mod _ 16
    simp only [Set.mem_ofPred_eq,floatOf,Floating.exact_mul,Floating.exact_div,Floating.exact_ofNat,hmask]
    rw [Nat.le_floor_iff (div_nonneg (mul_nonneg (by norm_num) hbound) hpos.le),le_div_iff₀ hpos,
      div_mul_eq_mul_div,div_le_iff₀ (by norm_num),mul_comm bound]
    norm_num
  rw [hset]
  exact ncard_mod_le (fun _ _ h => BitVec.eq_of_toNat_eq h) (fun m => Sampling.exists_word m) hfew

/-- After some uses of the sampler, thread `t` walks a message with up to `n` attempts. -/
def walkedTo (wm : Node2vec K) (g : NeighborGraph) (socket previous current n t : Nat) (smp : Sampler)
    (us : List Use) (words : Nat × Nat → BitVec 64) : Option Nat :=
  (Shared.run g.edges smp (WordStream.ofTable words) us).bind (fun st =>
    (node2vecWalkMessage wm g socket previous current n st.sampler (st.rands t)).map
      Moved.nextVertex)

/-- How the attempts of a loop are spread, over the words that they draw. -/
structure TransitionLaw (p q : K) (g : NeighborGraph) (adj : AdjList) (neighbors : List Nat)
    (socket previous current n t : Nat) (smp : Sampler) (us : List Use)
    (cells : Fin n → (Nat × Nat) × (Nat × Nat)) : Prop where
  apart : Apart cells
  /-- The samples before the loop do not depend on these words. -/
  before : ∀ words, ∃ st, Shared.run g.edges smp (WordStream.ofTable words) us = some st ∧
    ∀ x, (Shared.run g.edges smp (WordStream.ofTable (assign words cells x)) us).map Shared.values =
      some st.values
  /-- The loop ends with a vertex as often as the vertex is sampled and accepted, -/
  accepted : ∃ times : Nat, (0 < n → 0 < times) ∧ ∀ words y, Set.ncard { x |
      walkedTo (setNode2vec p q) g socket previous current n t smp us (assign words cells x) = some y } =
    Set.ncard { word | sampledBy g.edges adj word = y } *
      (2 ^ 48 * (⌊65535 * acceptBound p q neighbors previous y /
        (setNode2vec p q).n2vUpperbound⌋₊ + 1)) * times
  /-- and goes on as often as all its attempts are rejected, not all words being. -/
  rejected : ∃ times < Nat.card (BitVec 64 × BitVec 64), ∀ words, Set.ncard { x |
      walkedTo (setNode2vec p q) g socket previous current n t smp us (assign words cells x) = none } =
    times ^ n

/-- Whatever was sampled before, and in a sampler of any class. -/
theorem exists_transitionLaw {p q : K} (hp : 0 < p) (hq : 0 < q) {g : NeighborGraph}
    {adj : Nat → AdjList} {b e : Nat} {smp : Sampler} (hs : smp.Serves WordStream g.edges adj b e)
    (hnew : ∀ v, b ≤ v → v < e → smp.unread v = [])
    (hdegrees : ∀ v, b ≤ v → v < e → 0 < (adj v).degree ∧ (adj v).degree + 16 ≤ 2 ^ 32)
    {us : List Use} (hin : ∀ v ∈ Use.vertices us, b ≤ v ∧ v < e) {v : Nat} (hlo : b ≤ v) (hhi : v < e)
    {neighbors : List Nat} {socket previous : Nat}
    (hneighbor : ∀ y, g.hasNeighbor previous y socket = some (decide (y ∈ neighbors)))
    (t n : Nat) : ∃ cells : Fin n → (Nat × Nat) × (Nat × Nat),
      TransitionLaw p q g (adj v) neighbors socket previous v n t smp us cells := by
  obtain ⟨hpos,hflush⟩ := hdegrees v hlo hhi
  have hdegree : (adj v).degree < 2 ^ 32 := by omega
  obtain ⟨l,served,origins,hsound,hsub,hsize,hshares⟩ := Sampler.exists_shares hs hnew 0 us
    (fun v hv => ⟨(hin v hv).1,(hin v hv).2,hdegrees v (hin v hv).1 (hin v hv).2⟩)
  have haccept : ∀ (y : Nat) (prob : K), node2vecAccept (setNode2vec p q) g previous v y prob socket =
      some (decide (prob ≤ acceptBound p q neighbors previous y)) :=
    fun y prob => node2vecAccept_eq p q v prob (hneighbor y)
  obtain ⟨cells,hapart,hfresh,hloop⟩ := node2vecWalkMessage_first (ρ := WordStream) hlo hhi hpos hflush
    (p := 0) t haccept (smp.batchLength_pos hdegree) hsound n
  let outcome := attempt g.edges (adj v) (setNode2vec p q).n2vUpperbound
    (fun y prob => decide (prob ≤ acceptBound p q neighbors previous y))
  have hwalked : ∀ words x, walkedTo (setNode2vec p q) g socket previous v n t smp us
      (assign words cells x) = first outcome x := by
    intro words x
    obtain ⟨st,hrun,hst⟩ := hshares (WordStream.ofTable (assign words cells x))
    rw [walkedTo,hrun,Option.bind_some,hst.drawn,hloop _ _ hst.follows (congrFun hst.length v)]
    simp only [WordStream.wordOf_ofTable,assign_left hapart,assign_right hapart]
    rfl
  have hbound : ∀ y, 0 < acceptBound p q neighbors previous y := acceptBound_pos hp hq _ _
  let rejected := Set.ncard { words | outcome words = none }
  have hrejected : rejected < Nat.card (BitVec 64 × BitVec 64) := by
    refine Set.ncard_lt_card (fun hall => ?_)
    -- A draw of zero is below every bound.
    have hzero : outcome (0,0) = some (sampledBy g.edges (adj v) 0) := by
      refine if_pos (decide_eq_true ?_)
      rw [floatOf_zero]
      exact (hbound _).le
    have hnone : outcome (0,0) = none := Set.eq_univ_iff_forall.mp hall (0,0)
    exact Option.some_ne_none _ (hzero.symm.trans hnone)
  refine ⟨cells,hapart,fun words => ?_,
    ⟨around (Nat.card (BitVec 64 × BitVec 64)) rejected n,
      fun hn => around_pos Nat.card_pos hn rejected,fun words y => ?_⟩,⟨rejected,hrejected,fun words => ?_⟩⟩
  · obtain ⟨st,hrun,hst⟩ := hshares (WordStream.ofTable words)
    refine ⟨st,hrun,fun x => ?_⟩
    obtain ⟨st',hrun',hst'⟩ := hshares (WordStream.ofTable (assign words cells x))
    rw [hrun',Option.map_some,hst'.values,hst.values,← List.map_uncurry_zip_eq_zipWith,
      ← List.map_uncurry_zip_eq_zipWith]
    refine congrArg some (List.map_congr_left (fun x hx => ?_))
    have hserved := hsub.subset (List.of_mem_zip hx).1
    simp only [Function.uncurry]
    rw [WordStream.wordOf_ofTable,WordStream.wordOf_ofTable,assign_other]
    exact fun i => ⟨fun he => (hfresh i).1 (he ▸ hserved),fun he => (hfresh i).2 (he ▸ hserved)⟩
  · simp only [hwalked]
    rw [ncard_first,ncard_attempt]
    simp only [decide_eq_true_eq]
    rw [ncard_test (hbound y).le (acceptBound_le p q neighbors previous y)
      (n2vUpperbound_pos hp hq)]
  · simp only [hwalked]
    exact ncard_rejected outcome n

end

end WalkManager
end FlashMob
