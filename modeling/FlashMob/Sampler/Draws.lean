import FlashMob.Lib.Prefetch
import FlashMob.Lib.Remainders
import FlashMob.Sampler.Random
import FlashMob.Sampler.Serves

namespace FlashMob

namespace XorRandGen
open Lib.Remainders

end XorRandGen

/-- A generator that makes its numbers of one word a draw. -/
class WordGen (ρ : Type) [RandGen ρ] where
  word : ρ → BitVec 64
  next : ρ → ρ
  gen_eq : ∀ upperBound (rd : ρ),
    RandGen.gen upperBound rd = (u32 (word rd).toNat % upperBound, next rd)

instance : WordGen XorRandGen where
  word := XorRandGen.product
  next := XorRandGen.advance
  gen_eq _ _ := rfl

/-- The floating-point number of a word. -/
def floatOf {R : Type} [Floating R] (upperBound : R) (word : BitVec 64) : R :=
  Floating.mul (Floating.div (Floating.ofNat (word &&& 0xFFFF).toNat) (Floating.ofNat 65535))
    upperBound

class WordGenFloat (ρ R : Type) [RandGen ρ] [WordGen ρ] [Floating R] [RandGenFloat ρ R] :
    Prop where
  genFloat_eq : ∀ (upperBound : R) (rd : ρ), RandGenFloat.genFloat upperBound rd =
    (floatOf upperBound (WordGen.word rd), WordGen.next rd)

instance {R : Type} [Floating R] : WordGenFloat XorRandGen R where
  genFloat_eq _ _ := rfl

namespace Sampling
open FlashMob.Graph Lib.Prefetch Lib.Remainders

theorem exists_word (n : Nat) : (∃ word : BitVec 64, word.toNat = n) ↔ n < 2 ^ 64 := by
  constructor
  · rintro ⟨word,rfl⟩
    exact word.isLt
  · intro hn
    exact ⟨BitVec.ofNat 64 n,by rw [BitVec.toNat_ofNat]; exact Nat.mod_eq_of_lt hn⟩

/-- Over all words an index is nearly uniform. -/
theorem index_nearlyUniform {β : Type} [DecidableEq β] {d : Nat} (hd : 0 < d) (outcome : Nat → β) :
    NearlyUniform (1 / 2 ^ 32) ((List.range d).map outcome)
      (fun word : BitVec 64 => outcome (u32 word.toNat % d)) := by
  have hinj : Function.Injective (BitVec.toNat : BitVec 64 → Nat) :=
    fun w w' h => BitVec.eq_of_toNat_eq h
  have hcast : (1 : ℚ) / 2 ^ 32 = 1 / ((2 ^ 32 : Nat) : ℚ) := by norm_num
  rw [hcast]
  exact nearlyUniform_mod (b := 2 ^ 32) hinj exists_word (by decide) (by decide) hd outcome

/-- The neighbour that is sampled from an adjacency list with a word. -/
def sampledBy (content : Slot → Nat) (adj : AdjList) (word : BitVec 64) : Nat :=
  content (adj.begin.1, adj.begin.2 + u32 word.toNat % adj.degree)

theorem sampledBy_nearlyUniform (content : Slot → Nat) {adj : AdjList} (hpos : 0 < adj.degree) :
    NearlyUniform (1 / 2 ^ 32) (readList content adj) (sampledBy content adj) :=
  index_nearlyUniform hpos fun i => content (adj.begin.1, adj.begin.2 + i)

section
variable {ρ : Type} [RandGen ρ] [WordGen ρ]

/-- The generator of a thread when it has made some draws. -/
def drawnWith (rands : Nat → ρ) (o : Nat × Nat) : ρ := WordGen.next^[o.2] (rands o.1)

/-- The word of a draw. -/
def wordOf (rands : Nat → ρ) (o : Nat × Nat) : BitVec 64 := WordGen.word (drawnWith rands o)

theorem drawnWith_succ (rands : Nat → ρ) (t n : Nat) :
    WordGen.next (drawnWith rands (t,n)) = drawnWith rands (t,n + 1) :=
  (Function.iterate_succ_apply' _ _ _).symm

theorem draws_eq (content : Slot → Nat) (adj : AdjList) (rands : Nat → ρ) (t used n : Nat) :
    draws content adj (drawnWith rands (t,used)) n =
      ((List.range n).map (fun i => sampledBy content adj (wordOf rands (t,used + i))),
        drawnWith rands (t,used + n)) := by
  induction n with
  | zero => rfl
  | succ n ih =>
    rw [draws,ih,List.range_succ,List.map_append]
    simp only [WordGen.gen_eq,drawnWith_succ]
    rfl

end

/-- The generator after a sample has made the draws of a refill, if there was one. -/
theorem ExclusiveBufferSampler.Buffered.sample_rand {ρ : Type} [RandGen ρ] {content : Slot → Nat}
    {adj : Nat → AdjList} {b e : Nat} {s : ExclusiveBufferSampler} (h : s.Buffered content adj b e)
    {v : Nat} (hlo : b ≤ v) (hhi : v < e) (rd : ρ) :
    (s.sample content v rd).2.2 = if s.unread (v - b) = [] then
      (draws content (adj v) rd (edgeBufferLength (adj v).degree)).2 else rd := by
  have hnil := unread_eq_nil (h.heads v hlo hhi).2
  by_cases hempty : (s.headers (v - b)).head = (s.headers (v - b)).end
  · obtain ⟨hstart,hnum⟩ := h.refill_place hlo hhi hempty
    obtain rfl := h.adjlists
    rw [if_pos (hnil.mpr hempty),sample]
    simp only [h.index hlo hhi,if_pos hempty]
    rw [fill_eq (h.index hlo hhi) hstart hnum]
    exact (fill_draws content (s.adjlists v) _ _ s.units rd).1
  · rw [if_neg (fun he => hempty (hnil.mp he)),h.sample_kept hlo hhi hempty]

namespace Sampler

/-- The values that wait in the buffer of a vertex; only one class has buffers. -/
def unread : Sampler → Nat → List Nat
  | exclusive s, v => s.unread (v - s.vertexBegin)
  | _, _ => []

/-- The number of draws that are made at once for a vertex. -/
def batchLength (adj : Nat → AdjList) : Sampler → Nat → Nat
  | exclusive _, v => edgeBufferLength (adj v).degree
  | _, _ => 1

theorem batchLength_pos {adj : Nat → AdjList} {v : Nat} (h : (adj v).degree < 2 ^ 32) (smp : Sampler) :
    0 < smp.batchLength adj v := by
  cases smp with
  | exclusive s => exact edgeBufferLength_pos h
  | _ => exact Nat.one_pos

/-- What `sample` does, in any class: it takes the first value that waits, or of a new batch. -/
structure Queued {ρ : Type} [RandGen ρ] (content : Slot → Nat) (adj : Nat → AdjList) (b e : Nat)
    (smp : Sampler) (v : Nat) (rd : ρ) : Prop where
  next : (smp.sample content v rd).1 :: (smp.sample content v rd).2.1.unread v =
    if smp.unread v = [] then (draws content (adj v) rd (smp.batchLength adj v)).1
    else smp.unread v
  rand : (smp.sample content v rd).2.2 =
    if smp.unread v = [] then (draws content (adj v) rd (smp.batchLength adj v)).2 else rd
  other : ∀ w, b ≤ w → w < e → w ≠ v → (smp.sample content v rd).2.1.unread w = smp.unread w
  length : (smp.sample content v rd).2.1.batchLength adj = smp.batchLength adj

theorem Serves.queued {ρ : Type} [RandGen ρ] {content : Slot → Nat} {adj : Nat → AdjList}
    {b e : Nat} {smp : Sampler} (h : smp.Serves ρ content adj b e) {v : Nat} (hlo : b ≤ v)
    (hhi : v < e) (hdegree : (adj v).degree < 2 ^ 32) (rd : ρ) :
    Queued content adj b e smp v rd := by
  have hdirect : ∀ {s : Sampler}, (∀ w, s.unread w = []) → (∀ w, s.batchLength adj w = 1) →
      s.sample content v rd = ((DirectSampler.sample content ⟨adj⟩ v rd).1,s,
        (DirectSampler.sample content ⟨adj⟩ v rd).2) → Queued content adj b e s v rd := by
    intro s hnone hone hsample
    refine ⟨?_,?_,?_,?_⟩
    · rw [hsample,hnone,if_pos rfl,hone]
      rfl
    · rw [hsample,hnone,if_pos rfl,hone]
      rfl
    · intro w _ _ _
      rw [hsample]
    · rw [hsample]
  cases smp with
  | exclusive s =>
    have hs : s.Buffered content adj b e := h
    have hsampled := hs.sampled hlo hhi hdegree rd
    have hbegin := hsampled.frame.2.1
    have hlen : s.getEdgeBufferLength v = edgeBufferLength (adj v).degree := by
      rw [ExclusiveBufferSampler.getEdgeBufferLength,hs.adjlists]
    refine ⟨?_,?_,fun w hlo' hhi' hne => ?_,rfl⟩
    · have hnext := hsampled.next
      rw [hs.adjlists,hlen] at hnext
      simp only [Sampler.sample,unread,hbegin]
      exact hnext
    · rw [unread,hs.vertexBegin]
      exact hs.sample_rand hlo hhi rd
    · simp only [Sampler.sample,unread,hbegin,hs.vertexBegin]
      exact hs.unread_other hlo hhi hlo' hhi' hne hsampled.units
        (fun i hi => hsampled.headers i (by rwa [hs.vertexBegin]))
  | uniform s => exact hdirect (fun _ => rfl) (fun _ => rfl) (by rw [Sampler.sample,h v hlo hhi rd])
  | similar s => exact hdirect (fun _ => rfl) (fun _ => rfl) (by rw [Sampler.sample,h v hlo hhi rd])
  | direct s =>
    obtain rfl : s.adjlists = adj := h
    exact hdirect (fun _ => rfl) (fun _ => rfl) rfl

/-- The sampler of partition `p` serves its lists, and the values that wait in its buffers are those
of the draws in a ledger. -/
structure Follows {ρ : Type} [RandGen ρ] [WordGen ρ] (content : Slot → Nat) (adj : Nat → AdjList)
    (b e : Nat) (rands : Nat → ρ) (l : Ledger Nat (Nat × Nat)) (p : Nat) (smp : Sampler) : Prop where
  serves : smp.Serves ρ content adj b e
  unread : ∀ v, b ≤ v → v < e → smp.unread v =
    (l.pending (p,v)).map (fun o => sampledBy content (adj v) (wordOf rands o))

section
variable {ρ : Type} [RandGen ρ] [WordGen ρ] {content : Slot → Nat} {adj : Nat → AdjList}
  {b e : Nat} {rands : Nat → ρ}
  {l l' : Ledger Nat (Nat × Nat)} {p : Nat} {smp : Sampler}

theorem Follows.congr (h : Follows content adj b e rands l p smp)
    (hsame : ∀ v, l'.pending (p,v) = l.pending (p,v)) : Follows content adj b e rands l' p smp :=
  ⟨h.serves,fun v hlo hhi => hsame v ▸ h.unread v hlo hhi⟩

/-- A sample by thread `t` is that of the draw that the ledger serves. -/
structure Traced (content : Slot → Nat) (adj : Nat → AdjList) (b e : Nat) (rands : Nat → ρ)
    (l : Ledger Nat (Nat × Nat)) (p : Nat) (smp : Sampler) (t v : Nat) : Prop where
  value : ∃ o os, l.queue t (p,v) (smp.batchLength adj v) = o :: os ∧
    (smp.sample content v (drawnWith rands (t,l.used t))).1 =
      sampledBy content (adj v) (wordOf rands o)
  follows : Follows content adj b e rands (l.serve t (p,v) (smp.batchLength adj v)) p
    (smp.sample content v (drawnWith rands (t,l.used t))).2.1
  rand : (smp.sample content v (drawnWith rands (t,l.used t))).2.2 =
    drawnWith rands (t,(l.serve t (p,v) (smp.batchLength adj v)).used t)
  length : (smp.sample content v (drawnWith rands (t,l.used t))).2.1.batchLength adj =
    smp.batchLength adj

theorem Follows.traced (h : Follows content adj b e rands l p smp) {v : Nat} (hlo : b ≤ v)
    (hhi : v < e) (hpos : 0 < (adj v).degree) (hdegree : (adj v).degree < 2 ^ 32) (t : Nat) :
    Traced content adj b e rands l p smp t v := by
  have hserves := h.serves.sample hlo hhi hpos hdegree (drawnWith rands (t,l.used t))
  have hq := h.serves.queued hlo hhi hdegree (drawnWith rands (t,l.used t))
  have hempty : smp.unread v = [] ↔ l.pending (p,v) = [] := by
    rw [h.unread v hlo hhi,List.map_eq_nil_iff]
  have hqueue : (smp.sample content v (drawnWith rands (t,l.used t))).1 ::
      (smp.sample content v (drawnWith rands (t,l.used t))).2.1.unread v =
      (l.queue t (p,v) (smp.batchLength adj v)).map
        (fun o => sampledBy content (adj v) (wordOf rands o)) := by
    rw [hq.next,Ledger.queue,draws_eq]
    by_cases hp : l.pending (p,v) = []
    · rw [if_pos (hempty.mpr hp),if_pos hp,Ledger.batch,List.map_map]
      rfl
    · rw [if_neg (fun hu => hp (hempty.mp hu)),if_neg hp,h.unread v hlo hhi]
  obtain ⟨o,os,hos⟩ := l.exists_queue t (p,v) (smp.batchLength_pos hdegree)
  rw [hos,List.map_cons] at hqueue
  obtain ⟨hvalue,hrest⟩ := List.cons.inj hqueue
  refine ⟨⟨o,os,hos,hvalue⟩,⟨hserves.2,fun w hlo' hhi' => ?_⟩,?_,hq.length⟩
  · by_cases he : w = v
    · subst he
      rw [Ledger.pending_serve_self,hos,List.tail_cons]
      exact hrest
    · rw [Ledger.pending_serve_of_ne _ _ _ (fun hp => he (congrArg Prod.snd hp)),
        hq.other w hlo' hhi' he]
      exact h.unread w hlo' hhi'
  · rw [hq.rand,draws_eq,Ledger.used_serve]
    by_cases hp : l.pending (p,v) = []
    · rw [if_pos (hempty.mpr hp),if_pos hp,Ledger.used_make_self]
    · rw [if_neg (fun hu => hp (hempty.mp hu)),if_neg hp]

end

end Sampler

end Sampling
end FlashMob
