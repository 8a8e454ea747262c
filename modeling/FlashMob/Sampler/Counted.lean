import FlashMob.Sampler.Draws

namespace FlashMob

/-- A generator with the number of draws that it has made. -/
structure Counted (ρ : Type) where
  rand : ρ
  drawn : Nat

namespace Counted

/-- The generators of the threads, before their first draws. -/
def start {ρ : Type} (rands : Nat → ρ) (t : Nat) : Counted ρ := ⟨rands t,0⟩

theorem rand_update {ρ : Type} (rands : Nat → Counted ρ) (t : Nat) (c : Counted ρ) :
    (fun u => (Function.update rands t c u).rand) =
      Function.update (fun u => (rands u).rand) t c.rand := by
  funext u
  by_cases h : u = t
  · subst h
    rw [Function.update_self,Function.update_self]
  · rw [Function.update_of_ne h,Function.update_of_ne h]

variable {ρ : Type} [RandGen ρ]

instance : RandGen (Counted ρ) where
  gen upperBound c :=
    let r := RandGen.gen upperBound c.rand
    (r.1,⟨r.2,c.drawn + 1⟩)
  gen_lt b c := RandGen.gen_lt b c.rand

instance {R : Type} [RandGenFloat ρ R] : RandGenFloat (Counted ρ) R where
  genFloat upperBound c :=
    let r : R × ρ := RandGenFloat.genFloat upperBound c.rand
    (r.1,⟨r.2,c.drawn + 1⟩)

variable [WordGen ρ]

instance : WordGen (Counted ρ) where
  word c := WordGen.word c.rand
  next c := ⟨WordGen.next c.rand,c.drawn + 1⟩
  gen_eq upperBound c := by
    simp only [RandGen.gen,WordGen.gen_eq]

instance {R : Type} [Floating R] [RandGenFloat ρ R] [WordGenFloat ρ R] :
    WordGenFloat (Counted ρ) R where
  genFloat_eq upperBound c := by
    simp only [RandGenFloat.genFloat,WordGenFloat.genFloat_eq]
    rfl

end Counted

namespace Sampling
open FlashMob.Graph

variable {ρ : Type} [RandGen ρ] (content : Slot → Nat)

theorem foldl_counted (adj : AdjList) (start : Nat) (l : List Nat) (units : Nat → Nat)
    (c : Counted ρ) :
    l.foldl (fun (st : (Nat → Nat) × ρ) i =>
      let r := RandGen.gen adj.degree st.2
      (Function.update st.1 (start + i) (content (adj.begin.1,adj.begin.2 + r.1)),r.2))
      (units,c.rand) =
    (fun st : (Nat → Nat) × Counted ρ => (st.1,st.2.rand))
      (l.foldl (fun (st : (Nat → Nat) × Counted ρ) i =>
        let r := RandGen.gen adj.degree st.2
        (Function.update st.1 (start + i) (content (adj.begin.1,adj.begin.2 + r.1)),r.2))
        (units,c)) := by
  induction l generalizing units c with
  | nil => rfl
  | cons i l ih => exact ih _ (RandGen.gen adj.degree c).2

/-- What is filled into a buffer does not depend on the count. -/
theorem ExclusiveBufferSampler.fill_counted (s : ExclusiveBufferSampler) (v : Nat)
    (c : Counted ρ) : s.fill content v c.rand =
      ((s.fill content v c).1,(s.fill content v c).2.rand) := by
  obtain ⟨i,hi⟩ : ∃ i, u32Sub v s.vertexBegin = i := ⟨_,rfl⟩
  obtain ⟨start,hstart⟩ : ∃ start, u32Sub (s.headers i).end (s.getEdgeBufferLength v) = start :=
    ⟨_,rfl⟩
  obtain ⟨n,hn⟩ : ∃ n, u32Sub (s.headers i).head start = n := ⟨_,rfl⟩
  rw [fill_eq hi hstart hn,fill_eq hi hstart hn]
  dsimp only
  rw [foldl_counted]

theorem ExclusiveBufferSampler.sample_counted (s : ExclusiveBufferSampler) (v : Nat)
    (c : Counted ρ) : s.sample content v c.rand =
      ((s.sample content v c).1,(s.sample content v c).2.1,(s.sample content v c).2.2.rand) := by
  have hfill := s.fill_counted content v c
  rw [sample,sample,hfill]
  generalize s.fill content v c = filled
  generalize s.headers (u32Sub v s.vertexBegin) = h
  obtain ⟨s',r,n⟩ := filled
  split_ifs
  · rfl
  · rfl

/-- Nor does what is sampled. -/
theorem Sampler.sample_counted (smp : Sampler) (v : Nat) (c : Counted ρ) :
    smp.sample content v c.rand = ((smp.sample content v c).1,(smp.sample content v c).2.1,
      (smp.sample content v c).2.2.rand) := by
  cases smp with
  | exclusive s => rw [Sampler.sample,Sampler.sample,s.sample_counted content v c]
  | uniform s => rfl
  | similar s =>
    rw [Sampler.sample,Sampler.sample,SimilarDegreeDirectSampler.sample,
      SimilarDegreeDirectSampler.sample]
    cases s.findHint v with
    | none => rfl
    | some h => rfl
  | direct s => rfl

end Sampling

end FlashMob
