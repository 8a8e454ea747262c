import FlashMob.Sampler.Counted

namespace FlashMob.Sampling
open FlashMob.Graph Lib.Prefetch Lib.Remainders Lib.Tiling

/-- What threads do with their generators while they share the sampler of a partition: a sample for
a vertex, or a draw for something else. -/
inductive Use
  | sample (thread vertex : Nat)
  | other (thread : Nat)

namespace Use

def vertices (us : List Use) : List Nat :=
  us.filterMap (fun
    | .sample _ v => some v
    | .other _ => none)

@[simp] theorem vertices_append (us us' : List Use) :
    vertices (us ++ us') = vertices us ++ vertices us' := List.filterMap_append

end Use

/-- The sampler, the generators of the threads, and what the calls of `sample` have returned. -/
structure Shared (ρ : Type) where
  sampler : Sampler
  rands : Nat → ρ
  values : List Nat

namespace Shared
variable {ρ : Type} [RandGen ρ] [WordGen ρ]

/-- `none` when the call of `sample` does not return. -/
def use (content : Slot → Nat) (st : Shared ρ) : Use → Option (Shared ρ)
  | .sample t v =>
    if st.sampler.returns v then
      let r := st.sampler.sample content v (st.rands t)
      some ⟨r.2.1,Function.update st.rands t r.2.2,st.values ++ [r.1]⟩
    else none
  | .other t => some { st with rands := Function.update st.rands t (WordGen.next (st.rands t)) }

def run (content : Slot → Nat) (smp : Sampler) (rands : Nat → ρ) (us : List Use) :
    Option (Shared ρ) :=
  us.foldlM (use content) ⟨smp,rands,[]⟩

theorem run_concat (content : Slot → Nat) (smp : Sampler) (rands : Nat → ρ)
    (us : List Use) (u : Use) :
    run content smp rands (us ++ [u]) = (run content smp rands us).bind (fun st => st.use content u) := by
  rw [run,List.foldlM_append]
  simp only [List.foldlM_cons,List.foldlM_nil,bind_pure]
  rfl

def erase (st : Shared (Counted ρ)) : Shared ρ :=
  ⟨st.sampler,fun t => (st.rands t).rand,st.values⟩

end Shared

namespace Sampler
variable {ρ : Type} [RandGen ρ] [WordGen ρ]

/-- The sampler and the generators are where the ledger says, and the values are those of the
draws `origins`. -/
structure Shares (content : Slot → Nat) (adj : Nat → AdjList) (b e : Nat) (smp : Sampler)
    (rands : Nat → ρ) (l : Ledger Nat (Nat × Nat)) (p : Nat) (origins : List (Nat × Nat))
    (vertices : List Nat) (st : Shared ρ) : Prop where
  follows : Follows content adj b e rands l p st.sampler
  length : st.sampler.batchLength adj = smp.batchLength adj
  drawn : ∀ t, st.rands t = drawnWith rands (t,l.used t)
  values : st.values = List.zipWith (fun o v => sampledBy content (adj v) (wordOf rands o)) origins
    vertices

section
variable {content : Slot → Nat} {adj : Nat → AdjList} {b e p : Nat} {smp : Sampler}
  {rands : Nat → ρ} {l : Ledger Nat (Nat × Nat)} {origins : List (Nat × Nat)}
  {vertices : List Nat} {st : Shared ρ}
  (h : Shares content adj b e smp rands l p origins vertices st)
include h

theorem Shares.sample (hsize : origins.length = vertices.length) {v : Nat} (hlo : b ≤ v) (hhi : v < e)
    (hpos : 0 < (adj v).degree) (hflush : (adj v).degree + 16 ≤ 2 ^ 32) (t : Nat) {o : Nat × Nat}
    {os : List (Nat × Nat)} (hq : l.queue t (p,v) (smp.batchLength adj v) = o :: os) :
    ∃ st', st.use content (.sample t v) = some st' ∧ Shares content adj b e smp rands
      (l.serve t (p,v) (smp.batchLength adj v)) p (origins ++ [o]) (vertices ++ [v]) st' := by
  have hdegree : (adj v).degree < 2 ^ 32 := by omega
  obtain ⟨⟨o',os',hq',hvalue⟩,hfollows,hrand,hlength⟩ := h.follows.traced hlo hhi hpos hdegree t
  rw [h.length] at hq' hfollows hrand hlength
  rw [← h.drawn t] at hvalue hfollows hrand hlength
  obtain rfl : o' = o := (List.cons.inj (hq'.symm.trans hq)).1
  refine ⟨_,if_pos (h.follows.serves.returns hflush),hfollows,hlength,fun u => ?_,?_⟩
  · by_cases he : u = t
    · subst he
      exact (Function.update_self _ _ _).trans hrand
    · rw [Ledger.used_serve_of_ne _ _ _ he]
      exact (Function.update_of_ne he _ _).trans (h.drawn u)
  · rw [List.zipWith_append hsize,← h.values]
    exact congrArg (st.values ++ [·]) hvalue

theorem Shares.other (t : Nat) : ∃ st', st.use content (.other t) = some st' ∧
    Shares content adj b e smp rands (l.make t 1) p origins vertices st' := by
  refine ⟨_,rfl,h.follows.congr (fun _ => rfl),h.length,fun u => ?_,h.values⟩
  by_cases he : u = t
  · subst he
    rw [Ledger.used_make_self,← drawnWith_succ,← h.drawn]
    exact Function.update_self _ _ _
  · rw [Ledger.used_make_of_ne _ _ he]
    exact (Function.update_of_ne he _ _).trans (h.drawn u)

end

/-- Whatever the threads do, one ledger accounts for all their draws, from any seeds. -/
theorem exists_shares {content : Slot → Nat} {adj : Nat → AdjList} {b e : Nat} {smp : Sampler}
    (hs : smp.Serves ρ content adj b e) (hnew : ∀ v, b ≤ v → v < e → smp.unread v = []) (p : Nat)
    (us : List Use) (hin : ∀ v ∈ Use.vertices us, b ≤ v ∧ v < e ∧ 0 < (adj v).degree ∧
      (adj v).degree + 16 ≤ 2 ^ 32) :
    ∃ (l : Ledger Nat (Nat × Nat)) (served origins : List (Nat × Nat)), l.Sound served ∧
      origins.Sublist served ∧ origins.length = (Use.vertices us).length ∧
      ∀ rands : Nat → ρ, ∃ st, Shared.run content smp rands us = some st ∧
        Shares content adj b e smp rands l p origins (Use.vertices us) st := by
  induction us using List.reverseRecOn with
  | nil =>
    refine ⟨.empty,[],[],Ledger.sound_empty,.refl _,rfl,fun rands => ⟨_,rfl,?_⟩⟩
    exact ⟨⟨hs,fun v hlo hhi => hnew v hlo hhi⟩,rfl,fun _ => rfl,rfl⟩
  | append_singleton us u ih =>
    rw [Use.vertices_append] at hin ⊢
    obtain ⟨l,served,origins,hsound,hsub,hsize,hshares⟩ :=
      ih (fun v hv => hin v (List.mem_append_left _ hv))
    simp only [Shared.run_concat]
    cases u with
    | sample t v =>
      obtain ⟨hlo,hhi,hpos,hflush⟩ := hin v (List.mem_append_right _ List.mem_cons_self)
      -- The queue is the same for all seeds.
      obtain ⟨o,os,hq⟩ := l.exists_queue t (p,v)
        (smp.batchLength_pos (Nat.lt_of_lt_of_le (Nat.lt_add_of_pos_right (by decide)) hflush))
      refine ⟨l.serve t (p,v) (smp.batchLength adj v),served ++ [o],origins ++ [o],
        (hsound.serve hq).1,hsub.append (.refl _),?_,fun rands => ?_⟩
      · rw [List.length_append,List.length_append,hsize]
        rfl
      · obtain ⟨st,hst,h⟩ := hshares rands
        rw [hst]
        exact h.sample hsize hlo hhi hpos hflush t hq
    | other t =>
      have hnone : Use.vertices [.other t] = [] := rfl
      rw [hnone,List.append_nil]
      refine ⟨l.make t 1,served ++ l.batch t 1,origins,hsound.make t 1,
        hsub.trans (List.sublist_append_left _ _),hsize,fun rands => ?_⟩
      obtain ⟨st,hst,h⟩ := hshares rands
      rw [hst]
      exact h.other t

theorem install_unread {made : Made} {l2CacheSize p : Nat} {smp : Sampler} (hfits : Fits made p)
    (h : install made l2CacheSize p = some smp) {v : Nat} (hlo : made.partitionBegin p ≤ v)
    (hhi : v < made.partitionEnd p) : smp.unread v = [] := by
  have hbuffers := hfits.buffers
  rw [install] at h
  split at h
  · cases h
    have hheader := (ExclusiveBufferSampler.initHeaders_eq hbuffers).2
      (v - made.partitionBegin p) (by omega)
    rw [unread,ExclusiveBufferSampler.unread_eq_nil]
    · simp only [ExclusiveBufferSampler.init,hheader]
    · simp only [ExclusiveBufferSampler.init,hheader]
      exact Nat.le_refl _
  · cases h
    rfl
  · obtain ⟨s,_,rfl⟩ := Option.map_eq_some_iff.mp h
    rfl
  · cases h
    rfl

end Sampler

end FlashMob.Sampling
