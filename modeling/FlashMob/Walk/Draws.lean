import FlashMob.Sampler.Draws
import FlashMob.Walk.Message

namespace FlashMob.WalkManager
open FlashMob.Graph FlashMob.Sampling Lib.Prefetch

/-- What thread `t` has drawn when it has walked a message of partition `p` from `v` on: the next
vertex is the sample of a draw that was not served before. -/
structure Drew {ρ R : Type} [RandGen ρ] [WordGen ρ] (content : Slot → Nat) (adj : Nat → AdjList)
    (b e : Nat) (rands : Nat → ρ) (p t v : Nat) (l l' : Ledger Nat (Nat × Nat))
    (served served' : List (Nat × Nat)) (o : Nat × Nat) (m : Moved ρ R) : Prop where
  sound : l'.Sound served'
  grows : ∀ q ∈ served, q ∈ served'
  fresh : o ∈ served' ∧ o ∉ served
  follows : Sampler.Follows content adj b e rands l' p m.sampler
  pending : ∀ q, q.1 ≠ p → l'.pending q = l.pending q
  used : ∀ u, u ≠ t → l'.used u = l.used u
  rand : m.rand = drawnWith rands (t,l'.used t)
  value : m.nextVertex = sampledBy content (adj v) (wordOf rands o)

section
variable {ρ R : Type} [RandGen ρ] [WordGen ρ] {content : Slot → Nat} {adj : Nat → AdjList}
  {b e : Nat} {rands : Nat → ρ} {p t v : Nat} {l l' l'' : Ledger Nat (Nat × Nat)}
  {served served' served'' : List (Nat × Nat)} {o : Nat × Nat} {m m' : Moved ρ R}

theorem Drew.test (h : Drew content adj b e rands p t v l l' served served' o m)
    (hrand : m'.rand = WordGen.next m.rand) (hsampler : m'.sampler = m.sampler)
    (hnext : m'.nextVertex = m.nextVertex) :
    Drew content adj b e rands p t v l (l'.make t 1) served (served' ++ l'.batch t 1) o m' := by
  refine ⟨h.sound.make t 1,fun q hq => List.mem_append_left _ (h.grows q hq),
    ⟨List.mem_append_left _ h.fresh.1,h.fresh.2⟩,?_,h.pending,fun u hu => ?_,?_,hnext.trans h.value⟩
  · rw [hsampler]
    exact h.follows.congr (fun _ => rfl)
  · rw [Ledger.used_make_of_ne _ _ hu]
    exact h.used u hu
  · rw [hrand,h.rand,Ledger.used_make_self,drawnWith_succ]

/-- The attempts that were rejected have only made draws. -/
theorem Drew.after (h : Drew content adj b e rands p t v l' l'' served' served'' o m)
    (hgrows : ∀ q ∈ served, q ∈ served') (hpending : ∀ q, q.1 ≠ p → l'.pending q = l.pending q)
    (hused : ∀ u, u ≠ t → l'.used u = l.used u) :
    Drew content adj b e rands p t v l l'' served served'' o m :=
  ⟨h.sound,fun q hq => h.grows q (hgrows q hq),⟨h.fresh.1,fun ho => h.fresh.2 (hgrows o ho)⟩,
    h.follows,fun q hq => (h.pending q hq).trans (hpending q hq),
    fun u hu => (h.used u hu).trans (hused u hu),h.rand,h.value⟩

end

section
variable {ρ R : Type} [RandGen ρ] [WordGen ρ] {g : NeighborGraph} {adj : Nat → AdjList}
  {b e : Nat} {rands : Nat → ρ} {p v : Nat} (hlo : b ≤ v) (hhi : v < e) (hpos : 0 < (adj v).degree)
  (hdegree : (adj v).degree < 2 ^ 32) (t : Nat)
include hlo hhi hpos hdegree

theorem sample_drew {smp : Sampler} {l : Ledger Nat (Nat × Nat)} {served : List (Nat × Nat)}
    (hs : l.Sound served) (hf : Sampler.Follows g.edges adj b e rands l p smp) :
    let r := smp.sample g.edges v (drawnWith rands (t,l.used t))
    ∃ l' served' o, Drew g.edges adj b e rands p t v l l' served served' o
      (⟨r.1,r.2.1,r.2.2,[]⟩ : Moved ρ R) := by
  obtain ⟨⟨o,os,hq,hvalue⟩,hfollows,hrand,_⟩ := hf.traced hlo hhi hpos hdegree t
  obtain ⟨hsound,hfresh⟩ := hs.serve hq
  refine ⟨_,_,o,hsound,fun q hq => List.mem_append_left _ hq,
    ⟨List.mem_append_right _ List.mem_cons_self,hfresh⟩,hfollows,fun q hne => ?_,fun u hu => ?_,
    hrand,hvalue⟩
  · exact l.pending_serve_of_ne _ _ (fun he => hne (congrArg Prod.fst he))
  · exact l.used_serve_of_ne _ _ hu

theorem walkMessage_drew {smp : Sampler} {l : Ledger Nat (Nat × Nat)} {served : List (Nat × Nat)}
    (hs : l.Sound served) (hf : Sampler.Follows g.edges adj b e rands l p smp) {m : Moved ρ R}
    (hm : walkMessage g v smp (drawnWith rands (t,l.used t)) = some m) :
    ∃ l' served' o, Drew g.edges adj b e rands p t v l l' served served' o m := by
  rw [walkMessage] at hm
  split_ifs at hm
  cases hm
  exact sample_drew hlo hhi hpos hdegree t hs hf

/-- The last attempt decides the next vertex. -/
theorem node2vecWalkMessage_drew [Floating R] [RandGenFloat ρ R] [WordGenFloat ρ R]
    {wm : Node2vec R} {socket previous fuel : Nat} {smp : Sampler}
    {l : Ledger Nat (Nat × Nat)} {served : List (Nat × Nat)} (hs : l.Sound served)
    (hf : Sampler.Follows g.edges adj b e rands l p smp) {m : Moved ρ R}
    (hm : node2vecWalkMessage wm g socket previous v fuel smp (drawnWith rands (t,l.used t)) =
      some m) :
    ∃ l' served' o, Drew g.edges adj b e rands p t v l l' served served' o m := by
  induction fuel generalizing smp l served m with
  | zero => cases hm
  | succ fuel ih =>
    obtain ⟨l',served',o,hdrew⟩ := sample_drew (R := R) hlo hhi hpos hdegree t hs hf
    rw [node2vecWalkMessage] at hm
    split_ifs at hm
    simp only [WordGenFloat.genFloat_eq] at hm
    split at hm
    · cases hm
    · cases hm
      exact ⟨_,_,o,hdrew.test rfl rfl rfl⟩
    · obtain ⟨m',hm',rfl⟩ := Option.map_eq_some_iff.mp hm
      -- The rejected attempt and its test, before the attempts that follow.
      let r := smp.sample g.edges v (drawnWith rands (t,l.used t))
      let tested : Moved ρ R := ⟨r.1,r.2.1,WordGen.next r.2.2,[]⟩
      have htest : Drew g.edges adj b e rands p t v l (l'.make t 1) served
          (served' ++ l'.batch t 1) o tested := hdrew.test rfl rfl rfl
      have hrand : WordGen.next r.2.2 = drawnWith rands (t,(l'.make t 1).used t) := htest.rand
      obtain ⟨l'',served'',o',hnext⟩ := ih htest.sound htest.follows (by rw [← hrand]; exact hm')
      have hafter := hnext.after htest.grows htest.pending htest.used
      exact ⟨l'',served'',o',hafter.sound,hafter.grows,hafter.fresh,hafter.follows,hafter.pending,
        hafter.used,hafter.rand,hafter.value⟩

end

end FlashMob.WalkManager
