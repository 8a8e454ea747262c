import FlashMob.Walk.Message
import FlashMob.Walk.Stops

namespace FlashMob.WalkManager
open Lib.Runs FlashMob.Graph FlashMob.Sampling

/-- More attempts do not change what the rejection loop returns. -/
theorem node2vecWalkMessage_unique {ρ R : Type} [RandGen ρ] [RandGenFloat ρ R] [Floating R]
    {wm : Node2vec R} {g : NeighborGraph} {socket previous current fuel fuel' : Nat}
    {sampler : Sampler} {rd : ρ} {m m' : Moved ρ R}
    (hm : node2vecWalkMessage wm g socket previous current fuel sampler rd = some m)
    (hm' : node2vecWalkMessage wm g socket previous current fuel' sampler rd = some m') : m = m' := by
  induction fuel generalizing fuel' sampler rd m m' with
  | zero => cases hm
  | succ fuel ih =>
    cases fuel' with
    | zero => cases hm'
    | succ fuel' =>
      rw [node2vecWalkMessage] at hm hm'
      split_ifs at hm with hreturns
      rw [if_pos hreturns] at hm'
      dsimp only at hm hm'
      split at hm
      · cases hm
      · next haccept =>
        simp only [haccept] at hm'
        exact Option.some.inj (hm.symm.trans hm')
      · next haccept =>
        simp only [haccept] at hm'
        obtain ⟨moved,hmoved,rfl⟩ := Option.map_eq_some_iff.mp hm
        obtain ⟨moved',hmoved',rfl⟩ := Option.map_eq_some_iff.mp hm'
        rw [ih hmoved hmoved']

section
variable {ι : Type} {g : Region ι} {st st' : Progress ι} {t u : Nat} {tr : List (Event ι)} {x y : ι}

/-- Thread `t` has taken a partition with the message. -/
def Took (g : Region ι) (tr : List (Event ι)) (t : Nat) (x : ι) : Prop :=
  ∃ s index p, Event.take t s index p ∈ tr ∧ x ∈ g.messages p

theorem Took.append (h : Took g tr t x) (tr' : List (Event ι)) : Took g (tr ++ tr') t x := by
  obtain ⟨s,index,p,hm,hx⟩ := h
  exact ⟨s,index,p,List.mem_append_left _ hm,hx⟩

/-- The threads hold and walk messages of partitions that they took. -/
structure Holders (g : Region ι) (tr : List (Event ι)) (st : Progress ι) : Prop where
  held : ∀ t, ∀ x ∈ (st.pc t).todo, Took g tr t x
  walked : ∀ t x, (t,x) ∈ WalkManager.walked tr → Took g tr t x

theorem Holders.move (h : Holders g tr st) {pc' : Pc ι} {es : List (Event ι)}
    (hst : st'.pc = Function.update st.pc t pc') (hheld : ∀ x ∈ pc'.todo, Took g (tr ++ es) t x)
    (hwalked : ∀ u x, (u,x) ∈ WalkManager.walked es → Took g (tr ++ es) u x) :
    Holders g (tr ++ es) st' := by
  refine ⟨fun u x hx => ?_,fun u x hx => ?_⟩
  · rw [hst] at hx
    by_cases hu : u = t
    · subst hu
      rw [Function.update_self] at hx
      exact hheld x hx
    · rw [Function.update_of_ne hu] at hx
      exact (h.held u x hx).append es
  · rw [walked_append,List.mem_append] at hx
    rcases hx with hx | hx
    · exact (h.walked u x hx).append es
    · exact hwalked u x hx

theorem action_holders {o : Option (Event ι)} (h : Holders g tr st) (ha : Action g t st st' o) :
    Holders g (tr ++ o.toList) st' := by
  cases ha with
  | pass _ _ => exact h.move rfl (fun _ hx => by cases hx) (fun _ _ hx => by cases hx)
  | leave _ _ => exact h.move rfl (fun _ hx => by cases hx) (fun _ _ hx => by cases hx)
  | front _ _ =>
    refine h.move rfl (fun x hx => ?_) (fun _ _ hx => by cases hx)
    exact ⟨_,_,_,List.mem_append_right _ (List.mem_singleton.mpr rfl),hx⟩
  | back _ _ =>
    refine h.move rfl (fun x hx => ?_) (fun _ _ hx => by cases hx)
    exact ⟨_,_,_,List.mem_append_right _ (List.mem_singleton.mpr rfl),hx⟩
  | @message x todo hpc =>
    have hheld : ∀ y ∈ x :: todo, Took g tr t y := fun y hy => h.held t y (by rwa [hpc])
    refine h.move rfl (fun y hy => (hheld y (List.mem_cons_of_mem _ hy)).append _) (fun u y hy => ?_)
    obtain ⟨rfl,rfl⟩ : u = t ∧ y = x := by simpa [WalkManager.walked] using hy
    exact (hheld y List.mem_cons_self).append _
  | next _ => exact h.move rfl (fun _ hx => by cases hx) (fun _ _ hx => by cases hx)

theorem run_holders (hr : Run (RegionStep g) entry tr st) : Holders g tr st := by
  refine hr.invariant (Holders g) ⟨fun _ _ hx => (by cases hx),fun _ _ hx => (by cases hx)⟩ ?_
  rintro tr st o st' h ⟨t,_,hs⟩
  exact action_holders h (threadStep_action hs)

/-- Two threads walk messages of different partitions. -/
theorem walked_apart (hr : Run (RegionStep g) entry tr st) (hne : t ≠ u) (hx : (t,x) ∈ walked tr)
    (hy : (u,y) ∈ walked tr) : ∃ p q, p ≠ q ∧ p < g.partitionNum ∧ q < g.partitionNum ∧
      x ∈ g.messages p ∧ y ∈ g.messages q := by
  have h := run_inv hr
  obtain ⟨s,index,p,hp,hx⟩ := (run_holders hr).walked t x hx
  obtain ⟨s',index',q,hq,hy⟩ := (run_holders hr).walked u y hy
  refine ⟨p,q,?_,(take_partition h hp).1,(take_partition h hq).1,hx,hy⟩
  rintro rfl
  exact hne (take_thread_unique (allTaken_nodup h) hp hq)

end

end FlashMob.WalkManager
