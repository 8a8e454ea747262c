import FlashMob.Walk.Once

namespace FlashMob.WalkManager
open Lib.Runs Lib.Update FlashMob.Graph

variable {ι : Type} {g : Region ι} {st st' : Progress ι} {t : Nat} {tr : List (Event ι)}
  {o : Option (Event ι)}

/-- Each message of a taken partition has been walked or is still held by a thread. -/
def Accounted [DecidableEq ι] (g : Region ι) (tr : List (Event ι)) (st : Progress ι) : Prop :=
  ∀ x, ((walked tr).map Prod.snd).count x +
      ∑ t ∈ Finset.range g.threadNum, (st.pc t).todo.count x =
    ((allTaken tr).flatMap g.messages).count x

theorem accounted_move [DecidableEq ι] (h : Accounted g tr st) (ht : t < g.threadNum)
    {pc' : Pc ι} {es : List (Event ι)}
    (hes : ∀ x, ((walked es).map Prod.snd).count x + pc'.todo.count x =
      (st.pc t).todo.count x + ((allTaken es).flatMap g.messages).count x)
    (hst : st'.pc = Function.update st.pc t pc') : Accounted g (tr ++ es) st' := by
  intro x
  have hx := h x
  have hu := sum_update (fun _ pc => (Pc.todo pc).count x) st.pc pc' (Finset.mem_range.mpr ht)
  have hn := hes x
  rw [hst,walked_append,allTaken_append,List.flatMap_append,List.map_append,List.count_append,
    List.count_append]
  omega

theorem action_accounted [DecidableEq ι] (h : Accounted g tr st) (ht : t < g.threadNum)
    (ha : Action g t st st' o) : Accounted g (tr ++ o.toList) st' := by
  cases ha with
  | pass hpc _ => exact accounted_move h ht (fun x => by simp [hpc,Pc.todo,walked,allTaken]) rfl
  | leave hpc _ => exact accounted_move h ht (fun x => by simp [hpc,Pc.todo,walked,allTaken]) rfl
  | front hpc _ => exact accounted_move h ht (fun x => by simp [hpc,Pc.todo,walked,allTaken]) rfl
  | back hpc _ => exact accounted_move h ht (fun x => by simp [hpc,Pc.todo,walked,allTaken]) rfl
  | message hpc =>
    refine accounted_move h ht (fun x => ?_) rfl
    simp [hpc,Pc.todo,walked,allTaken,List.count_cons]
    omega
  | next hpc => exact accounted_move h ht (fun x => by simp [hpc,Pc.todo,walked,allTaken]) rfl

theorem run_accounted [DecidableEq ι] (hr : Run (RegionStep g) entry tr st) :
    Accounted g tr st := by
  apply hr.invariant (Accounted g)
  · intro x
    simp [walked,allTaken,entry,Pc.todo]
  · intro tr st o st' h hs
    obtain ⟨t,ht,hs⟩ := hs
    exact action_accounted h ht (threadStep_action hs)

theorem allTaken_lt (h : Inv g tr st) {p : Nat} (hp : p ∈ allTaken tr) : p < g.partitionNum := by
  obtain ⟨e,he,hep⟩ := List.mem_filterMap.mp hp
  cases e with
  | message t x => cases hep
  | take t s index q =>
    cases hep
    exact (take_partition h he).1

/-- With a thread on every socket, all partitions have been taken at the end. -/
theorem allTaken_perm (hr : Run (RegionStep g) entry tr st) (hl : AllLeft g st)
    (hs : 0 < g.socketNum) (hthreads : ∀ s < g.socketNum, ∃ t < g.threadNum, g.socket t = s) :
    (allTaken tr).Perm (List.range g.partitionNum) := by
  have h := run_inv hr
  apply (List.perm_ext_iff_of_nodup (allTaken_nodup h) List.nodup_range).mpr
  intro p
  constructor
  · exact fun hp => List.mem_range.mpr (allTaken_lt h hp)
  · intro hp
    obtain ⟨t,ht,hst⟩ := hthreads _ (partitionSocket_lt hs p)
    have hperm := taken_perm_of_left h ⟨t,ht,hst⟩ (fun t ht _ => hl t ht)
    have hmem : p ∈ taken (partitionSocket g.socketNum p) tr :=
      hperm.mem_iff.mpr (mem_socketPartitions.mpr ⟨List.mem_range.mp hp,rfl⟩)
    obtain ⟨e,he,hep⟩ := List.mem_filterMap.mp hmem
    cases e with
    | message t x => cases hep
    | take t s index q =>
      simp only [Option.ite_none_right_eq_some,Option.some.injEq] at hep
      exact List.mem_filterMap.mpr ⟨_,he,by rw [hep.2]⟩

/-- Every message of every partition is walked exactly once. -/
theorem walked_perm [DecidableEq ι] (hr : Run (RegionStep g) entry tr st) (hl : AllLeft g st)
    (hs : 0 < g.socketNum) (hthreads : ∀ s < g.socketNum, ∃ t < g.threadNum, g.socket t = s) :
    ((walked tr).map Prod.snd).Perm ((List.range g.partitionNum).flatMap g.messages) := by
  refine List.Perm.trans ?_ ((allTaken_perm hr hl hs hthreads).flatMap_right g.messages)
  apply List.perm_iff_count.mpr
  intro x
  have h := run_accounted hr x
  have hnone : ∑ t ∈ Finset.range g.threadNum, (st.pc t).todo.count x = 0 := by
    apply Finset.sum_eq_zero
    intro t ht
    rw [hl t (Finset.mem_range.mp ht)]
    rfl
  rw [hnone] at h
  exact h

/-- A message that is about to be walked is one of the region and has not been walked before. -/
theorem message_fresh [DecidableEq ι] (hr : Run (RegionStep g) entry tr st)
    (hn : ((List.range g.partitionNum).flatMap g.messages).Nodup) {x : ι}
    (hs : RegionStep g st (some (.message t x)) st') :
    x ∉ (walked tr).map Prod.snd ∧ x ∈ (List.range g.partitionNum).flatMap g.messages := by
  have hnext := hr.next hs
  have h := run_inv hnext
  have hcount := run_accounted hnext x
  have hsubset : allTaken (tr ++ (some (Event.message t x)).toList) ⊆ List.range g.partitionNum :=
    fun p hp => List.mem_range.mpr (allTaken_lt h hp)
  obtain ⟨l,hl,hsub⟩ := List.subperm_of_subset (allTaken_nodup h) hsubset
  have hle := ((hl.symm.flatMap_right g.messages).count_eq x).trans_le
    ((hsub.flatMap g.messages).count_le x)
  have hone := List.nodup_iff_count_le_one.mp hn x
  have hlast : (walked (tr ++ (some (Event.message t x)).toList)).map Prod.snd =
      (walked tr).map Prod.snd ++ [x] := by
    rw [walked_append,List.map_append]
    rfl
  rw [hlast,List.count_append,List.count_singleton_self] at hcount
  exact ⟨List.count_eq_zero.mp (by omega),List.count_pos_iff.mp (by omega)⟩

def Region.maxMessages (g : Region ι) : Nat :=
  (Finset.range g.partitionNum).sup (fun p => (g.messages p).length)

/-- The steps of a thread until it looks at the guard again. -/
def Pc.rank (g : Region ι) : Pc ι → Nat
  | .check => 1
  | .claim => g.maxMessages + 3
  | .walk todo => todo.length + 2
  | .left => 0

def regionMeasure (g : Region ι) (st : Progress ι) : Nat :=
  (g.maxMessages + 4) * ∑ s ∈ Finset.range g.socketNum, (g.nums s - st.partitionProgress s) +
    ∑ t ∈ Finset.range g.threadNum, (st.pc t).rank g

/-- A step that leaves the guard alone and brings its thread nearer to the next look. -/
theorem measure_pc {hdv ldv : Nat → Nat} {pc' : Pc ι} (ht : t < g.threadNum)
    (hlt : pc'.rank g < (st.pc t).rank g) :
    regionMeasure g ⟨st.partitionProgress,hdv,ldv,Function.update st.pc t pc'⟩ <
      regionMeasure g st := by
  have := sum_update (fun _ pc => Pc.rank g pc) st.pc pc' (Finset.mem_range.mpr ht)
  simp only [regionMeasure]
  omega

theorem action_measure (hr : Run (RegionStep g) entry tr st)
    (hsock : ∀ t < g.threadNum, g.socket t < g.socketNum) (ht : t < g.threadNum)
    (hs : threadStep g t st = some (st',o)) : regionMeasure g st' < regionMeasure g st := by
  have hnext := run_inv (hr.next ⟨t,ht,hs⟩)
  have ha := threadStep_action hs
  have hmax : ∀ p s index, Event.take t s index p ∈ tr ++ o.toList →
      (g.messages p).length ≤ g.maxMessages := by
    intro p s index hm
    have hp := (take_partition hnext hm).1
    exact Finset.le_sup (f := fun p => (g.messages p).length) (Finset.mem_range.mpr hp)
  cases ha with
  | pass hpc hlt =>
    have hpcs := sum_update (fun _ pc => Pc.rank g pc) st.pc .claim (Finset.mem_range.mpr ht)
    have hprog := sum_update (fun s n => g.nums s - n) st.partitionProgress
      (st.partitionProgress (g.socket t) + 1) (Finset.mem_range.mpr (hsock t ht))
    simp only [hpc,Pc.rank] at hpcs
    have hone : ∑ s ∈ Finset.range g.socketNum, (g.nums s - st.partitionProgress s) =
        ∑ s ∈ Finset.range g.socketNum, (g.nums s - Function.update st.partitionProgress
          (g.socket t) (st.partitionProgress (g.socket t) + 1) s) + 1 := by omega
    simp only [regionMeasure,hone,Nat.mul_add]
    simp only [Pc.rank]
    omega
  | leave hpc hge =>
    have hpcs := sum_update (fun _ pc => Pc.rank g pc) st.pc .left (Finset.mem_range.mpr ht)
    have hprog := sum_update (fun s n => g.nums s - n) st.partitionProgress
      (st.partitionProgress (g.socket t) + 1) (Finset.mem_range.mpr (hsock t ht))
    simp only [hpc,Pc.rank] at hpcs
    have hsame : ∑ s ∈ Finset.range g.socketNum, (g.nums s - st.partitionProgress s) =
        ∑ s ∈ Finset.range g.socketNum, (g.nums s - Function.update st.partitionProgress
          (g.socket t) (st.partitionProgress (g.socket t) + 1) s) := by omega
    simp only [regionMeasure,hsame]
    simp only [Pc.rank]
    omega
  | @front p hpc hp =>
    have := hmax p _ _ (List.mem_append_right _ List.mem_cons_self)
    exact measure_pc ht (by simp only [hpc,Pc.rank]; omega)
  | @back p hpc hp =>
    have := hmax p _ _ (List.mem_append_right _ List.mem_cons_self)
    exact measure_pc ht (by simp only [hpc,Pc.rank]; omega)
  | message hpc => exact measure_pc ht (by simp [hpc,Pc.rank])
  | next hpc => exact measure_pc ht (by simp [hpc,Pc.rank])

theorem exists_threadStep (hne : st.pc t ≠ .left) : ∃ r, threadStep g t st = some r := by
  unfold threadStep
  cases hpc : st.pc t with
  | check => exact ⟨_,rfl⟩
  | claim =>
    by_cases hh : g.hdvThread t
    · simp only [hh,if_true]; exact ⟨_,rfl⟩
    · simp only [hh]; exact ⟨_,rfl⟩
  | walk todo => cases todo <;> exact ⟨_,rfl⟩
  | left => exact absurd hpc hne

theorem exists_allLeft (g : Region ι) (hsock : ∀ t < g.threadNum, g.socket t < g.socketNum) :
    ∃ tr st, Run (RegionStep g) entry tr st ∧ AllLeft g st := by
  apply exists_finished (fun st => ∃ tr, Run (RegionStep g) entry tr st) (AllLeft g)
    (regionMeasure g)
  · intro st o st' ⟨tr,hr⟩ hs
    have hnext := hr.next hs
    obtain ⟨t,ht,hs⟩ := hs
    exact ⟨⟨_,hnext⟩,action_measure hr hsock ht hs⟩
  · intro st _ hl
    simp only [AllLeft,not_forall] at hl
    obtain ⟨t,ht,hne⟩ := hl
    obtain ⟨⟨st',o⟩,hs⟩ := exists_threadStep hne
    exact ⟨o,st',t,ht,hs⟩
  · exact ⟨[],.start⟩

/-- In every state reached each claimed index is inside the socket's list and no partition
is taken twice; when all threads of a socket have left, its partitions have all been taken. -/
theorem partition_walked_exactly_once (g : Region ι) (tr : List (Event ι)) (st : Progress ι)
    (hr : Run (RegionStep g) entry tr st) :
    (∀ t s index p, Event.take t s index p ∈ tr →
      0 ≤ index ∧ index < g.nums s ∧ (g.partitions s)[index.toNat]? = some p) ∧
    (allTaken tr).Nodup ∧
    (∀ t t' s s' index index' p, Event.take t s index p ∈ tr →
      Event.take t' s' index' p ∈ tr → t = t') ∧
    ∀ s, (∃ t < g.threadNum, g.socket t = s) →
      (∀ t < g.threadNum, g.socket t = s → st.pc t = .left) →
      (taken s tr).Perm ((List.range g.partitionNum).filter
        (fun p => partitionSocket g.socketNum p = s)) := by
  have h := run_inv hr
  refine ⟨?_,allTaken_nodup h,?_,?_⟩
  · intro t s index p hm
    obtain ⟨h0,hn⟩ := h.index_bounds hm
    exact ⟨h0,hn,h.getElem?_index hm⟩
  · intro t t' s s' index index' p hm hm'
    exact take_thread_unique (allTaken_nodup h) hm hm'
  · intro s hthread hleft
    rw [← socketPartitions_eq]
    exact taken_perm_of_left h hthread hleft

theorem two_sockets_walked_once : ∃ tr st,
    Run (RegionStep ⟨2,5,4,fun t => t / 2,fun t => t % 2 == 1,fun p => [p,p + 10]⟩) entry tr st ∧
      (taken 0 tr).Perm [0,3,4] ∧ (taken 1 tr).Perm [1,2] := by
  obtain ⟨tr,st,hr,hl⟩ := exists_allLeft
    (⟨2,5,4,fun t => t / 2,fun t => t % 2 == 1,fun p => [p,p + 10]⟩ : Region Nat)
    (fun t (ht : t < 4) => show t / 2 < 2 by omega)
  obtain ⟨_,_,_,hall⟩ := partition_walked_exactly_once _ tr st hr
  refine ⟨tr,st,hr,?_,?_⟩
  · exact hall 0 ⟨0,by decide,rfl⟩ (fun t ht _ => hl t ht)
  · exact hall 1 ⟨2,by decide,rfl⟩ (fun t ht _ => hl t ht)

end FlashMob.WalkManager
