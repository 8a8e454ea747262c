import FlashMob.Walk.Schedule

namespace FlashMob.WalkManager
open Lib.Runs Lib.Update FlashMob.Graph

variable {ι : Type} {g : Region ι} {st st' : Progress ι} {t : Nat} {tr : List (Event ι)}

theorem entry_inv (g : Region ι) : Inv g [] (entry : Progress ι) := by
  refine ⟨?_,?_,?_,?_⟩
  · intro s; simp [entry,claiming,Pc.claims]
  · intro s; simp [entry,indices,claimed]
  · intro t s index p h; simp at h
  · intro t _ h; cases h

theorem claimed_front (n hdv ldv : Nat) :
    (claimed n hdv ldv ++ [(hdv : Int)]).Perm (claimed n (hdv + 1) ldv) := by
  simp only [claimed,List.range_succ,List.map_append,List.map_cons,List.map_nil,List.append_assoc]
  exact List.Perm.append_left _ List.perm_append_comm

theorem claimed_back (n hdv ldv : Nat) :
    claimed n hdv ldv ++ [(n : Int) - ldv - 1] = claimed n hdv (ldv + 1) := by
  simp [claimed,List.range_succ]

/-- A step moves the guard's balance on the socket of its thread only. -/
theorem guard_move (h : Inv g tr st) (ht : t < g.threadNum) (x : Pc ι)
    {progress hdv ldv : Nat → Nat}
    (hoff : ∀ s, s ≠ g.socket t → progress s = st.partitionProgress s ∧
      hdv s = st.hdvPartitionProgress s ∧ ldv s = st.ldvPartitionProgress s)
    (hon : hdv (g.socket t) + ldv (g.socket t) + x.claims +
        min (st.partitionProgress (g.socket t)) (g.nums (g.socket t)) =
      st.hdvPartitionProgress (g.socket t) + st.ldvPartitionProgress (g.socket t) +
        (st.pc t).claims + min (progress (g.socket t)) (g.nums (g.socket t))) (s : Nat) :
    hdv s + ldv s + claiming g s ⟨progress,hdv,ldv,Function.update st.pc t x⟩ =
      min (progress s) (g.nums s) := by
  have hg := h.guard s
  have hu := claiming_update st s x ht
  by_cases hs : g.socket t = s
  · subst hs
    simp only [claiming,if_true] at hg hu ⊢
    omega
  · obtain ⟨h1,h2,h3⟩ := hoff s (Ne.symm hs)
    simp only [claiming,hs,if_false] at hg hu ⊢
    omega

/-- A thread that stays in the loop does not disturb what the others found when they left. -/
theorem drained_move (h : Inv g tr st) {x : Pc ι} (hx : x ≠ .left) {progress : Nat → Nat}
    (hle : ∀ s, st.partitionProgress s ≤ progress s) {t' : Nat} (ht' : t' < g.threadNum)
    (hl : Function.update st.pc t x t' = .left) :
    g.nums (g.socket t') ≤ progress (g.socket t') := by
  by_cases he : t' = t
  · subst he
    exact absurd (by simpa using hl) hx
  · rw [Function.update_of_ne he] at hl
    exact Nat.le_trans (h.drained t' ht' hl) (hle _)

theorem le_bump (f : Nat → Nat) (s s' : Nat) : f s' ≤ Function.update f s (f s + 1) s' := by
  by_cases he : s' = s
  · subst he; simp
  · simp [Function.update_of_ne he]

/-- One claim of thread `t`, at one of the two ends. -/
theorem claim_inv (h : Inv g tr st) (ht : t < g.threadNum) (hpc : st.pc t = .claim)
    {hdv ldv : Nat → Nat} {index : Int} {p : Nat}
    (hoff : ∀ s, s ≠ g.socket t →
      hdv s = st.hdvPartitionProgress s ∧ ldv s = st.ldvPartitionProgress s)
    (hsum : hdv (g.socket t) + ldv (g.socket t) =
      st.hdvPartitionProgress (g.socket t) + st.ldvPartitionProgress (g.socket t) + 1)
    (hnew : (claimed (g.nums (g.socket t)) (st.hdvPartitionProgress (g.socket t))
        (st.ldvPartitionProgress (g.socket t)) ++ [index]).Perm
      (claimed (g.nums (g.socket t)) (hdv (g.socket t)) (ldv (g.socket t))))
    (hp : p = (g.partitions (g.socket t)).getD index.toNat 0) :
    Inv g (tr ++ [.take t (g.socket t) index p])
      ⟨st.partitionProgress,hdv,ldv,Function.update st.pc t (.walk (g.messages p))⟩ := by
  refine ⟨?_,?_,?_,?_⟩
  · refine guard_move h ht _ (fun s hs => ⟨rfl,hoff s hs⟩) ?_
    simp only [hpc,Pc.claims]
    omega
  · intro s
    by_cases hs : g.socket t = s
    · subst hs
      rw [indices_append]
      exact ((h.positions _).append_right _).trans (by simpa [indices] using hnew)
    · obtain ⟨h1,h2⟩ := hoff s (Ne.symm hs)
      simpa [indices,hs,h1,h2] using h.positions s
  · intro t' s' index' p' hm
    rcases List.mem_append.mp hm with hm | hm
    · exact h.named t' s' index' p' hm
    · simp only [List.mem_singleton,Event.take.injEq] at hm
      obtain ⟨rfl,rfl,rfl,rfl⟩ := hm
      exact ⟨rfl,hp⟩
  · intro t' ht' hl
    exact drained_move h (by simp) (fun _ => Nat.le_refl _) ht' hl

theorem action_inv {o : Option (Event ι)} (h : Inv g tr st) (ht : t < g.threadNum)
    (ha : Action g t st st' o) : Inv g (tr ++ o.toList) st' := by
  cases ha with
  | pass hpc hlt =>
    refine ⟨?_,?_,by simpa using h.named,?_⟩
    · refine guard_move h ht _ (fun s hs => ⟨Function.update_of_ne hs _ _,rfl,rfl⟩) ?_
      simp only [hpc,Pc.claims,Function.update_self]
      omega
    · intro s; simpa using h.positions s
    · intro t' ht' hl
      exact drained_move h (by simp) (le_bump _ _) ht' hl
  | leave hpc hge =>
    refine ⟨?_,?_,by simpa using h.named,?_⟩
    · refine guard_move h ht _ (fun s hs => ⟨Function.update_of_ne hs _ _,rfl,rfl⟩) ?_
      simp only [hpc,Pc.claims,Function.update_self]
      omega
    · intro s; simpa using h.positions s
    · intro t' ht' hl
      by_cases he : t' = t
      · subst he
        exact Nat.le_trans hge (le_bump _ _ _)
      · simp only [Function.update_of_ne he] at hl
        exact Nat.le_trans (h.drained t' ht' hl) (le_bump _ _ _)
  | front hpc hp =>
    refine claim_inv h ht hpc (fun s hs => ⟨Function.update_of_ne hs _ _,rfl⟩) ?_ ?_ hp
    · rw [Function.update_self]; omega
    · rw [Function.update_self]; exact claimed_front _ _ _
  | back hpc hp =>
    refine claim_inv h ht hpc (fun s hs => ⟨rfl,Function.update_of_ne hs _ _⟩) ?_ ?_ hp
    · rw [Function.update_self]; omega
    · rw [Function.update_self,claimed_back]
  | message hpc =>
    refine ⟨?_,?_,?_,?_⟩
    · refine guard_move h ht _ (fun _ _ => ⟨rfl,rfl,rfl⟩) ?_
      simp only [hpc,Pc.claims]
    · intro s; simpa [indices] using h.positions s
    · intro t' s' index p' hm
      exact h.named t' s' index p' (by simpa using hm)
    · intro t' ht' hl
      exact drained_move h (by simp) (fun _ => Nat.le_refl _) ht' hl
  | next hpc =>
    refine ⟨?_,?_,by simpa using h.named,?_⟩
    · refine guard_move h ht _ (fun _ _ => ⟨rfl,rfl,rfl⟩) ?_
      simp only [hpc,Pc.claims]
    · intro s; simpa using h.positions s
    · intro t' ht' hl
      exact drained_move h (by simp) (fun _ => Nat.le_refl _) ht' hl

theorem run_inv (hr : Run (RegionStep g) entry tr st) : Inv g tr st := by
  refine hr.invariant (Inv g) (entry_inv g) ?_
  rintro tr st o st' h ⟨t,ht,hs⟩
  exact action_inv h ht (threadStep_action hs)

theorem claimed_bounds {n hdv ldv : Nat} (h : hdv + ldv ≤ n) :
    ∀ i ∈ claimed n hdv ldv, 0 ≤ i ∧ i < n := by
  intro i hi
  simp only [claimed,List.mem_append,List.mem_map,List.mem_range] at hi
  rcases hi with ⟨k,hk,rfl⟩ | ⟨k,hk,rfl⟩ <;> omega

/-- The two ends do not meet before all positions are claimed. -/
theorem claimed_nodup {n hdv ldv : Nat} (h : hdv + ldv ≤ n) : (claimed n hdv ldv).Nodup := by
  refine List.Nodup.append ?_ ?_ ?_
  · exact List.nodup_range.map (fun a b hab => Int.ofNat.inj hab)
  · refine List.nodup_range.map (fun a b hab => ?_)
    have he : (n : Int) - a - 1 = n - b - 1 := hab
    omega
  · intro i hi hi'
    simp only [List.mem_map,List.mem_range] at hi hi'
    obtain ⟨k,hk,rfl⟩ := hi
    obtain ⟨k',hk',he⟩ := hi'
    omega

theorem claimed_full {n hdv ldv : Nat} (h : hdv + ldv = n) :
    (claimed n hdv ldv).Perm ((List.range n).map (fun k : Nat => (k : Int))) := by
  refine (List.perm_ext_iff_of_nodup (claimed_nodup (Nat.le_of_eq h))
    (List.nodup_range.map (fun a b hab => Int.ofNat.inj hab))).mpr (fun i => ?_)
  constructor
  · intro hi
    obtain ⟨h0,hn⟩ := claimed_bounds (Nat.le_of_eq h) i hi
    exact List.mem_map.mpr ⟨i.toNat,by simp; omega,Int.toNat_of_nonneg h0⟩
  · intro hi
    simp only [List.mem_map,List.mem_range] at hi
    obtain ⟨k,hk,rfl⟩ := hi
    simp only [claimed,List.mem_append,List.mem_map,List.mem_range]
    by_cases hlt : k < hdv
    · exact Or.inl ⟨k,hlt,rfl⟩
    · have he : (n : Int) - (n - k - 1 : Nat) - 1 = k := by omega
      exact Or.inr ⟨n - k - 1,by omega,he⟩

theorem Inv.claims_le (h : Inv g tr st) (s : Nat) :
    st.hdvPartitionProgress s + st.ldvPartitionProgress s ≤ g.nums s := by
  have := h.guard s
  omega

/-- Every index ever used lies inside the socket's list. -/
theorem Inv.index_bounds (h : Inv g tr st) {t s p : Nat} {index : Int}
    (hm : Event.take t s index p ∈ tr) : 0 ≤ index ∧ index < g.nums s := by
  have hi : index ∈ indices s tr :=
    List.mem_filterMap.mpr ⟨_,hm,by simp⟩
  exact claimed_bounds (h.claims_le s) index ((h.positions s).mem_iff.mp hi)

theorem taken_eq_map (h : Inv g tr st) (s : Nat) :
    taken s tr = (indices s tr).map (fun i => (g.partitions s).getD i.toNat 0) := by
  rw [taken,indices,List.map_filterMap]
  apply List.filterMap_congr
  intro e he
  cases e with
  | message t x => rfl
  | take t s' index p =>
    obtain ⟨_,hp⟩ := h.named t s' index p he
    by_cases hs : s' = s
    · subst hs; simp [hp]
    · simp [hs]

theorem Inv.getElem?_index (h : Inv g tr st) {t s p : Nat} {index : Int}
    (hm : Event.take t s index p ∈ tr) : (g.partitions s)[index.toNat]? = some p := by
  obtain ⟨h0,hn⟩ := h.index_bounds hm
  obtain ⟨_,hp⟩ := h.named t s index p hm
  have hlt : index.toNat < (g.partitions s).length := by rw [← nums_eq]; omega
  rw [List.getD_eq_getElem _ _ hlt] at hp
  rw [List.getElem?_eq_getElem hlt,hp]

/-- The partition at a valid index belongs to the socket. -/
theorem take_partition (h : Inv g tr st) {t s p : Nat} {index : Int}
    (hm : Event.take t s index p ∈ tr) :
    p < g.partitionNum ∧ partitionSocket g.socketNum p = s :=
  mem_socketPartitions.mp (List.mem_of_getElem? (h.getElem?_index hm))

theorem getD_inj_on {l : List Nat} (hl : l.Nodup) {is : List Int} (his : is.Nodup)
    (hb : ∀ i ∈ is, 0 ≤ i ∧ i < l.length) :
    (is.map (fun i => l.getD i.toNat 0)).Nodup := by
  refine List.Nodup.map_on ?_ his
  intro i hi j hj he
  obtain ⟨hi0,hin⟩ := hb i hi
  obtain ⟨hj0,hjn⟩ := hb j hj
  rw [List.getD_eq_getElem _ _ (show i.toNat < l.length by omega),
    List.getD_eq_getElem _ _ (show j.toNat < l.length by omega)] at he
  have := (List.Nodup.getElem_inj_iff hl).mp he
  omega

theorem taken_nodup (h : Inv g tr st) (s : Nat) : (taken s tr).Nodup := by
  rw [taken_eq_map h s]
  refine getD_inj_on (socketPartitions_nodup _ _ _)
    ((h.positions s).nodup_iff.mpr (claimed_nodup (h.claims_le s))) ?_
  intro i hi
  have := claimed_bounds (h.claims_le s) i ((h.positions s).mem_iff.mp hi)
  rwa [nums_eq] at this

theorem count_allTaken (p : Nat) : ∀ (tr : List (Event ι)),
    (∀ t s index q, Event.take t s index q ∈ tr → partitionSocket g.socketNum q = s) →
    (allTaken tr).count p = (taken (partitionSocket g.socketNum p) tr).count p
  | [], _ => rfl
  | .message t x :: tr, h =>
    count_allTaken p tr (fun t s i q hm => h t s i q (List.mem_cons_of_mem _ hm))
  | .take t s index q :: tr, h => by
    have ih := count_allTaken p tr (fun t s i q hm => h t s i q (List.mem_cons_of_mem _ hm))
    have hs := h t s index q List.mem_cons_self
    by_cases hq : q = p
    · subst hq
      simpa [allTaken,taken,hs] using ih
    · by_cases he : s = partitionSocket g.socketNum p
      · simpa [allTaken,taken,he,hq] using ih
      · simpa [allTaken,taken,he,hq] using ih

theorem allTaken_nodup (h : Inv g tr st) : (allTaken tr).Nodup := by
  refine List.nodup_iff_count_le_one.mpr (fun p => ?_)
  rw [count_allTaken (g := g) p tr (fun t s i q hm => (take_partition h hm).2)]
  exact List.nodup_iff_count_le_one.mp (taken_nodup h _) p

/-- A socket whose threads have all left has claimed every position. -/
theorem taken_perm_of_left (h : Inv g tr st) {s : Nat}
    (hthread : ∃ t < g.threadNum, g.socket t = s)
    (hleft : ∀ t < g.threadNum, g.socket t = s → st.pc t = .left) :
    (taken s tr).Perm (g.partitions s) := by
  obtain ⟨t,ht,hs⟩ := hthread
  have hnone : claiming g s st = 0 := by
    refine Finset.sum_eq_zero (fun t' ht' => ?_)
    split_ifs with hs'
    · rw [hleft t' (Finset.mem_range.mp ht') hs']; rfl
    · rfl
  have hd := h.drained t ht (hleft t ht hs)
  rw [hs] at hd
  have hg := h.guard s
  have hfull := claimed_full (show st.hdvPartitionProgress s + st.ldvPartitionProgress s =
    g.nums s by omega)
  rw [taken_eq_map h s]
  refine (((h.positions s).trans hfull).map _).trans ?_
  rw [List.map_map,nums_eq]
  refine List.Perm.of_eq ?_
  refine List.ext_getElem (by simp) (fun i hi hi' => ?_)
  simp [List.getElem?_eq_getElem hi']

/-- Two claims of one partition would be two entries of the list of claims. -/
theorem take_thread_unique : ∀ {tr : List (Event ι)}, (allTaken tr).Nodup →
    ∀ {t t' s s' p : Nat} {index index' : Int}, Event.take t s index p ∈ tr →
      Event.take t' s' index' p ∈ tr → t = t' := by
  intro tr
  induction tr with
  | nil => intro _ t t' s s' p i i' h _; simp at h
  | cons e tr ih =>
    intro hn t t' s s' p i i' h h'
    have hmem : ∀ {t s p : Nat} {i : Int}, Event.take t s i p ∈ tr → p ∈ allTaken tr :=
      fun hm => List.mem_filterMap.mpr ⟨_,hm,rfl⟩
    cases e with
    | message _ _ =>
      exact ih hn (by simpa using h) (by simpa using h')
    | take t₀ s₀ i₀ p₀ =>
      obtain ⟨hnot,htail⟩ := List.nodup_cons.mp (show (p₀ :: allTaken tr).Nodup from hn)
      rcases List.mem_cons.mp h with hm | hm <;> rcases List.mem_cons.mp h' with hm' | hm'
      · cases hm; cases hm'; rfl
      · cases hm; exact absurd (hmem hm') hnot
      · cases hm'; exact absurd (hmem hm) hnot
      · exact ih htail hm hm'

end FlashMob.WalkManager
