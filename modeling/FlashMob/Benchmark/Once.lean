import FlashMob.Benchmark.Region

namespace FlashMob.Benchmark
open Floating Lib.Keyed Lib.Runs Lib.Update

section
variable {D : Type} {g : BmkRegion} {st st' : BmkState D} {t u : Nat} {pc : Pc D}

theorem Pc.past_le_one (pc : Pc D) : pc.past ≤ 1 := by
  cases pc <;> simp [past]

theorem Pc.counted_le_past (pc : Pc D) : pc.counted ≤ pc.past := by
  cases pc <;> simp [past,counted]

/-- While one thread has a zero in the sum, the sum does not reach the number of threads. -/
theorem sum_lt_threadNum {f : Pc D → Nat} (hf : ∀ pc, f pc ≤ 1) (ht : t < g.threadNum)
    (hpc : f (st.pc t) = 0) : ∑ u ∈ Finset.range g.threadNum, f (st.pc u) < g.threadNum := by
  have hlt := Finset.sum_lt_sum (fun u _ => hf (st.pc u))
    ⟨t,Finset.mem_range.mpr ht,hpc ▸ Nat.zero_lt_one⟩
  rwa [Finset.sum_const,Finset.card_range,smul_eq_mul,Nat.mul_one] at hlt

@[simp] theorem move_self : (st.move t pc).pc t = pc := Function.update_self ..

theorem move_of_ne (h : u ≠ t) : (st.move t pc).pc u = st.pc u := Function.update_of_ne h _ _

/-- What holds of the place of the thread that moved and of the old places, holds of all. -/
theorem forall_move {P : Nat → Pc D → Prop} (hpc : st'.pc = Function.update st.pc t pc)
    (h : ∀ u < g.threadNum, P u (st.pc u)) (ht : P t pc) : ∀ u < g.threadNum, P u (st'.pc u) := by
  intro u hu
  rw [hpc]
  by_cases hut : u = t
  · rw [hut,Function.update_self]
    exact ht
  · rw [Function.update_of_ne hut]
    exact h u hu

theorem sum_moved (f : Pc D → Nat) (hpc : st'.pc = Function.update st.pc t pc)
    (ht : t < g.threadNum) : ∑ u ∈ Finset.range g.threadNum, f (st'.pc u) + f (st.pc t) =
      ∑ u ∈ Finset.range g.threadNum, f (st.pc u) + f pc := by
  rw [hpc]
  exact st.sum_move f pc ht

theorem Counts.keep (h : Counts g st) (ht : t < g.threadNum)
    (hpc : st'.pc = Function.update st.pc t pc) (hprogress : st'.progress = st.progress)
    (hfinished : st'.finishedThreadNum = st.finishedThreadNum) (hpast : pc.past = (st.pc t).past)
    (hcounted : pc.counted = (st.pc t).counted)
    (hleft : pc = .left → st.finishedThreadNum = g.threadNum) : Counts g st' := by
  have hpasts := sum_moved Pc.past hpc ht
  have hcounts := sum_moved Pc.counted hpc ht
  have hle := h.progress
  have heq := h.finished
  refine ⟨by omega,?_,by omega,?_⟩
  · rw [hprogress]
    exact forall_move (P := fun _ pc => pc.past = 1 → g.testDegrees.length ≤ st.progress) hpc
      h.drained (fun hp => h.drained t ht (hpast ▸ hp))
  · rw [hfinished]
    exact forall_move (P := fun _ pc => pc = .left → st.finishedThreadNum = g.threadNum) hpc h.left
      hleft

theorem Locked.keep (h : Locked g st) (ht : t < g.threadNum)
    (hpc : st'.pc = Function.update st.pc t pc) (hlock : st'.catManagerLock = st.catManagerLock)
    (hholds : pc.holds = (st.pc t).holds) : Locked g st' := by
  refine ⟨?_,fun u hu => h.held u (hlock ▸ hu)⟩
  rw [hlock]
  exact forall_move (P := fun u pc => pc.holds = true ↔ st.catManagerLock = some u) hpc h.holder
    (hholds ▸ h.holder t ht)

end

section
variable {D : Type} {g : BmkRegion} {m₀ : MiniBMKCatManager D}
  {tr : List (MiniBMKItem D)} {st st' : BmkState D} {t : Nat} {o : Option (MiniBMKItem D)}

/-- The counter of the degrees does not wrap around while a thread still takes one. -/
theorem Counts.room (h : Counts g st) (hroom : g.testDegrees.length + g.threadNum < 2 ^ 32)
    (ht : t < g.threadNum) (hpc : st.pc t = .claim) : u32 (st.progress + 1) = st.progress + 1 := by
  have hle := h.progress
  have hlt := sum_lt_threadNum Pc.past_le_one ht (by rw [hpc]; rfl)
  exact u32_of_lt (by omega)

theorem step_counts (hroom : g.testDegrees.length + g.threadNum < 2 ^ 32) (h : Counts g st)
    (ht : t < g.threadNum) (hs : ThreadStep g t st o st') : Counts g st' := by
  have hle := h.progress
  have heq := h.finished
  cases hs with
  | @claim degree hpc hd =>
    have hnext := h.room hroom ht hpc
    obtain ⟨hlt,_⟩ := List.getElem?_eq_some_iff.mp hd
    have hmoved : Counts g { st with progress := u32 (st.progress + 1) } := by
      rw [hnext]
      refine ⟨Nat.le_trans hlt (Nat.le_add_right _ _),fun u hu hp => ?_,heq,h.left⟩
      exact Nat.le_succ_of_le (h.drained u hu hp)
    exact hmoved.keep ht rfl rfl rfl (by rw [hpc]; rfl) (by rw [hpc]; rfl) (fun hl => by cases hl)
  | exhausted hpc hd =>
    rw [h.room hroom ht hpc]
    have hpasts := st.sum_move Pc.past .finish ht
    have hcounts := st.sum_move Pc.counted .finish ht
    have hpast : (st.pc t).past = 0 ∧ (Pc.finish : Pc D).past = 1 := by rw [hpc]; exact ⟨rfl,rfl⟩
    have hcount : (st.pc t).counted = (Pc.finish : Pc D).counted := by rw [hpc]; rfl
    refine ⟨?_,fun _ _ _ => Nat.le_succ_of_le hd,?_,?_⟩
    · change st.progress + 1 ≤ g.testDegrees.length +
        ∑ u ∈ Finset.range g.threadNum, ((st.move t .finish).pc u).past
      omega
    · change st.finishedThreadNum =
        ∑ u ∈ Finset.range g.threadNum, ((st.move t .finish).pc u).counted
      omega
    · exact forall_move (P := fun _ pc => pc = .left → st.finishedThreadNum = g.threadNum) rfl h.left
        (fun hl => by cases hl)
  | edge hpc | edges hpc | walker hpc | walkers hpc | enter hpc | next hpc | measure _ hpc
  | lock hpc | add hpc | unlock hpc =>
    exact h.keep ht rfl rfl rfl (by rw [hpc]; rfl) (by rw [hpc]; rfl) (fun hl => by cases hl)
  | finish hpc =>
    have hpasts := st.sum_move Pc.past .spin ht
    have hcounts := st.sum_move Pc.counted .spin ht
    have hpast : (st.pc t).past = (Pc.spin : Pc D).past := by rw [hpc]; rfl
    have hcount : (st.pc t).counted = 0 ∧ (Pc.spin : Pc D).counted = 1 := by
      rw [hpc]
      exact ⟨rfl,rfl⟩
    refine ⟨?_,?_,?_,?_⟩
    · change st.progress ≤ g.testDegrees.length +
        ∑ u ∈ Finset.range g.threadNum, ((st.move t .spin).pc u).past
      omega
    · exact forall_move (P := fun _ pc => pc.past = 1 → g.testDegrees.length ≤ st.progress) rfl
        h.drained (fun _ => h.drained t ht (by rw [hpc]; rfl))
    · change st.finishedThreadNum + 1 =
        ∑ u ∈ Finset.range g.threadNum, ((st.move t .spin).pc u).counted
      omega
    · -- nobody has left while this thread was not counted
      have hlt := sum_lt_threadNum (fun pc => Nat.le_trans pc.counted_le_past pc.past_le_one) ht
        (show (st.pc t).counted = 0 by rw [hpc]; rfl)
      refine forall_move (P := fun _ pc => pc = .left → st.finishedThreadNum + 1 = g.threadNum) rfl
        (fun u hu hl => ?_) (fun hl => by cases hl)
      have hall := h.left u hu hl
      omega
  | leave hpc hall =>
    exact h.keep ht rfl rfl rfl (by rw [hpc]; rfl) (by rw [hpc]; rfl) (fun _ => hall)

theorem step_locked (h : Locked g st) (ht : t < g.threadNum) (hs : ThreadStep g t st o st') :
    Locked g st' := by
  cases hs with
  | edge hpc | edges hpc | walker hpc | walkers hpc | enter hpc | claim hpc | exhausted hpc
  | next hpc | measure _ hpc | add hpc | finish hpc | leave hpc =>
    exact h.keep ht rfl rfl (by rw [hpc]; rfl)
  | lock hpc hfree =>
    refine ⟨fun u hu => ?_,fun u hu => Option.some.inj hu ▸ ht⟩
    change ((st.move t _).pc u).holds = true ↔ some t = some u
    by_cases hut : u = t
    · rw [hut,move_self]
      exact iff_of_true rfl rfl
    · rw [move_of_ne hut,h.holder u hu,hfree]
      exact iff_of_false (by simp) (fun he => hut (Option.some.inj he).symm)
  | unlock hpc =>
    have hmine := (h.holder t ht).mp (by rw [hpc]; rfl)
    refine ⟨fun u hu => ?_,fun u hu => by cases hu⟩
    change ((st.move t _).pc u).holds = true ↔ none = some u
    by_cases hut : u = t
    · rw [hut,move_self]
      exact iff_of_false Bool.false_ne_true (by simp)
    · rw [move_of_ne hut,h.holder u hu,hmine]
      exact iff_of_false (fun he => hut (Option.some.inj he).symm) (by simp)

/-- Tasks move from the degrees to a thread, and from the thread to what was entered. -/
theorem BmkAccounted.move (h : BmkAccounted g tr st) (ht : t < g.threadNum) {pc : Pc D}
    {es : List (MiniBMKItem D)} (taken : List (ℕ ×ₗ ℕ ×ₗ ℕ))
    (hpc : st'.pc = Function.update st.pc t pc)
    (hdrop : g.keysOf (g.testDegrees.drop st.progress) =
      taken ++ g.keysOf (g.testDegrees.drop st'.progress))
    (hes : es.map MiniBMKItem.key ++ pc.keys = (st.pc t).keys ++ taken) :
    BmkAccounted g (tr ++ es) st' := by
  intro k
  have hk := h k
  have hsum := sum_moved (fun pc => pc.keys.count k) hpc ht
  have hcount := congrArg (List.count k) hes
  rw [List.count_append,List.count_append] at hcount
  rw [hdrop,List.count_append] at hk
  rw [List.map_append,List.count_append]
  omega

theorem BmkAccounted.keep (h : BmkAccounted g tr st) (ht : t < g.threadNum) {pc : Pc D}
    {es : List (MiniBMKItem D)} (hpc : st'.pc = Function.update st.pc t pc)
    (hprogress : st'.progress = st.progress)
    (hes : es.map MiniBMKItem.key ++ pc.keys = (st.pc t).keys) : BmkAccounted g (tr ++ es) st' :=
  h.move ht [] hpc (by rw [hprogress,List.nil_append]) (by rw [hes,List.append_nil])

/-- A step enters what the thread holds, or moves the tasks of a degree to the thread. -/
theorem step_accounted (hroom : g.testDegrees.length + g.threadNum < 2 ^ 32) (hc : Counts g st)
    (h : BmkAccounted g tr st) (ht : t < g.threadNum) (hs : ThreadStep g t st o st') :
    BmkAccounted g (tr ++ o.toList) st' := by
  cases hs with
  | @claim degree hpc hd =>
    obtain ⟨hlt,hget⟩ := List.getElem?_eq_some_iff.mp hd
    refine h.move ht ((g.bmkTasks degree).map (fun task => task.key degree)) rfl ?_
      (by rw [hpc]; rfl)
    change _ = _ ++ g.keysOf (g.testDegrees.drop (u32 (st.progress + 1)))
    rw [hc.room hroom ht hpc,List.drop_eq_getElem_cons hlt,hget]
    rfl
  | exhausted hpc hd =>
    refine h.move ht [] rfl ?_ (by rw [hpc]; rfl)
    change _ = [] ++ g.keysOf (g.testDegrees.drop (u32 (st.progress + 1)))
    rw [hc.room hroom ht hpc,List.drop_eq_nil_of_le hd,List.drop_eq_nil_of_le (Nat.le_succ_of_le hd)]
    rfl
  | edge hpc | edges hpc | walker hpc | walkers hpc | enter hpc | next hpc | measure _ hpc
  | lock hpc | add hpc | unlock hpc | finish hpc | leave hpc =>
    exact h.keep ht rfl rfl (by rw [hpc]; rfl)

theorem step_entered (h : Entered m₀ tr st) (hs : ThreadStep g t st o st') : Entered m₀ (tr ++ o.toList) st' := by
  cases hs with
  | edge | edges | walker | walkers | enter | claim | exhausted | next | measure | lock | unlock
  | finish | leave =>
    rw [Option.toList_none,List.append_nil]
    exact ⟨h.items,h.newItemNum⟩
  | @add item todo m hpc hadd =>
    rw [MiniBMKCatManager.addItem] at hadd
    split_ifs at hadd with hhas
    obtain rfl := Option.some.inj hadd
    refine ⟨fun y => ?_,?_⟩
    · change y ∈ (st.catManager.catSet.insert item).items ↔ _
      rw [KeySet.mem_insert_of_new (Bool.eq_false_iff.mpr hhas),h.items,List.mem_append,
        Option.toList_some,List.mem_singleton]
      tauto
    · change st.catManager.newItemNum + 1 = _
      rw [h.newItemNum,Option.toList_some,List.length_append,List.length_singleton]
      rfl

/-- What holds in every state of a run. -/
structure BmkHolds (g : BmkRegion) (m₀ : MiniBMKCatManager D) (tr : List (MiniBMKItem D))
    (st : BmkState D) : Prop where
  counts : Counts g st
  locked : Locked g st
  accounted : BmkAccounted g tr st
  entered : Entered m₀ tr st

theorem step_bmkHolds (hroom : g.testDegrees.length + g.threadNum < 2 ^ 32)
    (h : BmkHolds g m₀ tr st) (ht : t < g.threadNum) (hs : ThreadStep g t st o st') :
    BmkHolds g m₀ (tr ++ o.toList) st' :=
  ⟨step_counts hroom h.counts ht hs,step_locked h.locked ht hs,
    step_accounted hroom h.counts h.accounted ht hs,step_entered h.entered hs⟩

theorem run_bmkHolds (hroom : g.testDegrees.length + g.threadNum < 2 ^ 32)
    (hr : Run (BmkStep g) (BmkState.entry m₀) tr st) : BmkHolds g m₀ tr st := by
  refine hr.invariant (BmkHolds g m₀) ?_ (fun tr st o st' h hs => ?_)
  · have hzero : ∀ f : Pc D → Nat, f (.edges 0) = 0 →
        ∑ t ∈ Finset.range g.threadNum, f ((BmkState.entry m₀).pc t) = 0 :=
      fun f hf => Finset.sum_eq_zero (fun _ _ => hf)
    refine ⟨⟨Nat.zero_le _,fun t _ h => ?_,(hzero Pc.counted rfl).symm,fun t _ h => ?_⟩,
      ⟨fun t _ => iff_of_false Bool.false_ne_true (fun h => ?_),fun t h => ?_⟩,fun k => ?_,
      ⟨fun y => (or_iff_left List.not_mem_nil).symm,rfl⟩⟩
    · cases h
    · cases h
    · cases h
    · cases h
    · rw [hzero (fun pc => pc.keys.count k) rfl]
      exact Nat.zero_add _
  · obtain ⟨t,ht,hs⟩ := hs
    exact step_bmkHolds hroom h ht hs

/-- The tasks of the region are distinct, and none is in the catalogue yet. -/
structure BmkRegion.Fresh (g : BmkRegion) (m₀ : MiniBMKCatManager D) : Prop where
  room : g.testDegrees.length + g.threadNum < 2 ^ 32
  nodup : g.keys.Nodup
  new : ∀ k ∈ g.keys, m₀.catSet.has k = false

variable (hfresh : g.Fresh m₀)
include hfresh

theorem BmkHolds.count_le_one (h : BmkHolds g m₀ tr st) (k : ℕ ×ₗ ℕ ×ₗ ℕ) :
    (tr.map MiniBMKItem.key).count k +
      ∑ t ∈ Finset.range g.threadNum, (st.pc t).keys.count k ≤ 1 := by
  have hcount := h.accounted k
  have hone := List.nodup_iff_count_le_one.mp hfresh.nodup k
  omega

theorem BmkHolds.addItem (h : BmkHolds g m₀ tr st) (ht : t < g.threadNum) {item : MiniBMKItem D}
    {todo : List BmkTask} (hpc : st.pc t = .add item todo) :
    ∃ m, st.catManager.addItem item = some m := by
  have hone := h.count_le_one hfresh item.key
  have hmine : 0 < (st.pc t).keys.count item.key := by
    rw [hpc]
    exact List.count_pos_iff.mpr List.mem_cons_self
  have hsum := Finset.single_le_sum (f := fun u => (st.pc u).keys.count item.key)
    (fun _ _ => Nat.zero_le _) (Finset.mem_range.mpr ht)
  have hkey : item.key ∈ g.keys := by
    refine List.count_pos_iff.mp ?_
    rw [← h.accounted item.key]
    omega
  have hnew : st.catManager.catSet.has item.key = false := by
    refine Bool.eq_false_iff.mpr (fun hhas => ?_)
    obtain ⟨y,hy,hk⟩ := KeySet.has_iff.mp hhas
    rcases (h.entered.items y).mp hy with hold | htr
    · have hfirst := hfresh.new _ hkey
      rw [KeySet.has_iff.mpr ⟨y,hold,hk⟩] at hfirst
      cases hfirst
    · have hdone := List.count_pos_iff.mpr (List.mem_map.mpr ⟨y,htr,hk⟩)
      omega
  exact ⟨_,by rw [MiniBMKCatManager.addItem,hnew]; rfl⟩

/-- While a thread is in the region, some thread can move on, and whatever it measures may be of a
kind. -/
theorem BmkHolds.exists_step {P : D → Prop} (time : D) (hP : P time) (h : BmkHolds g m₀ tr st)
    (htimes : TimesIn P g st) (hl : ¬st.AllLeft g) :
    ∃ o st', BmkStep g st o st' ∧ TimesIn P g st' ∧ ∀ y ∈ o, P y.stepTime := by
  -- a step after which the thread holds what it held before, or nothing
  have hquiet : ∀ {t : Nat} {pc : Pc D} {st' : BmkState D}, t < g.threadNum →
      ThreadStep g t st none st' → st'.pc = Function.update st.pc t pc →
      (∀ item ∈ pc.item?, P item.stepTime) →
      ∃ o st', BmkStep g st o st' ∧ TimesIn P g st' ∧ ∀ y ∈ o, P y.stepTime :=
    fun ht hs hpc hitem => ⟨none,_,⟨_,ht,hs⟩,
      forall_move (P := fun _ pc => ∀ item ∈ pc.item?, P item.stepTime) hpc htimes hitem,
      fun y hy => by cases hy⟩
  -- the thread that holds the lock can always give it back
  have hholder : ∀ t < g.threadNum, (st.pc t).holds = true →
      ∃ o st', BmkStep g st o st' ∧ TimesIn P g st' ∧ ∀ y ∈ o, P y.stepTime := by
    intro t ht hholds
    cases hpc : st.pc t with
    | add item todo =>
      obtain ⟨m,hm⟩ := h.addItem hfresh ht hpc
      refine ⟨_,_,⟨t,ht,.add hpc hm⟩,forall_move (P := fun _ pc =>
        ∀ item ∈ pc.item?, P item.stepTime) rfl htimes (fun y hy => by cases hy),fun y hy => ?_⟩
      obtain rfl := Option.some.inj hy
      exact htimes t ht item (by rw [hpc]; rfl)
    | unlock degree todo => exact hquiet ht (.unlock hpc) rfl (fun y hy => by cases hy)
    | edges | walkers | filled | claim | run | lock | finish | spin | left =>
      rw [hpc] at hholds
      cases hholds
  by_cases hfilling : ∃ t < g.threadNum, (st.pc t).filling = true
  · -- the loops of the first region go on, or end
    obtain ⟨t,ht,hfilling⟩ := hfilling
    cases hpc : st.pc t with
    | edges e =>
      rcases Nat.lt_or_ge e threadEdgeNum with hlt | hge
      · exact hquiet ht (.edge hpc hlt) rfl (fun y hy => by cases hy)
      · exact hquiet ht (.edges hpc hge) rfl (fun y hy => by cases hy)
    | walkers w =>
      rcases Nat.lt_or_ge w g.maxThreadWalkerNum with hlt | hge
      · exact hquiet ht (.walker hpc hlt) rfl (fun y hy => by cases hy)
      · exact hquiet ht (.walkers hpc hge) rfl (fun y hy => by cases hy)
    | filled | claim | run | lock | add | unlock | finish | spin | left =>
      rw [hpc] at hfilling
      cases hfilling
  have hfilled : ∀ t < g.threadNum, (st.pc t).filling = false := fun t ht =>
    Bool.eq_false_iff.mpr (fun h => hfilling ⟨t,ht,h⟩)
  by_cases hmoving : ∃ t < g.threadNum, (st.pc t).counted = 0
  · obtain ⟨t,ht,hcounted⟩ := hmoving
    cases hpc : st.pc t with
    | edges | walkers =>
      have hnot := hfilled t ht
      rw [hpc] at hnot
      cases hnot
    | filled => exact hquiet ht (.enter hpc hfilled) rfl (fun y hy => by cases hy)
    | claim =>
      rcases Nat.lt_or_ge st.progress g.testDegrees.length with hlt | hge
      · exact hquiet ht (.claim hpc (List.getElem?_eq_getElem hlt)) rfl (fun y hy => by cases hy)
      · exact hquiet ht (.exhausted hpc hge) rfl (fun y hy => by cases hy)
    | run degree todo =>
      cases todo with
      | nil => exact hquiet ht (.next hpc) rfl (fun y hy => by cases hy)
      | cons task todo =>
        refine hquiet ht (.measure time hpc) rfl (fun y hy => ?_)
        obtain rfl := Option.some.inj hy
        exact hP
    | lock item todo =>
      cases hlock : st.catManagerLock with
      | none =>
        refine hquiet ht (.lock hpc hlock) rfl (fun y hy => ?_)
        exact htimes t ht y (by rw [hpc]; exact hy)
      | some u =>
        have hu := h.locked.held u hlock
        exact hholder u hu ((h.locked.holder u hu).mpr hlock)
    | add item todo => exact hholder t ht (by rw [hpc]; rfl)
    | unlock degree todo => exact hholder t ht (by rw [hpc]; rfl)
    | finish => exact hquiet ht (.finish hpc) rfl (fun y hy => by cases hy)
    | spin | left =>
      rw [hpc] at hcounted
      cases hcounted
  · -- all threads have been counted, so that each of them may leave
    have hcounted : ∀ t < g.threadNum, (st.pc t).counted = 1 := fun t ht =>
      Nat.le_antisymm (Nat.le_trans (st.pc t).counted_le_past (st.pc t).past_le_one)
        (Nat.pos_of_ne_zero (fun h0 => hmoving ⟨t,ht,h0⟩))
    have hall : st.finishedThreadNum = g.threadNum := by
      rw [h.counts.finished,
        Finset.sum_congr rfl (fun t ht => hcounted t (Finset.mem_range.mp ht)),Finset.sum_const,
        Finset.card_range,smul_eq_mul,Nat.mul_one]
    obtain ⟨t,ht,hne⟩ : ∃ t < g.threadNum, st.pc t ≠ .left := by
      simpa only [BmkState.AllLeft,not_forall,exists_prop] using hl
    have hone := hcounted t ht
    cases hpc : st.pc t with
    | spin => exact hquiet ht (.leave hpc hall) rfl (fun y hy => by cases hy)
    | left => exact absurd hpc hne
    | edges | walkers | filled | claim | run | lock | add | unlock | finish =>
      rw [hpc] at hone
      cases hone

end

section
variable {D : Type} {g : BmkRegion} {m₀ : MiniBMKCatManager D} {tr : List (MiniBMKItem D)}
  {st st' : BmkState D} {t : Nat} {o : Option (MiniBMKItem D)}

/-- The steps that are left, but for those of threads that only wait. -/
def bmkWork (g : BmkRegion) (st : BmkState D) : Nat :=
  ∑ t ∈ Finset.range g.threadNum, (st.pc t).work g +
    ((g.testDegrees.drop st.progress).map (fun d => 4 * (g.bmkTasks d).length + 2)).sum

theorem step_work (hroom : g.testDegrees.length + g.threadNum < 2 ^ 32)
    (hfill : g.maxThreadWalkerNum < 2 ^ 32) (hc : Counts g st) (ht : t < g.threadNum)
    (hs : ThreadStep g t st o st') : bmkWork g st' < bmkWork g st := by
  have hmove : ∀ {pc : Pc D}, st'.pc = Function.update st.pc t pc → st'.progress = st.progress →
      pc.work g < (st.pc t).work g → bmkWork g st' < bmkWork g st := by
    intro pc hpc hprogress hlt
    have hsum := sum_moved (Pc.work g) hpc ht
    rw [bmkWork,bmkWork,hprogress]
    omega
  cases hs with
  | @claim degree hpc hd =>
    obtain ⟨hlt,hget⟩ := List.getElem?_eq_some_iff.mp hd
    have hsum := st.sum_move (Pc.work g) (.run degree (g.bmkTasks degree)) ht
    have hold : (st.pc t).work g = 3 := by rw [hpc]; rfl
    have hnew : (Pc.run degree (g.bmkTasks degree) : Pc D).work g =
        4 * (g.bmkTasks degree).length + 4 := rfl
    rw [bmkWork,bmkWork,List.drop_eq_getElem_cons hlt,hget,List.map_cons,List.sum_cons]
    change ∑ u ∈ Finset.range g.threadNum,
      ((st.move t (.run degree (g.bmkTasks degree))).pc u).work g +
      ((g.testDegrees.drop (u32 (st.progress + 1))).map _).sum < _
    rw [hc.room hroom ht hpc]
    omega
  | exhausted hpc hd =>
    have hsum := st.sum_move (Pc.work g) .finish ht
    have hold : (st.pc t).work g = 3 := by rw [hpc]; rfl
    have hnew : (Pc.finish : Pc D).work g = 2 := rfl
    rw [bmkWork,bmkWork,List.drop_eq_nil_of_le hd]
    change ∑ u ∈ Finset.range g.threadNum, ((st.move t .finish).pc u).work g +
      ((g.testDegrees.drop (u32 (st.progress + 1))).map _).sum < _
    rw [hc.room hroom ht hpc,List.drop_eq_nil_of_le (Nat.le_succ_of_le hd)]
    omega
  | walker hpc hlt =>
    refine hmove rfl rfl ?_
    rw [hpc,u32_of_lt (Nat.lt_of_le_of_lt hlt hfill)]
    simp only [Pc.work]
    omega
  | edge hpc | edges hpc | walkers hpc | enter hpc | next hpc | measure time hpc | lock hpc
  | add hpc | unlock hpc | finish hpc | leave hpc =>
    refine hmove rfl rfl ?_
    rw [hpc]
    simp only [Pc.work,List.length_cons,List.length_nil]
    omega

def HoldsWith (P : D → Prop) (g : BmkRegion) (m₀ : MiniBMKCatManager D) (st : BmkState D) : Prop :=
  (∃ tr, BmkHolds g m₀ tr st) ∧ TimesIn P g st

/-- The regions can be run on to their end with times of any kind. -/
theorem BmkHolds.exists_end {P : D → Prop} (time : D) (hP : P time) (hfresh : g.Fresh m₀)
    (hfill : g.maxThreadWalkerNum < 2 ^ 32) (h : BmkHolds g m₀ tr st) (htimes : TimesIn P g st) :
    ∃ tr' st', Run (BmkStep g) st tr' st' ∧ st'.AllLeft g ∧ ∀ y ∈ tr', P y.stepTime := by
  have hmono : ∀ {tr st'}, Run (fun st o st' => BmkStep g st o st' ∧ TimesIn P g st' ∧
      ∀ y ∈ o, P y.stepTime) st tr st' →
      Run (BmkStep g) st tr st' ∧ ∀ y ∈ tr, P y.stepTime := by
    intro tr st hr
    induction hr with
    | start => exact ⟨.start,fun y hy => absurd hy List.not_mem_nil⟩
    | next _ hs ih =>
      refine ⟨ih.1.next hs.1,fun y hy => ?_⟩
      rcases List.mem_append.mp hy with hy | hy
      · exact ih.2 y hy
      · exact hs.2.2 y (Option.mem_toList.mp hy)
  obtain ⟨tr,st',hr,hl⟩ := exists_finished (HoldsWith P g m₀) (BmkState.AllLeft g) (bmkWork g)
    (fun st o st' ⟨⟨tr,h⟩,_⟩ ⟨⟨t,ht,hs⟩,htimes,_⟩ =>
      ⟨⟨⟨_,step_bmkHolds hfresh.room h ht hs⟩,htimes⟩,
        step_work hfresh.room hfill h.counts ht hs⟩)
    (fun st ⟨⟨tr,h⟩,htimes⟩ hl => h.exists_step hfresh time hP htimes hl)
    st ⟨⟨tr,h⟩,htimes⟩
  exact ⟨tr,st',(hmono hr).1,hl,(hmono hr).2⟩

theorem entry_timesIn (P : D → Prop) (g : BmkRegion) (m₀ : MiniBMKCatManager D) :
    TimesIn P g (BmkState.entry m₀) := fun _ _ _ hi => nomatch hi

theorem exists_bmk_run {P : D → Prop} (time : D) (hP : P time) (hfresh : g.Fresh m₀)
    (hfill : g.maxThreadWalkerNum < 2 ^ 32) :
    ∃ tr st, Run (BmkStep g) (BmkState.entry m₀) tr st ∧ st.AllLeft g ∧ ∀ y ∈ tr, P y.stepTime :=
  (run_bmkHolds hfresh.room .start).exists_end time hP hfresh hfill (entry_timesIn P g m₀)

/-- Every thread is in a loop of the first region, and counts in 32 bits in the second of them. -/
def Endless (g : BmkRegion) (st : BmkState D) : Prop :=
  ∀ t < g.threadNum, (∃ e, st.pc t = .edges e) ∨ ∃ w < 2 ^ 32, st.pc t = .walkers w

/-- A loop over more walkers than 32 bits can count never ends. -/
theorem run_endless (hlarge : 2 ^ 32 ≤ g.maxThreadWalkerNum)
    (hr : Run (BmkStep g) (BmkState.entry m₀) tr st) : tr = [] ∧ Endless g st := by
  refine hr.invariant (fun tr st => tr = [] ∧ Endless g st)
    ⟨rfl,fun t _ => .inl ⟨0,rfl⟩⟩ ?_
  rintro tr st o st' ⟨rfl,h⟩ ⟨t,ht,hs⟩
  have hmove : ∀ {pc : Pc D}, (∃ e, pc = .edges e) ∨ (∃ w < 2 ^ 32, pc = .walkers w) →
      Endless g (st.move t pc) := fun hpc =>
    forall_move (P := fun _ pc => (∃ e, pc = .edges e) ∨ ∃ w < 2 ^ 32, pc = .walkers w) rfl h hpc
  have hpc := h t ht
  cases hs with
  | edge => exact ⟨rfl,hmove (.inl ⟨_,rfl⟩)⟩
  | edges => exact ⟨rfl,hmove (.inr ⟨0,by decide,rfl⟩)⟩
  | walker => exact ⟨rfl,hmove (.inr ⟨_,u32_lt _,rfl⟩)⟩
  | walkers hw hge =>
    obtain ⟨e,he⟩ | ⟨w,hlt,he⟩ := hpc
    · cases hw.symm.trans he
    · cases hw.symm.trans he
      omega
  | enter hq | claim hq | exhausted hq | next hq | measure _ hq | lock hq | add hq | unlock hq
  | finish hq | leave hq =>
    obtain ⟨e,he⟩ | ⟨w,_,he⟩ := hpc <;> cases hq.symm.trans he

theorem Endless.not_allLeft (h : Endless g st) (hthreads : 0 < g.threadNum) : ¬st.AllLeft g := by
  intro hl
  obtain ⟨e,he⟩ | ⟨w,_,he⟩ := h 0 hthreads <;> cases (hl 0 hthreads).symm.trans he

/-- No run goes on for ever if and only if 32 bits count the walkers. -/
theorem bmk_acc_iff (time : D) (hfresh : g.Fresh m₀) (hthreads : 0 < g.threadNum) :
    Acc (fun s' s => ∃ o, BmkStep g s o s') (BmkState.entry m₀) ↔
      g.maxThreadWalkerNum < 2 ^ 32 := by
  constructor
  · intro hacc
    by_contra hlarge
    refine not_acc (fun st => ∃ tr, Run (BmkStep g) (BmkState.entry m₀) tr st) ?_
      ⟨[],.start⟩ hacc
    rintro st ⟨tr,hr⟩
    have hl := (run_endless (Nat.le_of_not_lt hlarge) hr).2.not_allLeft hthreads
    obtain ⟨o,st',hs,_⟩ := (run_bmkHolds hfresh.room hr).exists_step hfresh (P := fun _ => True)
      time trivial (fun _ _ _ _ => trivial) hl
    exact ⟨o,st',hs,_,hr.next hs⟩
  · intro hfill
    exact acc_of_measure (Counts g) (bmkWork g) (fun _ _ _ hc ⟨_,ht,hs⟩ =>
      ⟨step_counts hfresh.room hc ht hs,step_work hfresh.room hfill hc ht hs⟩)
      (run_bmkHolds hfresh.room .start).counts

theorem BmkHolds.entered_perm (h : BmkHolds g m₀ tr st) (hthreads : 0 < g.threadNum)
    (hl : st.AllLeft g) : (tr.map MiniBMKItem.key).Perm g.keys := by
  refine List.perm_iff_count.mpr (fun k => ?_)
  have hdrained := h.counts.drained 0 hthreads (by rw [hl 0 hthreads]; rfl)
  have hnone : ∑ t ∈ Finset.range g.threadNum, (st.pc t).keys.count k = 0 :=
    Finset.sum_eq_zero (fun t ht => by rw [hl t (Finset.mem_range.mp ht)]; rfl)
  rw [← h.accounted k,hnone,List.drop_eq_nil_of_le hdrained]
  rfl

end

end FlashMob.Benchmark
