import FlashMob.Benchmark.Results

namespace FlashMob.Benchmark
open Floating Lib.Keyed Lib.Runs

/-- The arguments are values of their types, and some thread runs the region. -/
structure BmkArgs.Valid {D : Type} (args : BmkArgs D) : Prop where
  room : args.maxDegree + args.threadNum + 1 < 2 ^ 32
  threads : 0 < args.threadNum
  bits : args.maxPartitionVertexBit < 31

section
variable {D : Type} [Floating D] {args : BmkArgs D} {m m' : MiniBMKCatManager D}
  {tr : List (MiniBMKItem D)}

omit [Floating D] in
theorem exists_task_key (y : MiniBMKItem D) :
    y.key = (⟨y.partitionBits,y.samplerClass⟩ : BmkTask).key y.degree := rfl

theorem Benchmarked.mem_keys (h : Benchmarked args m tr m') (hv : args.Valid) {y : MiniBMKItem D}
    (hy : y ∈ tr) : args.Wanted y.partitionBits y.degree y.samplerClass ∧
      m.catSet.has y.key = false := by
  have hmem := (h.entered hv.room hv.threads).1.mem_iff.mp (List.mem_map_of_mem hy)
  rw [exists_task_key] at hmem ⊢
  exact mem_region_keys.mp hmem

theorem Benchmarked.has (h : Benchmarked args m tr m') (hv : args.Valid) (task : BmkTask)
    (degree : Nat) (hw : args.Wanted task.ptnBits degree task.sclass) :
    m'.catSet.has (task.key degree) = true := by
  obtain ⟨hkeys,hitems,_⟩ := h.entered hv.room hv.threads
  rw [KeySet.has_iff]
  cases hhas : m.catSet.has (task.key degree) with
  | true =>
    obtain ⟨y,hy,hk⟩ := KeySet.has_iff.mp hhas
    exact ⟨y,(hitems y).mpr (.inl hy),hk⟩
  | false =>
    obtain ⟨y,hy,hk⟩ := List.mem_map.mp (hkeys.mem_iff.mpr (mem_region_keys.mpr ⟨hw,hhas⟩))
    exact ⟨y,(hitems y).mpr (.inr hy),hk⟩

theorem Benchmarked.eq_nil (h : Benchmarked args m tr m') (hv : args.Valid)
    (hall : ∀ (task : BmkTask) (degree : Nat), args.Wanted task.ptnBits degree task.sclass →
      m.catSet.has (task.key degree) = true) : tr = [] ∧ m'.newItemNum = m.newItemNum := by
  obtain ⟨_,_,hnum⟩ := h.entered hv.room hv.threads
  have hnil : tr = [] := by
    refine List.eq_nil_iff_forall_not_mem.mpr (fun y hy => ?_)
    obtain ⟨hw,hnew⟩ := h.mem_keys hv hy
    have hhas := hall ⟨y.partitionBits,y.samplerClass⟩ y.degree hw
    rw [← exists_task_key,hnew] at hhas
    cases hhas
  refine ⟨hnil,?_⟩
  rw [hnum,hnil]
  rfl

end

/-- In every state of the regions, whatever the order of the threads' steps: the check of `add_item`
does not fail, one thread at most is between `lock` and `unlock`, and some thread can move on. At
the end each task that was wanted and not in the catalogue has been measured once. The end is
reached if and only if 32 bits count the walkers that a thread fills in, unless nothing is wanted. -/
theorem benchmark_exactly_once {D : Type} [Floating D] {args : BmkArgs D} (m : MiniBMKCatManager D)
    (hv : args.Valid) :
    (∀ tr st, Run (BmkStep (args.region m)) (BmkState.entry m) tr st →
      (∀ t < args.threadNum, ∀ item todo, st.pc t = .add item todo →
        ∃ m', st.catManager.addItem item = some m') ∧
      (∀ t < args.threadNum, ∀ u < args.threadNum, (st.pc t).holds = true →
        (st.pc u).holds = true → t = u) ∧
      (¬st.AllLeft (args.region m) → ∃ o st', BmkStep (args.region m) st o st') ∧
      (st.AllLeft (args.region m) → (tr.map MiniBMKItem.key).Nodup ∧
        (∀ (task : BmkTask) (degree : Nat), task.key degree ∈ tr.map MiniBMKItem.key ↔
          args.Wanted task.ptnBits degree task.sclass ∧ m.catSet.has (task.key degree) = false) ∧
        ∀ y, y ∈ st.catManager.catSet.items ↔ y ∈ m.catSet.items ∨ y ∈ tr)) ∧
    (Acc (fun s' s => ∃ o, BmkStep (args.region m) s o s') (BmkState.entry m) ↔
      args.maxThreadWalkerNum < 2 ^ 32) ∧
    ((∃ tr m', Benchmarked args m tr m') ↔
      (∀ d ∈ args.testDegrees, args.bmkTasks m d = []) ∨ args.maxThreadWalkerNum < 2 ^ 32) := by
  have hfresh : (args.region m).Fresh m := region_fresh hv.room
  refine ⟨fun tr st hr => ?_,bmk_acc_iff (ofNat 0) hfresh hv.threads,
    exists_benchmarked_iff args m hv.room hv.threads⟩
  have h := run_bmkHolds hfresh.room hr
  have hquiet : ∀ st : BmkState D, TimesIn (fun _ => True) (args.region m) st :=
    fun _ _ _ _ _ => trivial
  refine ⟨fun t ht item todo hpc => h.addItem hfresh ht hpc,fun t ht u hu hholds hholds' => ?_,
    fun hl => ?_,fun hl => ?_⟩
  · have hlock := (h.locked.holder t ht).mp hholds
    rw [(h.locked.holder u hu).mp hholds'] at hlock
    exact (Option.some.inj hlock).symm
  · obtain ⟨o,st',hs,_⟩ := h.exists_step hfresh (P := fun _ => True) (ofNat 0) trivial
      (hquiet st) hl
    exact ⟨o,st',hs⟩
  · have hperm := h.entered_perm hv.threads hl
    exact ⟨hperm.nodup_iff.mpr hfresh.nodup,fun task degree =>
      hperm.mem_iff.trans mem_region_keys,h.entered.items⟩

/-- The threads can enter the second region before one of them takes a degree. -/
theorem exists_claims {D : Type} {g : BmkRegion} {m : MiniBMKCatManager D} (hfresh : g.Fresh m)
    (hfill : g.maxThreadWalkerNum < 2 ^ 32) : ∃ tr st, Run (BmkStep g) (BmkState.entry m) tr st ∧
      st.progress = 0 ∧ ∀ t < g.threadNum, st.pc t = .claim := by
  let Entering : BmkState D → Prop := fun st => (∃ tr, Run (BmkStep g) (BmkState.entry m) tr st) ∧
    st.progress = 0 ∧
    ∀ t < g.threadNum, (st.pc t).filling = true ∨ st.pc t = .filled ∨ st.pc t = .claim
  have hkeep : ∀ {st : BmkState D} {t : Nat} {pc : Pc D}, Entering st → t < g.threadNum →
      ThreadStep g t st none (st.move t pc) → pc.filling = true ∨ pc = .filled ∨ pc = .claim →
      BmkStep g st none (st.move t pc) ∧ Entering (st.move t pc) :=
    fun ⟨⟨tr,hr⟩,hprogress,hpcs⟩ ht hs hpc => ⟨⟨_,ht,hs⟩,⟨_,hr.next ⟨_,ht,hs⟩⟩,hprogress,
      forall_move (P := fun _ pc => pc.filling = true ∨ pc = .filled ∨ pc = .claim) rfl hpcs hpc⟩
  have hprogress : ∀ st, Entering st → ¬(Entering st ∧ ∀ t < g.threadNum, st.pc t = .claim) →
      ∃ o st', BmkStep g st o st' ∧ Entering st' := by
    intro st h hnot
    by_cases hfilling : ∃ t < g.threadNum, (st.pc t).filling = true
    · obtain ⟨t,ht,hfilling⟩ := hfilling
      cases hpc : st.pc t with
      | edges e =>
        rcases Nat.lt_or_ge e threadEdgeNum with hlt | hge
        · exact ⟨_,_,hkeep h ht (.edge hpc hlt) (.inl rfl)⟩
        · exact ⟨_,_,hkeep h ht (.edges hpc hge) (.inl rfl)⟩
      | walkers w =>
        rcases Nat.lt_or_ge w g.maxThreadWalkerNum with hlt | hge
        · exact ⟨_,_,hkeep h ht (.walker hpc hlt) (.inl rfl)⟩
        · exact ⟨_,_,hkeep h ht (.walkers hpc hge) (.inr (.inl rfl))⟩
      | filled | claim | run | lock | add | unlock | finish | spin | left =>
        rw [hpc] at hfilling
        cases hfilling
    · obtain ⟨t,ht,hne⟩ : ∃ t < g.threadNum, st.pc t ≠ .claim := by
        by_contra hall
        exact hnot ⟨h,fun t ht => not_not.mp (fun hne => hall ⟨t,ht,hne⟩)⟩
      have hfilled := ((h.2.2 t ht).resolve_left (fun hf => hfilling ⟨t,ht,hf⟩)).resolve_right hne
      exact ⟨_,_,hkeep h ht (.enter hfilled (fun u hu =>
        Bool.eq_false_iff.mpr (fun hf => hfilling ⟨u,hu,hf⟩))) (.inr (.inr rfl))⟩
  obtain ⟨_,st,_,⟨⟨tr,hr⟩,hzero,_⟩,hclaim⟩ := exists_reached Entering
    (fun st => Entering st ∧ ∀ t < g.threadNum, st.pc t = .claim) (bmkWork g)
    (fun st o st' ⟨⟨tr,hr⟩,_⟩ _ ⟨⟨t,ht,hs⟩,hnext⟩ => ⟨hnext,step_work hfresh.room hfill
      (run_bmkHolds hfresh.room hr).counts ht hs⟩) hprogress
    (⟨⟨[],.start⟩,rfl,fun t _ => .inl rfl⟩ : Entering (BmkState.entry m))
  exact ⟨tr,st,hr,hzero,hclaim⟩

/-- Two threads, five degrees and partitions of one vertex and of two: while one thread runs the
tasks of the first degree the other one runs those of the second. -/
theorem benchmark_exactly_once_two_threads :
    let args : BmkArgs ℚ := ⟨1,5,0,1,2⟩
    let m : MiniBMKCatManager ℚ := ⟨KeySet.empty,0⟩
    ∃ (tr tr' : List (MiniBMKItem ℚ)) (st st' : BmkState ℚ) (first second : List BmkTask),
      Run (BmkStep (args.region m)) (BmkState.entry m) tr st ∧
      st.pc 0 = .run 1 first ∧ st.pc 1 = .run 2 second ∧ first.length = 2 ∧ second.length = 2 ∧
      Run (BmkStep (args.region m)) st tr' st' ∧ st'.AllLeft (args.region m) ∧
      ((tr ++ tr').map MiniBMKItem.key).Nodup ∧ (tr ++ tr').length = 12 := by
  intro args m
  have hv : args.Valid := ⟨by decide,by decide,by decide⟩
  have hfresh : (args.region m).Fresh m := region_fresh hv.room
  have hdegrees : (args.region m).testDegrees = [1,2,3,4,5] := by decide +kernel
  have hfill : (args.region m).maxThreadWalkerNum < 2 ^ 32 := by decide +kernel
  obtain ⟨tr,st,hr,hprogress,hclaim⟩ := exists_claims hfresh hfill
  have hone : u32 (st.progress + 1) = 1 := by rw [hprogress]; rfl
  -- both threads take a degree, one after the other
  have hdegree : (args.region m).testDegrees[st.progress]? = some 1 := by
    rw [hprogress,hdegrees]
    rfl
  have hfirst := hr.next ⟨0,by decide,.claim (hclaim 0 (by decide)) hdegree⟩
  have hdegree' : (args.region m).testDegrees[u32 (st.progress + 1)]? = some 2 := by
    rw [hone,hdegrees]
    rfl
  have hsecond := hfirst.next ⟨1,by decide,.claim (hclaim 1 (by decide)) hdegree'⟩
  obtain ⟨tr',st',hr',hl,_⟩ := (run_bmkHolds hfresh.room hsecond).exists_end
    (P := fun _ => True) 0 trivial hfresh hfill (fun _ _ _ _ => trivial)
  have hall := hsecond.trans hr'
  refine ⟨_,tr',_,st',_,_,hsecond,rfl,rfl,by decide +kernel,by decide +kernel,hr',hl,
    (((benchmark_exactly_once m hv).1 _ st' hall).2.2.2 hl).1,?_⟩
  have hperm := (run_bmkHolds hfresh.room hall).entered_perm hv.threads hl
  have hlength := hperm.length_eq
  rw [List.length_map] at hlength
  exact hlength.trans (by decide +kernel)

section
variable {D : Type} [Floating D] [DoubleText D]

theorem DoubleText.stored_stored {x : D} (hx : le (ofNat 0) x = true) :
    stored (stored x) = stored x := by
  have h := scan_print (stored x) [] (stored_nonneg x hx)
  rw [print_stored x hx,scan_print x [] hx] at h
  exact (congrArg Prod.fst (Option.some.inj h)).symm

theorem MiniBMKItem.stored_stored {x : MiniBMKItem D} (hx : le (ofNat 0) x.stepTime = true) :
    x.stored.stored = x.stored := by
  rw [stored,stored,DoubleText.stored_stored hx]

/-- The starts of the program that used one file, and the file after them: with which arguments
`mini_benchmark` was called and what was measured. -/
inductive Starts : List (BmkArgs D × List (MiniBMKItem D)) → Option (List Char) → Prop
  | first : Starts [] none
  | next {l : List (BmkArgs D × List (MiniBMKItem D))} {file : Option (List Char)}
      {args : BmkArgs D} {m m' : MiniBMKCatManager D} {tr : List (MiniBMKItem D)}
      (h : Starts l file) (hload : MiniBMKCatManager.load file = some m) (hv : args.Valid)
      (hb : Benchmarked args m tr m') (htimes : ∀ y ∈ tr, le (ofNat 0) y.stepTime = true) :
      Starts (l ++ [(args,tr)]) (m'.saveCatalogue file)

def measured (l : List (BmkArgs D × List (MiniBMKItem D))) : List (MiniBMKItem D) :=
  l.flatMap Prod.snd

/-- The file keeps what the starts measured. -/
structure Kept (l : List (BmkArgs D × List (MiniBMKItem D))) (m : MiniBMKCatManager D) : Prop where
  items : ∀ y, y ∈ m.catSet.items ↔ ∃ x ∈ measured l, x.stored = y
  newItemNum : m.newItemNum = 0
  storable : ∀ y ∈ measured l, y.Storable
  sound : ∀ y ∈ measured l, y.Sound
  nodup : ((measured l).map MiniBMKItem.key).Nodup
  wanted : ∀ call ∈ l, ∀ (task : BmkTask) (degree : Nat),
    call.1.Wanted task.ptnBits degree task.sclass → m.catSet.has (task.key degree) = true

theorem Kept.item {l : List (BmkArgs D × List (MiniBMKItem D))} {m : MiniBMKCatManager D}
    (h : Kept l m) {y : MiniBMKItem D} (hy : y ∈ m.catSet.items) : y.Storable ∧ y.Sound := by
  obtain ⟨x,hx,rfl⟩ := (h.items y).mp hy
  have hstorable := h.storable x hx
  have htime := DoubleText.stored_nonneg x.stepTime hstorable.time
  exact ⟨⟨hstorable.bits,hstorable.degree,htime⟩,⟨(h.sound x hx).degree,htime⟩⟩

theorem Kept.has_iff {l : List (BmkArgs D × List (MiniBMKItem D))} {m : MiniBMKCatManager D}
    (h : Kept l m) {k : ℕ ×ₗ ℕ ×ₗ ℕ} :
    m.catSet.has k = true ↔ k ∈ (measured l).map MiniBMKItem.key := by
  rw [KeySet.has_iff,List.mem_map]
  constructor
  · rintro ⟨y,hy,rfl⟩
    obtain ⟨x,hx,rfl⟩ := (h.items y).mp hy
    exact ⟨x,hx,rfl⟩
  · rintro ⟨x,hx,rfl⟩
    exact ⟨x.stored,(h.items _).mpr ⟨x,hx,rfl⟩,rfl⟩

theorem Kept.next {l : List (BmkArgs D × List (MiniBMKItem D))} {file : Option (List Char)}
    {args : BmkArgs D} {m m' : MiniBMKCatManager D} {tr : List (MiniBMKItem D)} (h : Kept l m)
    (hload : MiniBMKCatManager.load file = some m) (hv : args.Valid) (hb : Benchmarked args m tr m')
    (htimes : ∀ y ∈ tr, le (ofNat 0) y.stepTime = true) :
    ∃ m'', MiniBMKCatManager.load (m'.saveCatalogue file) = some m'' ∧
      Kept (l ++ [(args,tr)]) m'' := by
  obtain ⟨hkeys,hitems,hnum⟩ := hb.entered hv.room hv.threads
  have hmeasured : measured (l ++ [(args,tr)]) = measured l ++ tr := by
    rw [measured,List.flatMap_append,List.flatMap_singleton]
    rfl
  have hwanted := fun y (hy : y ∈ tr) => hb.mem_keys hv hy
  have hbounds := fun y (hy : y ∈ tr) =>
    BmkArgs.testDegrees_bounds (by have := hv.room; omega) (hwanted y hy).1.1
  have hstorable : ∀ y ∈ measured l ++ tr, y.Storable := by
    intro y hy
    rcases List.mem_append.mp hy with hy | hy
    · exact h.storable y hy
    · have hbits := (hwanted y hy).1.2.1.2
      have hle : args.internalMaxPtBit ≤ args.maxPartitionVertexBit := Nat.min_le_left _ _
      have hbelow := hv.bits
      have hroom := hv.room
      have hdegree := hbounds y hy
      exact ⟨by omega,by omega,htimes y hy⟩
  have hsound : ∀ y ∈ measured l ++ tr, y.Sound := by
    intro y hy
    rcases List.mem_append.mp hy with hy | hy
    · exact h.sound y hy
    · exact ⟨(hbounds y hy).1,htimes y hy⟩
  have hnodup : ((measured l ++ tr).map MiniBMKItem.key).Nodup := by
    rw [List.map_append]
    refine List.Nodup.append h.nodup
      (hkeys.nodup_iff.mpr (region_fresh (m := m) hv.room).nodup) (fun k hold hnew => ?_)
    obtain ⟨y,hy,rfl⟩ := List.mem_map.mp hnew
    have hnew := (hwanted y hy).2
    rw [h.has_iff.mpr hold] at hnew
    cases hnew
  have hdone : ∀ call ∈ l ++ [(args,tr)], ∀ (task : BmkTask) (degree : Nat),
      call.1.Wanted task.ptnBits degree task.sclass → m'.catSet.has (task.key degree) = true := by
    intro call hcall task degree hw
    rcases List.mem_append.mp hcall with hcall | hcall
    · obtain ⟨y,hy,hk⟩ := KeySet.has_iff.mp (h.wanted call hcall task degree hw)
      exact KeySet.has_iff.mpr ⟨y,(hitems y).mpr (.inl hy),hk⟩
    · rw [List.mem_singleton.mp hcall] at hw
      exact hb.has hv task degree hw
  by_cases hnew : m'.newItemNum = 0
  · have hnil : tr = [] := List.length_eq_zero_iff.mp (by rw [hnum,h.newItemNum] at hnew; omega)
    have hsame : m'.catSet = m.catSet := KeySet.ext_mem (fun y => by
      rw [hitems,hnil]
      exact or_iff_left List.not_mem_nil)
    refine ⟨m,?_,⟨?_,h.newItemNum,hmeasured ▸ hstorable,hmeasured ▸ hsound,hmeasured ▸ hnodup,?_⟩⟩
    · rw [MiniBMKCatManager.saveCatalogue,if_neg (not_not.mpr hnew),hload]
    · rw [hmeasured,hnil,List.append_nil]
      exact h.items
    · rw [← hsame]
      exact hdone
  · have hprinted : ∀ y ∈ m'.catSet.items, y.Storable := fun y hy =>
      ((hitems y).mp hy).elim (fun hy => (h.item hy).1)
        (fun hy => hstorable y (List.mem_append_right _ hy))
    obtain ⟨m'',hload'',hitems'',hnum''⟩ := MiniBMKCatManager.load_items hprinted
    refine ⟨m'',?_,⟨fun y => ?_,hnum'',hmeasured ▸ hstorable,hmeasured ▸ hsound,hmeasured ▸ hnodup,
      fun call hcall task degree hw => ?_⟩⟩
    · rw [MiniBMKCatManager.saveCatalogue,if_pos hnew,hload'']
    · rw [hitems'',List.mem_map,hmeasured]
      constructor
      · rintro ⟨x,hx,rfl⟩
        rcases (hitems x).mp hx with hx | hx
        · obtain ⟨z,hz,rfl⟩ := (h.items x).mp hx
          exact ⟨z,List.mem_append_left _ hz,
            (MiniBMKItem.stored_stored (h.storable z hz).time).symm⟩
        · exact ⟨x,List.mem_append_right _ hx,rfl⟩
      · rintro ⟨x,hx,rfl⟩
        rcases List.mem_append.mp hx with hx | hx
        · exact ⟨x.stored,(hitems _).mpr (.inl ((h.items _).mpr ⟨x,hx,rfl⟩)),
            MiniBMKItem.stored_stored (h.storable x hx).time⟩
        · exact ⟨x,(hitems _).mpr (.inr hx),rfl⟩
    · obtain ⟨y,hy,hk⟩ := KeySet.has_iff.mp (hdone call hcall task degree hw)
      refine KeySet.has_iff.mpr ⟨y.stored,?_,hk⟩
      rw [hitems'']
      exact List.mem_map_of_mem hy

theorem Starts.kept {l : List (BmkArgs D × List (MiniBMKItem D))} {file : Option (List Char)}
    (h : Starts l file) : ∃ m, MiniBMKCatManager.load file = some m ∧ Kept l m := by
  induction h with
  | first =>
    refine ⟨⟨KeySet.empty,0⟩,rfl,⟨fun y => ?_,rfl,fun y hy => ?_,fun y hy => ?_,List.nodup_nil,
      fun call hc => ?_⟩⟩
    · exact iff_of_false List.not_mem_nil (fun ⟨x,hx,_⟩ => absurd hx List.not_mem_nil)
    · cases hy
    · cases hy
    · cases hc
  | next _ hload hv hb htimes ih =>
    obtain ⟨m,hm,hkept⟩ := ih
    obtain rfl := Option.some.inj (hm.symm.trans hload)
    exact hkept.next hload hv hb htimes

/-- Over all starts of the program nothing is measured twice, each start finds all that was measured
before it, and a start with arguments of an earlier one measures nothing and leaves the file. -/
theorem starts_never_repeat {D : Type} [Floating D] [DoubleText D]
    {l : List (BmkArgs D × List (MiniBMKItem D))} {file : Option (List Char)}
    (h : Starts l file) :
    ((measured l).map MiniBMKItem.key).Nodup ∧
    ∃ m, MiniBMKCatManager.load file = some m ∧
      (∀ y, y ∈ m.catSet.items ↔ ∃ x ∈ measured l, x.stored = y) ∧
      m.catSet.items.Pairwise (fun a b => a.less b = true) ∧
      ∀ call ∈ l, call.1.Valid → ∀ tr m', Benchmarked call.1 m tr m' →
        tr = [] ∧ m'.saveCatalogue file = file := by
  obtain ⟨m,hload,hkept⟩ := h.kept
  have hless := m.catSet.sorted.imp (fun h => MiniBMKItem.less_iff.mpr h)
  refine ⟨hkept.nodup,m,hload,hkept.items,hless,fun call hcall hv tr m' hb => ?_⟩
  obtain ⟨hnil,hnum⟩ := hb.eq_nil hv (hkept.wanted call hcall)
  refine ⟨hnil,?_⟩
  rw [MiniBMKCatManager.saveCatalogue,hnum,hkept.newItemNum]
  exact if_neg (not_not.mpr rfl)

end

theorem starts_never_repeat_twice : ∃ (l : List (BmkArgs ℚ × List (MiniBMKItem ℚ)))
    (file : Option (List Char)) (m : MiniBMKCatManager ℚ), Starts l file ∧ measured l ≠ [] ∧
    MiniBMKCatManager.load file = some m ∧ ∀ tr m',
      Benchmarked (⟨1,1,0,0,2⟩ : BmkArgs ℚ) m tr m' → tr = [] ∧ m'.saveCatalogue file = file := by
  have hv : (⟨1,1,0,0,2⟩ : BmkArgs ℚ).Valid := ⟨by decide,by decide,by decide⟩
  have hdegrees : (⟨1,1,0,0,2⟩ : BmkArgs ℚ).testDegrees = [1] := by decide +kernel
  have hadm : (⟨1,1,0,0,2⟩ : BmkArgs ℚ).admissible 0 1 = true := by decide +kernel
  obtain ⟨tr,m',hb,htimes⟩ := exists_benchmarked (⟨1,1,0,0,2⟩ : BmkArgs ℚ) ⟨KeySet.empty,0⟩
    (P := fun time => le (ofNat 0) time = true) 0 (by decide) hv.room (by decide +kernel)
  have hnext := Starts.first.next rfl hv hb htimes
  obtain ⟨_,m,hload,_,_,hagain⟩ := starts_never_repeat hnext
  refine ⟨_,_,m,hnext,fun hnil => ?_,hload,hagain _ (List.mem_append_right _
    (List.mem_singleton_self _)) hv⟩
  have hhas := hb.has hv ⟨0,.classUniformDegreeDirectSampler⟩ 1
    ⟨hdegrees ▸ List.mem_singleton_self 1,⟨Nat.le_refl _,Nat.zero_le _⟩,hadm,.inl rfl⟩
  obtain ⟨y,hy,_⟩ := KeySet.has_iff.mp hhas
  rcases ((hb.entered hv.room hv.threads).2.1 y).mp hy with hy | hy
  · cases hy
  · rw [measured,List.nil_append,List.flatMap_singleton] at hnil
    exact List.ne_nil_of_mem hy hnil

end FlashMob.Benchmark
