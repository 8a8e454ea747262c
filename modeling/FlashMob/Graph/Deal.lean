import FlashMob.Graph.Groups
import FlashMob.Lib.Cursor
import FlashMob.Lib.Tiling

namespace FlashMob.Graph
open Lib.Cursor Lib.Tiling Lib.Writes

section
variable (partitions : List (Nat × Nat)) (units : Nat → VertexSortUnit)

/-- The first free place of each partition before anything is dealt. -/
def firstPlace (p : Nat) : Nat := (partitions.getD p (0,0)).1

def lastPlace (p : Nat) : Nat := (partitions.getD p (0,0)).2

/-- The state of the dealing loop after the units have gone to the partitions `ks`, one each. -/
structure Dealt (shufflePartitionNum : Nat) (ks : List Nat) (st : Deal) : Prop where
  next : st.next = ks.length
  place : st.place = advance (firstPlace partitions) ks
  written : st.units = writes units
    ((slots (firstPlace partitions) ks).zip ((List.range ks.length).map units))
  keys : ∀ p ∈ ks, p < shufflePartitionNum
  room : ∀ p ∈ ks, firstPlace partitions p + ks.count p ≤ lastPlace partitions p

end

variable {partitions : List (Nat × Nat)} {units : Nat → VertexSortUnit} {k n : Nat}
  {ks : List Nat} {st : Deal}

theorem dealStep_go {p : Nat} (hgo : st.next < n ∧ st.place p < lastPlace partitions p) :
    dealStep partitions n units st p =
      ⟨Function.update st.units (st.place p) (units st.next),st.next + 1,
        Function.update st.place p (st.place p + 1)⟩ := if_pos hgo

theorem dealStep_stay {p : Nat} (hno : ¬(st.next < n ∧ st.place p < lastPlace partitions p)) :
    dealStep partitions n units st p = st := if_neg hno

/-- The next unit goes to a partition that has room. -/
theorem Dealt.give (h : Dealt partitions units k ks st) {p : Nat} (hp : p < k)
    (hgo : st.next < n ∧ st.place p < lastPlace partitions p) :
    Dealt partitions units k (ks ++ [p]) (dealStep partitions n units st p) := by
  rw [dealStep_go hgo]
  refine ⟨?_,?_,?_,?_,?_⟩
  · simp [h.next]
  · simp only [h.place,advance_concat]
  · simp only [h.written,h.place,h.next,slots_concat,List.length_append,List.length_singleton,
      List.range_succ,List.map_append,List.map_cons,List.map_nil]
    rw [List.zip_append (by simp),writes_append]
    rfl
  · intro q hq
    rcases List.mem_append.mp hq with hq | hq
    · exact h.keys q hq
    · rw [List.mem_singleton.mp hq]; exact hp
  · intro q hq
    by_cases hqp : q = p
    · subst hqp
      have hlt := hgo.2
      rw [h.place] at hlt
      simp only [advance,List.count_append,List.count_singleton_self] at hlt ⊢
      omega
    · have hmem : q ∈ ks := by
        rcases List.mem_append.mp hq with hq | hq
        · exact hq
        · exact absurd (List.mem_singleton.mp hq) hqp
      have := h.room q hmem
      rw [List.count_append,List.count_singleton]
      simpa [Ne.symm hqp] using this

theorem dealStep_dealt (h : Dealt partitions units k ks st) {p : Nat} (hp : p < k) :
    ∃ ks', Dealt partitions units k ks' (dealStep partitions n units st p) ∧
      st.next ≤ (dealStep partitions n units st p).next := by
  by_cases hgo : st.next < n ∧ st.place p < lastPlace partitions p
  · have hnext := (h.give hp hgo).next
    rw [List.length_append,← h.next] at hnext
    exact ⟨ks ++ [p],h.give hp hgo,by omega⟩
  · rw [dealStep_stay hgo]
    exact ⟨ks,h,Nat.le_refl _⟩

/-- A pass over the partitions deals on; it deals something when one of them has room. -/
theorem dealPass_dealt (ps : List Nat) (h : Dealt partitions units k ks st)
    (hps : ∀ p ∈ ps, p < k) :
    ∃ ks', Dealt partitions units k ks' (ps.foldl (dealStep partitions n units) st) ∧
      st.next ≤ (ps.foldl (dealStep partitions n units) st).next ∧
      (∀ p ∈ ps, st.next < n → st.place p < lastPlace partitions p →
        st.next < (ps.foldl (dealStep partitions n units) st).next) := by
  induction ps generalizing ks st with
  | nil => exact ⟨ks,h,Nat.le_refl _,by simp⟩
  | cons q ps ih =>
    obtain ⟨ks₁,h₁,hle₁⟩ := dealStep_dealt (n := n) h (hps q List.mem_cons_self)
    obtain ⟨ks₂,h₂,hle₂,hgo₂⟩ := ih h₁ (fun p hp => hps p (List.mem_cons_of_mem _ hp))
    refine ⟨ks₂,h₂,Nat.le_trans hle₁ hle₂,?_⟩
    intro p hp hlt hroom
    rw [List.foldl_cons]
    by_cases hq : st.next < n ∧ st.place q < lastPlace partitions q
    · have hstep : (dealStep partitions n units st q).next = st.next + 1 := by
        rw [dealStep_go hq]
      omega
    · rw [dealStep_stay hq] at hgo₂ ⊢
      rcases List.mem_cons.mp hp with rfl | hp
      · exact absurd ⟨hlt,hroom⟩ hq
      · exact hgo₂ p hp hlt hroom

/-- The first vertex that belongs to none of the first `m` partitions. -/
def bound (partitions : List (Nat × Nat)) (m : Nat) : Nat :=
  if m = 0 then 0 else lastPlace partitions (m-1)

section
variable {vNum : Nat} (ht : Tiles 0 partitions vNum)
include ht

theorem firstPlace_eq {m : Nat} (hm : m < partitions.length) :
    firstPlace partitions m = bound partitions m := by
  rw [firstPlace,List.getD_eq_getElem _ _ hm,ht.first_eq m hm]
  rfl

theorem first_le_last {m : Nat} (hm : m < partitions.length) :
    firstPlace partitions m ≤ lastPlace partitions m := by
  rw [firstPlace,lastPlace,List.getD_eq_getElem _ _ hm]
  exact (ht.mem_bounds (List.getElem_mem hm)).2.1

/-- As long as units are left some partition has room. -/
theorem exists_room (h : Dealt partitions units k ks st) (hlen : k ≤ partitions.length)
    (hlt : st.next < bound partitions k) :
    ∃ p < k, st.place p < lastPlace partitions p := by
  by_contra hno
  have hfull : ∀ p < k, lastPlace partitions p ≤ firstPlace partitions p + ks.count p := by
    intro p hp
    have hp' : ¬st.place p < lastPlace partitions p := fun hr => hno ⟨p,hp,hr⟩
    rw [h.place] at hp'
    exact Nat.le_of_not_lt hp'
  have hbound : ∀ m ≤ k, bound partitions m ≤ starts ks m := by
    intro m hm
    induction m with
    | zero => exact Nat.zero_le _
    | succ m ih =>
      have hih := ih (by omega)
      have hm' := hfull m hm
      rw [firstPlace_eq ht (by omega)] at hm'
      rw [starts_succ]
      change lastPlace partitions m ≤ _
      omega
  have hle := hbound k (Nat.le_refl _)
  rw [starts_eq_length h.keys,← h.next] at hle
  omega

theorem count_le (h : Dealt partitions units k ks st) (hlen : k ≤ partitions.length) {p : Nat}
    (hp : p < k) : firstPlace partitions p + ks.count p ≤ lastPlace partitions p := by
  by_cases hmem : p ∈ ks
  · exact h.room p hmem
  · rw [List.count_eq_zero_of_not_mem hmem]
    exact first_le_last ht (by omega)

theorem starts_le_bound (h : Dealt partitions units k ks st) (hlen : k ≤ partitions.length) :
    ∀ m ≤ k, starts ks m ≤ bound partitions m := by
  intro m hm
  induction m with
  | zero => rw [starts_zero]; exact Nat.zero_le _
  | succ m ih =>
    have hih := ih (by omega)
    have hc := count_le ht h hlen (p := m) (by omega)
    rw [firstPlace_eq ht (by omega)] at hc
    rw [starts_succ]
    change _ ≤ lastPlace partitions m
    omega

/-- When all units are dealt each partition is filled exactly to its end. -/
theorem starts_eq_bound (h : Dealt partitions units k ks st) (hlen : k ≤ partitions.length)
    (hdone : bound partitions k ≤ st.next) : ∀ m ≤ k, starts ks m = bound partitions m := by
  have hlast : starts ks k = bound partitions k := by
    have hle := starts_le_bound ht h hlen k (Nat.le_refl _)
    rw [starts_eq_length h.keys,← h.next] at hle ⊢
    omega
  intro m hm
  -- Down from the last bound: a partition that lacked a unit would need one too many elsewhere.
  induction hj : k - m generalizing m with
  | zero => rw [show m = k by omega]; exact hlast
  | succ j ih =>
    have hnext := ih (m+1) (by omega) (by omega)
    have hle := starts_le_bound ht h hlen m hm
    have hc := count_le ht h hlen (p := m) (by omega)
    rw [firstPlace_eq ht (by omega)] at hc
    rw [starts_succ] at hnext
    have hb : bound partitions (m+1) = lastPlace partitions m := rfl
    omega

/-- The dealing is a counting sort of the units by their partitions. -/
theorem written_eq (h : Dealt partitions units k ks st) (hlen : k ≤ partitions.length)
    (hdone : bound partitions k ≤ st.next) :
    st.units = writes units ((slots (starts ks) ks).zip ((List.range ks.length).map units)) := by
  rw [h.written]
  congr 2
  apply slots_congr
  intro p hp
  have hp' := h.keys p hp
  rw [firstPlace_eq ht (by omega),starts_eq_bound ht h hlen hdone p (by omega)]

theorem dealLoop_dealt (hlen : k ≤ partitions.length) (fuel : Nat)
    (h : Dealt partitions units k ks st) (hfuel : bound partitions k ≤ st.next + fuel) :
    ∃ ks' st', dealLoop partitions (bound partitions k) units k fuel st = some st' ∧
      Dealt partitions units k ks' st' ∧ bound partitions k ≤ st'.next := by
  induction fuel generalizing ks st with
  | zero => exact ⟨ks,st,by rw [dealLoop,if_neg (by omega)],h,hfuel⟩
  | succ fuel ih =>
    by_cases hlt : st.next < bound partitions k
    · rw [dealLoop,if_pos hlt]
      obtain ⟨p,hp,hroom⟩ := exists_room ht h hlen hlt
      obtain ⟨ks₁,h₁,_,hgo⟩ := dealPass_dealt (n := bound partitions k) (List.range k) h
        (fun p hp => List.mem_range.mp hp)
      have hup := hgo p (List.mem_range.mpr hp) hlt hroom
      obtain ⟨ks₂,h₂,hle₂,_⟩ := dealPass_dealt (n := bound partitions k)
        ((List.range k).map (fun p => k - p - 1)) h₁ (by
          intro p hp
          obtain ⟨q,hq,rfl⟩ := List.mem_map.mp hp
          have := List.mem_range.mp hq
          omega)
      have hround : st.next <
          (dealRound partitions (bound partitions k) units k st).next := Nat.lt_of_lt_of_le hup hle₂
      have h₂' : Dealt partitions units k ks₂
          (dealRound partitions (bound partitions k) units k st) := h₂
      exact ih h₂' (by omega)
    · exact ⟨ks,st,by rw [dealLoop,if_neg hlt],h,by omega⟩

theorem dealt_length (h : Dealt partitions units k ks st) (hlen : k ≤ partitions.length)
    (hdone : bound partitions k ≤ st.next) : ks.length = bound partitions k := by
  rw [← starts_eq_length h.keys]
  exact starts_eq_bound ht h hlen hdone k (Nat.le_refl _)

theorem bound_le (hlen : k ≤ partitions.length) : bound partitions k ≤ vNum := by
  cases k with
  | zero => exact Nat.zero_le _
  | succ k =>
    change lastPlace partitions k ≤ vNum
    rw [lastPlace,List.getD_eq_getElem _ _ hlen]
    exact (ht.mem_bounds (List.getElem_mem hlen)).2.2

omit ht in
theorem dealt_start (partitions : List (Nat × Nat)) (units : Nat → VertexSortUnit) (k : Nat) :
    Dealt partitions units k [] ⟨units,0,firstPlace partitions⟩ := by
  refine ⟨rfl,?_,rfl,by simp,by simp⟩
  funext p
  simp [advance]

omit ht in
theorem deal_of_loop (hk : 0 < k) (hloop : dealLoop partitions (bound partitions k) units k
      (bound partitions k) ⟨units,0,firstPlace partitions⟩ = some st) :
    deal partitions k units = some st.units := by
  have hb : bound partitions k = lastPlace partitions (k-1) := if_neg (Nat.ne_of_gt hk)
  rw [hb] at hloop
  exact congrArg (Option.map Deal.units) hloop

/-- The dealing loop ends, and its outcome is described by the partition each unit went to. -/
theorem deal_spec (hk : 0 < k) (hlen : k ≤ partitions.length)
    (units : Nat → VertexSortUnit) :
    ∃ ks units', deal partitions k units = some units' ∧ ks.length = bound partitions k ∧
      (∀ p ∈ ks, p < k) ∧ (∀ m ≤ k, starts ks m = bound partitions m) ∧
      units' = writes units ((slots (starts ks) ks).zip ((List.range ks.length).map units)) := by
  obtain ⟨ks,st,hloop,h,hdone⟩ := dealLoop_dealt ht hlen (bound partitions k)
    (dealt_start partitions units k) (by simp)
  exact ⟨ks,st.units,deal_of_loop hk hloop,dealt_length ht h hlen hdone,h.keys,
    starts_eq_bound ht h hlen hdone,written_eq ht h hlen hdone⟩

end

/-- The content of the place that a unit was dealt to. -/
theorem dealt_slot {units' : Nat → VertexSortUnit}
    (hu : units' = writes units ((slots (starts ks) ks).zip ((List.range ks.length).map units)))
    {i : Nat} (hi : i < ks.length) :
    units' ((slots (starts ks) ks).getD i 0) = units i := by
  have hfst : ((slots (starts ks) ks).zip ((List.range ks.length).map units)).map Prod.fst =
      slots (starts ks) ks := List.map_fst_zip (by simp)
  rw [hu]
  apply writes_of_mem
  · rw [hfst]
    exact (slots_starts_perm ks).nodup_iff.mpr List.nodup_range
  · have hz : i < ((slots (starts ks) ks).zip ((List.range ks.length).map units)).length := by
      simpa using hi
    have hget := List.getElem_mem hz
    rw [List.getD_eq_getElem _ 0 (by simpa using hi)]
    simpa using hget

theorem dealt_outside {units' : Nat → VertexSortUnit}
    (hu : units' = writes units ((slots (starts ks) ks).zip ((List.range ks.length).map units)))
    {v : Nat} (hv : ks.length ≤ v) : units' v = units v := by
  have hfst : ((slots (starts ks) ks).zip ((List.range ks.length).map units)).map Prod.fst =
      slots (starts ks) ks := List.map_fst_zip (by simp)
  rw [hu]
  apply writes_of_notMem
  rw [hfst]
  intro hm
  have := List.mem_range.mp ((slots_starts_perm ks).mem_iff.mp hm)
  omega

/-- Dealing only permutes the units. -/
theorem dealt_perm {units' : Nat → VertexSortUnit}
    (hu : units' = writes units ((slots (starts ks) ks).zip ((List.range ks.length).map units)))
    {m : Nat} (hm : ks.length ≤ m) :
    ((List.range m).map units').Perm ((List.range m).map units) := by
  obtain ⟨d,rfl⟩ := Nat.exists_eq_add_of_le hm
  rw [List.range_add,List.map_append,List.map_append]
  apply List.Perm.append
  · have hmap : (slots (starts ks) ks).map units' = (List.range ks.length).map units := by
      refine List.ext_getElem (by simp) (fun i hi hi' => ?_)
      have hi₀ : i < ks.length := by simpa using hi
      rw [List.getElem_map,← List.getD_eq_getElem _ 0 (by simpa using hi₀),dealt_slot hu hi₀]
      simp
    rw [← hmap]
    exact ((slots_starts_perm ks).map units').symm
  · apply List.Perm.of_eq
    apply List.map_congr_left
    intro v hv
    obtain ⟨i,_,rfl⟩ := List.mem_map.mp hv
    exact dealt_outside hu (Nat.le_add_right _ _)

/-- The vertices of a partition keep the order of their degrees. -/
theorem dealt_sorted {vNum : Nat} (ht : Tiles 0 partitions vNum) (hlen : k ≤ partitions.length)
    {units' : Nat → VertexSortUnit} (hdone : ks.length = bound partitions k)
    (hstarts : ∀ m ≤ k, starts ks m = bound partitions m)
    (hu : units' = writes units ((slots (starts ks) ks).zip ((List.range ks.length).map units)))
    (hsorted : ∀ i j, i ≤ j → j < vNum → (units j).degree ≤ (units i).degree)
    {p x y : Nat} (hp : p < partitions.length) (hx : firstPlace partitions p ≤ x) (hxy : x < y)
    (hy : y < lastPlace partitions p) : (units' y).degree ≤ (units' x).degree := by
  have hlast : lastPlace partitions p ≤ vNum := by
    rw [lastPlace,List.getD_eq_getElem _ _ hp]
    exact (ht.mem_bounds (List.getElem_mem hp)).2.2
  have hfirst := firstPlace_eq ht hp
  have hb : bound partitions (p+1) = lastPlace partitions p := rfl
  by_cases hpk : p < k
  · have h0 := hstarts p (by omega)
    have h1 := hstarts (p+1) hpk
    rw [starts_succ] at h1
    obtain ⟨i,hi,hki,hsi⟩ := exists_slot (starts ks) ks p (x := x) (by omega) (by omega)
    obtain ⟨j,hj,hkj,hsj⟩ := exists_slot (starts ks) ks p (x := y) (by omega) (by omega)
    have hij : i < j := by
      rcases Nat.lt_trichotomy i j with h | h | h
      · exact h
      · subst h; omega
      · have := slot_lt_slot (starts ks) ks h hi (hkj.trans hki.symm)
        omega
    have hui := dealt_slot hu hi
    have huj := dealt_slot hu hj
    rw [hsi] at hui
    rw [hsj] at huj
    rw [hui,huj]
    have hle := starts_le_length ks k
    have hsub := bound_le ht hlen
    exact hsorted i j (by omega) (by omega)
  · -- Beyond the shuffled partitions the order is the sorted one.
    have hlow : ks.length ≤ firstPlace partitions p := by
      rw [hdone,hfirst]
      have hmono : ∀ d, k + d ≤ p → bound partitions k ≤ bound partitions (k + d) := by
        intro d hd
        induction d with
        | zero => exact Nat.le_refl _
        | succ d ih =>
          have hstep := first_le_last ht (m := k + d) (by omega)
          rw [firstPlace_eq ht (by omega)] at hstep
          exact Nat.le_trans (ih (by omega)) hstep
      have := hmono (p - k) (by omega)
      rwa [show k + (p - k) = p by omega] at this
    rw [dealt_outside hu (by omega),dealt_outside hu (by omega)]
    exact hsorted x y (by omega) (by omega)

/-- What `deal` makes of the units: the same units, in falling order inside each partition
if they were in falling order before. -/
structure Redistributed (partitions : List (Nat × Nat)) (vNum : Nat)
    (units units' : Nat → VertexSortUnit) : Prop where
  perm : ((List.range vNum).map units').Perm ((List.range vNum).map units)
  sorted : (∀ i j, i ≤ j → j < vNum → (units j).degree ≤ (units i).degree) →
    ∀ p < partitions.length, ∀ x y, (partitions.getD p (0,0)).1 ≤ x → x < y →
      y < (partitions.getD p (0,0)).2 → (units' y).degree ≤ (units' x).degree

theorem deal_redistributed {vNum : Nat} (ht : Tiles 0 partitions vNum) (hk : 0 < k)
    (hlen : k ≤ partitions.length) (units : Nat → VertexSortUnit) :
    ∃ units', deal partitions k units = some units' ∧
      Redistributed partitions vNum units units' := by
  obtain ⟨ks,units',hdeal,hdone,_,hstarts,hu⟩ := deal_spec ht hk hlen units
  have hle : ks.length ≤ vNum := hdone ▸ bound_le ht hlen
  exact ⟨units',hdeal,dealt_perm hu hle,fun hs p hp x y hx hxy hy =>
    dealt_sorted ht hlen hdone hstarts hu hs hp hx hxy hy⟩

theorem length_headD_le (rows : List (List (Nat × Nat))) :
    (rows.headD []).length ≤ rows.flatten.length := by
  cases rows with
  | nil => exact Nat.le_refl _
  | cons row rows =>
    rw [List.headD_cons,List.flatten_cons,List.length_append]
    exact Nat.le_add_right _ _

/-- With as many shuffled partitions as `make` takes, the units are dealt out. -/
theorem deal_rows {rows : List (List (Nat × Nat))} {vNum threads : Nat}
    {units units' : Nat → VertexSortUnit} (hk : k = min threads (rows.headD []).length ∧ k ≠ 0)
    (ht : Tiles 0 rows.flatten vNum) (hdeal : deal rows.flatten k units = some units') :
    Redistributed rows.flatten vNum units units' := by
  obtain ⟨rfl,hne⟩ := hk
  have hlen := Nat.le_trans (Nat.min_le_right threads _) (length_headD_le rows)
  obtain ⟨dealt,hdealt,hr⟩ := deal_redistributed ht (Nat.pos_of_ne_zero hne) hlen units
  obtain rfl := Option.some.inj (hdeal.symm.trans hdealt)
  exact hr

/-- A graph from `make` was assembled from the units it dealt. -/
theorem make_cases {D : Type} {cfg : MultiThreadConfig} {hint : GraphHint D}
    {schedule : List (Nat × Nat) → List (Nat × Nat)} {g : Loaded} {made : Made}
    (h : make cfg hint schedule g = some made) :
    ∃ rows k units, partitionRows g.vNum hint = some rows ∧
      (k = min cfg.threadNum (rows.headD []).length ∧ k ≠ 0) ∧
      deal rows.flatten k g.unit = some units ∧
      made = assemble cfg hint schedule g rows.flatten k units := by
  obtain ⟨rows,hrows,h⟩ := Option.bind_eq_some_iff.mp h
  dsimp only at h
  split_ifs at h with hk
  obtain ⟨units,hdeal,he⟩ := Option.map_eq_some_iff.mp h
  exact ⟨rows,_,units,hrows,⟨rfl,hk⟩,hdeal,he.symm⟩

/-- Two loaded graphs that differ in their names only are made into graphs from the same units. -/
theorem make_rel {D : Type} {cfg : MultiThreadConfig} {hint : GraphHint D}
    {schedule : List (Nat × Nat) → List (Nat × Nat)} {g : Loaded} (name2id : List Nat)
    {R : Made → Made → Prop}
    (h : ∀ (rows : List (List (Nat × Nat))) (k : Nat) (units : Nat → VertexSortUnit),
      (k = min cfg.threadNum (rows.headD []).length ∧ k ≠ 0) →
      deal rows.flatten k g.unit = some units →
      R (assemble cfg hint schedule g rows.flatten k units)
        (assemble cfg hint schedule { g with name2id := name2id } rows.flatten k units)) :
    Option.Rel R (make cfg hint schedule g)
      (make cfg hint schedule { g with name2id := name2id }) := by
  have hunit : ({ g with name2id := name2id } : Loaded).unit = g.unit := rfl
  rw [make,make,hunit]
  dsimp only
  cases hrows : partitionRows g.vNum hint with
  | none => exact Option.Rel.none
  | some rows =>
    rw [Option.bind_some,Option.bind_some]
    by_cases hk : min cfg.threadNum (rows.headD []).length = 0
    · rw [if_pos hk,if_pos hk]
      exact Option.Rel.none
    · rw [if_neg hk,if_neg hk]
      cases hdeal : deal rows.flatten (min cfg.threadNum (rows.headD []).length) g.unit with
      | none => exact Option.Rel.none
      | some units => exact Option.Rel.some (h rows _ units ⟨rfl,hk⟩ hdeal)

/-- For a hint whose partitions tile the vertices, `make` succeeds. -/
theorem make_isSome {D : Type} {cfg : MultiThreadConfig} {hint : GraphHint D}
    (schedule : List (Nat × Nat) → List (Nat × Nat)) {g : Loaded}
    {rows : List (List (Nat × Nat))} (hrows : partitionRows g.vNum hint = some rows)
    (ht : Tiles 0 rows.flatten g.vNum) (hthreads : 0 < cfg.threadNum)
    (hfirst : rows.headD [] ≠ []) :
    ∃ k units, make cfg hint schedule g =
        some (assemble cfg hint schedule g rows.flatten k units) ∧
      Redistributed rows.flatten g.vNum g.unit units := by
  have hpos := List.length_pos_iff.mpr hfirst
  have hk : min cfg.threadNum (rows.headD []).length ≠ 0 := by omega
  have hlen := Nat.le_trans (Nat.min_le_right cfg.threadNum _) (length_headD_le rows)
  obtain ⟨units,hdeal,hred⟩ := deal_redistributed ht (Nat.pos_of_ne_zero hk) hlen g.unit
  refine ⟨min cfg.threadNum (rows.headD []).length,units,?_,hred⟩
  rw [make,hrows,Option.bind_some,if_neg hk,hdeal]
  rfl

/-- What `make` takes over from the loaded graph and the machine. -/
theorem make_sizes {D : Type} {cfg : MultiThreadConfig} {hint : GraphHint D}
    {schedule : List (Nat × Nat) → List (Nat × Nat)} {g : Loaded} {made : Made}
    (h : make cfg hint schedule g = some made) : made.vNum = g.vNum ∧ made.eNum = g.eNum ∧
      made.asUndirected = g.asUndirected ∧ made.socketNum = cfg.socketNum := by
  obtain ⟨_,_,_,_,_,_,rfl⟩ := make_cases h
  exact ⟨rfl,rfl,rfl,rfl⟩

/-- A graph from `make` whose partitions tile the vertices was assembled from the units it
dealt. -/
theorem make_dealt {D : Type} {cfg : MultiThreadConfig} {hint : GraphHint D}
    {schedule : List (Nat × Nat) → List (Nat × Nat)} {g : Loaded} {made : Made}
    (h : make cfg hint schedule g = some made) (ht : Tiles 0 made.partitions made.vNum) :
    ∃ k units, made = assemble cfg hint schedule g made.partitions k units ∧
      Redistributed made.partitions g.vNum g.unit units := by
  obtain ⟨rows,k,units,_,hk,hdeal,rfl⟩ := make_cases h
  exact ⟨k,units,rfl,deal_rows hk ht hdeal⟩

theorem HintOk.rows_ne_nil {D : Type} {vNum : Nat} {hint : GraphHint D} (ok : HintOk vNum hint)
    (hv : 0 < vNum) : (hint.groupHints.map (groupRow vNum)).headD [] ≠ [] := by
  have hg := ok.lt_groupNum hv
  rw [Nat.zero_div,← ok.length] at hg
  obtain ⟨h,hh⟩ : ∃ h, hint.groupHints[0]? = some h := ⟨_,List.getElem?_eq_getElem hg⟩
  have hhead : (hint.groupHints.map (groupRow vNum)).headD [] = groupRow vNum h := by
    cases hl : hint.groupHints with
    | nil => simp [hl] at hh
    | cons h' hs =>
      rw [hl,List.getElem?_cons_zero,Option.some.injEq] at hh
      rw [hh]
      rfl
  have hq := Nat.two_pow_pos h.partitionBits
  have hsize := Nat.two_pow_pos hint.groupBits
  have hnum := ok.nums 0 h hh
  rw [ok.ends 0 h hh,ok.begins 0 h hh,ceilDiv_step hq (by omega)] at hnum
  rw [hhead,groupRow,hnum,List.range_succ_eq_map]
  exact List.cons_ne_nil _ _

/-- With a hint of the planned layout, `make` succeeds. -/
theorem HintOk.make_isSome {D : Type} {cfg : MultiThreadConfig} {hint : GraphHint D}
    (schedule : List (Nat × Nat) → List (Nat × Nat)) {g : Loaded} (ok : HintOk g.vNum hint)
    (hv : 0 < g.vNum) (hthreads : 0 < cfg.threadNum) :
    ∃ k units, make cfg hint schedule g = some (assemble cfg hint schedule g
        (hint.groupHints.map (groupRow g.vNum)).flatten k units) ∧
      Redistributed (hint.groupHints.map (groupRow g.vNum)).flatten g.vNum g.unit units :=
  Graph.make_isSome schedule ok.partitionRows_eq ok.partitions_tiles hthreads (ok.rows_ne_nil hv)

end FlashMob.Graph
