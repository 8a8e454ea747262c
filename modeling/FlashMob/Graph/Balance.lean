import FlashMob.Graph.Deal

namespace FlashMob.Graph
open Lib.Cursor Lib.Tiling

def size (partitions : List (Nat × Nat)) (p : Nat) : Nat :=
  lastPlace partitions p - firstPlace partitions p

/-- The units that `m` passes deal: one to each partition in each pass, until it is full. -/
def passed (partitions : List (Nat × Nat)) (k m : Nat) : Nat :=
  ∑ p ∈ Finset.range k, min m (size partitions p)

/-- The state within a pass that comes after `m` whole passes and has seen the partitions
`served`. The unit that a partition got in some pass is one of those of that pass. -/
structure InPass (partitions : List (Nat × Nat)) (units : Nat → VertexSortUnit) (k m : Nat)
    (served ks : List Nat) (st : Deal) : Prop extends Dealt partitions units k ks st where
  counts : ∀ p < k, ks.count p = min (m + served.count p) (size partitions p)
  turn : ∀ i (hi : i < ks.length),
    passed partitions k ((ks.take i).count ks[i]) ≤ i ∧
      i < passed partitions k ((ks.take i).count ks[i] + 1)

theorem sum_count_eq_length {ks : List Nat} {k : Nat} (h : ∀ p ∈ ks, p < k) :
    ∑ p ∈ Finset.range k, ks.count p = ks.length := by
  rw [← starts_eq_length h]
  clear h
  induction k with
  | zero => simp
  | succ k ih => rw [Finset.sum_range_succ,ih,starts_succ]

section
variable {partitions : List (Nat × Nat)} {units : Nat → VertexSortUnit} {vNum k m : Nat}
  {served ks : List Nat} {st : Deal} (ht : Tiles 0 partitions vNum) (hlen : k ≤ partitions.length)

theorem InPass.length_ge (h : InPass partitions units k m served ks st) :
    passed partitions k m ≤ ks.length := by
  rw [← sum_count_eq_length h.keys]
  refine Finset.sum_le_sum (fun p hp => ?_)
  rw [h.counts p (Finset.mem_range.mp hp)]
  omega

include ht hlen in
/-- A partition that gets no unit in its turn is full. -/
theorem InPass.full (h : InPass partitions units k m served ks st) {p : Nat} (hp : p < k)
    (hno : ¬(st.next < bound partitions k ∧ st.place p < lastPlace partitions p)) :
    ks.count p = size partitions p := by
  have hcount := count_le ht h.toDealt hlen hp
  have hplace : st.place p = firstPlace partitions p + ks.count p := by rw [h.place]; rfl
  unfold size
  rcases Nat.lt_or_ge st.next (bound partitions k) with hlt | hge
  · have := fun hroom => hno ⟨hlt,hroom⟩
    omega
  · have hstarts := starts_eq_bound ht h.toDealt hlen hge
    have h0 := hstarts p (by omega)
    have h1 := hstarts (p+1) hp
    rw [starts_succ,h0,← firstPlace_eq ht (by omega)] at h1
    have hb : bound partitions (p+1) = lastPlace partitions p := rfl
    omega

/-- What the counts become when a partition has had its turn. -/
theorem InPass.served_counts (h : InPass partitions units k m served ks st) {p : Nat}
    (hnew : p ∉ served) (ks' : List Nat) (hp : ks'.count p = min (m+1) (size partitions p))
    (hother : ∀ q, q ≠ p → ks'.count q = ks.count q) :
    ∀ q < k, ks'.count q = min (m + (served ++ [p]).count q) (size partitions q) := by
  intro q hq
  rw [List.count_append,List.count_singleton]
  by_cases hqp : q = p
  · subst hqp
    rw [hp,List.count_eq_zero_of_not_mem hnew]
    simp
  · rw [hother q hqp,h.counts q hq]
    simp [Ne.symm hqp]

include ht hlen in
theorem dealStep_inPass (h : InPass partitions units k m served ks st) {p : Nat} (hp : p < k)
    (hnew : p ∉ served) (hnodup : served.Nodup) :
    ∃ ks', InPass partitions units k m (served ++ [p]) ks'
      (dealStep partitions (bound partitions k) units st p) := by
  have hold := h.counts p hp
  rw [List.count_eq_zero_of_not_mem hnew] at hold
  by_cases hgo : st.next < bound partitions k ∧ st.place p < lastPlace partitions p
  · have hplace : st.place p = firstPlace partitions p + ks.count p := by rw [h.place]; rfl
    have hroom : ks.count p < size partitions p := by unfold size; omega
    have hcounts := h.served_counts hnew (ks ++ [p])
      (by rw [List.count_append,List.count_singleton_self]; omega)
      (fun q hq => by rw [List.count_append,List.count_singleton]; simp [Ne.symm hq])
    have hkeys := (h.toDealt.give hp hgo).keys
    refine ⟨ks ++ [p],h.toDealt.give hp hgo,hcounts,?_⟩
    intro i hi
    rcases Nat.lt_or_ge i ks.length with hlt | hge
    · rw [List.getElem_append_left hlt,List.take_append_of_le_length (Nat.le_of_lt hlt)]
      exact h.turn i hlt
    · have hi' : i = ks.length := by simp at hi; omega
      subst hi'
      have hm : ks.count p = m := by omega
      rw [List.getElem_concat_length rfl,List.take_left,hm]
      refine ⟨h.length_ge,?_⟩
      have hafter : (ks ++ [p]).length ≤ passed partitions k (m+1) := by
        rw [← sum_count_eq_length hkeys]
        refine Finset.sum_le_sum (fun q hq => ?_)
        have hone := List.nodup_iff_count_le_one.mp
          (List.nodup_append.mpr ⟨hnodup,List.nodup_singleton p,by
            intro a ha b hb hab
            rw [hab,List.mem_singleton.mp hb] at ha
            exact hnew ha⟩) q
        rw [hcounts q (Finset.mem_range.mp hq)]
        omega
      rw [List.length_append] at hafter
      exact hafter
  · have hfull := h.full ht hlen hp hgo
    rw [dealStep_stay hgo]
    exact ⟨ks,h.toDealt,h.served_counts hnew ks (by omega) (fun _ _ => rfl),h.turn⟩

include ht hlen in
theorem pass_inPass (ps : List Nat) (h : InPass partitions units k m served ks st)
    (hps : ∀ p ∈ ps, p < k) (hnodup : (served ++ ps).Nodup) :
    ∃ ks', InPass partitions units k m (served ++ ps) ks'
      (ps.foldl (dealStep partitions (bound partitions k) units) st) := by
  induction ps generalizing served ks st with
  | nil => exact ⟨ks,by simpa using h⟩
  | cons p ps ih =>
    rw [← List.singleton_append,← List.append_assoc] at hnodup ⊢
    have hserved := List.Nodup.of_append_left hnodup
    obtain ⟨ks₁,h₁⟩ := dealStep_inPass ht hlen h (hps p List.mem_cons_self)
      (List.disjoint_right.mp (List.disjoint_of_nodup_append hserved) (List.mem_singleton_self p))
      (List.Nodup.of_append_left hserved)
    exact ih h₁ (fun q hq => hps q (List.mem_cons_of_mem _ hq)) hnodup

theorem InPass.restart (h : InPass partitions units k m served ks st)
    (hall : served.Perm (List.range k)) : InPass partitions units k (m+1) [] ks st := by
  refine ⟨h.toDealt,?_,h.turn⟩
  intro p hp
  have hone : served.count p = 1 := by
    rw [hall.count_eq,List.count_eq_one_of_mem List.nodup_range (List.mem_range.mpr hp)]
  rw [h.counts p hp,hone,List.count_nil]

theorem reversed_perm (k : Nat) :
    ((List.range k).map (fun p => k - p - 1)).Perm (List.range k) := by
  have hrev : (List.range k).map (fun p => k - p - 1) = (List.range k).reverse := by
    refine List.ext_getElem (by simp) (fun i hi _ => ?_)
    simp at hi ⊢
    omega
  rw [hrev]
  exact List.reverse_perm _

include ht hlen in
theorem dealRound_inPass (h : InPass partitions units k m [] ks st) :
    ∃ ks', InPass partitions units k (m+2) [] ks'
      (dealRound partitions (bound partitions k) units k st) := by
  have whole : ∀ {m ks st} (ps : List Nat), ps.Perm (List.range k) →
      InPass partitions units k m [] ks st →
      ∃ ks', InPass partitions units k (m+1) [] ks'
        (ps.foldl (dealStep partitions (bound partitions k) units) st) := by
    intro m ks st ps hperm h
    obtain ⟨ks',h'⟩ := pass_inPass ht hlen ps h
      (fun p hp => List.mem_range.mp (hperm.mem_iff.mp hp))
      (hperm.nodup_iff.mpr List.nodup_range)
    exact ⟨ks',h'.restart hperm⟩
  obtain ⟨ks₁,h₁⟩ := whole (List.range k) (List.Perm.refl _) h
  exact whole _ (reversed_perm k) h₁

include ht hlen in
theorem dealLoop_inPass (fuel : Nat) (h : InPass partitions units k m [] ks st) {st' : Deal}
    (hloop : dealLoop partitions (bound partitions k) units k fuel st = some st') :
    ∃ m' ks', InPass partitions units k m' [] ks' st' := by
  induction fuel generalizing m ks st with
  | zero =>
    rw [dealLoop] at hloop
    split_ifs at hloop
    obtain rfl := Option.some.inj hloop
    exact ⟨m,ks,h⟩
  | succ fuel ih =>
    rw [dealLoop] at hloop
    split_ifs at hloop
    · obtain ⟨ks₁,h₁⟩ := dealRound_inPass ht hlen h
      exact ih h₁ hloop
    · obtain rfl := Option.some.inj hloop
      exact ⟨m,ks,h⟩

include ht hlen in
/-- The unit at a place of a partition was dealt in the pass of that place. -/
theorem InPass.unit_at (h : InPass partitions units k m [] ks st)
    (hdone : bound partitions k ≤ st.next) {p : Nat} (hp : p < k) {j : Nat}
    (hj : j < size partitions p) :
    ∃ i, (passed partitions k j ≤ i ∧ i < passed partitions k (j+1) ∧ i < bound partitions k) ∧
      st.units (firstPlace partitions p + j) = units i := by
  have hstarts := starts_eq_bound ht h.toDealt hlen hdone
  have hfirst : firstPlace partitions p = starts ks p := by
    rw [firstPlace_eq ht (by omega),hstarts p (by omega)]
  have hcount := h.full ht hlen hp (by omega)
  obtain ⟨i,hi,hki,hslot⟩ := exists_slot (starts ks) ks p (x := starts ks p + j) (by omega)
    (by omega)
  have hj' := getD_slots (starts ks) ks i hi
  rw [hslot,hki] at hj'
  have hturn := h.turn i hi
  rw [hki,show (ks.take i).count p = j by omega] at hturn
  have hn := dealt_length ht h.toDealt hlen hdone
  refine ⟨i,⟨hturn.1,hturn.2,by omega⟩,?_⟩
  rw [hfirst,← hslot,dealt_slot (written_eq ht h.toDealt hlen hdone) hi]

end

section
variable {f N a b : Nat → Nat} {n s least most : Nat}

/-- Two sequences that take their `j`-th value from the `j`-th stretch of a falling sequence:
each loses against the other at most what the sequence falls. -/
theorem sum_stretches_add_le (hf : ∀ i j, i ≤ j → j < n → f j ≤ f i)
    (hmost : ∀ v < n, f v ≤ most) (ha : ∀ j < s, N j ≤ a j ∧ a j < N (j+1) ∧ a j < n)
    (hb : ∀ j < s, N j ≤ b j ∧ b j < N (j+1) ∧ b j < n) {i : Nat} (hi : N s ≤ i) (hin : i < n) :
    ((List.range s).map (fun j => f (a j))).sum + f i ≤
      ((List.range s).map (fun j => f (b j))).sum + most := by
  induction s generalizing i with
  | zero => simpa using hmost i hin
  | succ s ih =>
    obtain ⟨has,_,han⟩ := ha s (Nat.lt_succ_self s)
    obtain ⟨_,hbs,_⟩ := hb s (Nat.lt_succ_self s)
    have hbefore := ih (fun j hj => ha j (Nat.lt_succ_of_lt hj))
      (fun j hj => hb j (Nat.lt_succ_of_lt hj)) has han
    have hlater : f i ≤ f (b s) := hf (b s) i (by omega) hin
    simp only [List.range_succ,List.map_append,List.sum_append,List.map_cons,List.map_nil,
      List.sum_singleton]
    omega

theorem sum_stretches_le (hf : ∀ i j, i ≤ j → j < n → f j ≤ f i)
    (hbounds : ∀ v < n, least ≤ f v ∧ f v ≤ most)
    (ha : ∀ j < s, N j ≤ a j ∧ a j < N (j+1) ∧ a j < n)
    (hb : ∀ j < s, N j ≤ b j ∧ b j < N (j+1) ∧ b j < n) :
    ((List.range s).map (fun j => f (a j))).sum ≤
      ((List.range s).map (fun j => f (b j))).sum + (most - least) := by
  cases s with
  | zero => simp
  | succ s =>
    obtain ⟨has,_,han⟩ := ha s (Nat.lt_succ_self s)
    obtain ⟨_,_,hbn⟩ := hb s (Nat.lt_succ_self s)
    have hbefore := sum_stretches_add_le hf (fun v hv => (hbounds v hv).2)
      (fun j hj => ha j (Nat.lt_succ_of_lt hj)) (fun j hj => hb j (Nat.lt_succ_of_lt hj)) has han
    have hleast := (hbounds (b s) hbn).1
    have hmost := (hbounds (b s) hbn).2
    simp only [List.range_succ,List.map_append,List.sum_append,List.map_cons,List.map_nil,
      List.sum_singleton]
    omega

end

/-- The number of edges of a partition when the units are arranged in this way. -/
def partitionEdges (partitions : List (Nat × Nat)) (units : Nat → VertexSortUnit) (p : Nat) : Nat :=
  ((vertices (partitions.getD p (0,0))).map (fun v => (units v).degree)).sum

theorem partitionEdges_eq {partitions : List (Nat × Nat)} {units given : Nat → VertexSortUnit}
    {p : Nat} {a : Nat → Nat}
    (ha : ∀ j < size partitions p, units (firstPlace partitions p + j) = given (a j)) :
    partitionEdges partitions units p =
      ((List.range (size partitions p)).map (fun j => (given (a j)).degree)).sum := by
  rw [partitionEdges,vertices,List.range'_eq_map_range,List.map_map]
  congr 1
  refine List.map_congr_left (fun j hj => ?_)
  have hdealt := ha j (List.mem_range.mp hj)
  exact congrArg VertexSortUnit.degree hdealt

/-- Two partitions of one size get a unit in the same passes. -/
theorem InPass.balanced {partitions : List (Nat × Nat)} {units : Nat → VertexSortUnit}
    {vNum k m : Nat} {ks : List Nat} {st : Deal} (ht : Tiles 0 partitions vNum)
    (hlen : k ≤ partitions.length) (h : InPass partitions units k m [] ks st)
    (hdone : bound partitions k ≤ st.next)
    (hsorted : ∀ i j, i ≤ j → j < vNum → (units j).degree ≤ (units i).degree)
    {p q : Nat} (hp : p < k) (hq : q < k) (hsize : size partitions p = size partitions q)
    {least most : Nat}
    (hbounds : ∀ v < bound partitions k, least ≤ (units v).degree ∧ (units v).degree ≤ most) :
    partitionEdges partitions st.units p ≤
      partitionEdges partitions st.units q + (most - least) := by
  have hle := bound_le ht hlen
  choose! a ha using fun j (hj : j < size partitions p) => h.unit_at ht hlen hdone hp hj
  choose! b hb using fun j (hj : j < size partitions q) => h.unit_at ht hlen hdone hq hj
  rw [partitionEdges_eq (fun j hj => (ha j hj).2),partitionEdges_eq (fun j hj => (hb j hj).2),
    hsize]
  rw [hsize] at ha
  exact sum_stretches_le (f := fun v => (units v).degree)
    (fun i j hij hj => hsorted i j hij (by omega)) hbounds
    (fun j hj => (ha j hj).1) (fun j hj => (hb j hj).1)

/-- What the dealing loop leaves behind. The degrees of two partitions of one size add up to
the same, up to the difference of any two bounds of the degrees that were dealt. -/
structure EvenlyDealt (partitions : List (Nat × Nat)) (k : Nat)
    (units : Nat → VertexSortUnit) (st : Deal) : Prop where
  perm : ((List.range (lastPlace partitions (k-1))).map st.units).Perm
    ((List.range (lastPlace partitions (k-1))).map units)
  others : ∀ v, lastPlace partitions (k-1) ≤ v → st.units v = units v
  filled : ∀ p < k, st.place p = lastPlace partitions p
  sorted : ∀ p < partitions.length, ∀ x y, firstPlace partitions p ≤ x → x < y →
    y < lastPlace partitions p → (st.units y).degree ≤ (st.units x).degree
  balanced : ∀ p < k, ∀ q < k, size partitions p = size partitions q → ∀ least most,
    (∀ v < lastPlace partitions (k-1), least ≤ (units v).degree ∧ (units v).degree ≤ most) →
    partitionEdges partitions st.units p ≤ partitionEdges partitions st.units q + (most - least)

theorem dealing_balances {partitions : List (Nat × Nat)} {vNum k : Nat}
    {units : Nat → VertexSortUnit} (ht : Tiles 0 partitions vNum) (hk : 0 < k)
    (hlen : k ≤ partitions.length)
    (hsorted : ∀ i j, i ≤ j → j < vNum → (units j).degree ≤ (units i).degree) :
    ∃ st, dealLoop partitions (lastPlace partitions (k-1)) units k (lastPlace partitions (k-1))
        ⟨units,0,firstPlace partitions⟩ = some st ∧
      deal partitions k units = some st.units ∧ EvenlyDealt partitions k units st := by
  have hb : bound partitions k = lastPlace partitions (k-1) := if_neg (by omega)
  have h0 := dealt_start partitions units k
  obtain ⟨_,st,hloop,_,hdone⟩ := dealLoop_dealt ht hlen (bound partitions k) h0 (by simp)
  obtain ⟨_,ks,h⟩ := dealLoop_inPass ht hlen (bound partitions k)
    (m := 0) ⟨h0,by simp,by simp⟩ hloop
  have hn := dealt_length ht h.toDealt hlen hdone
  have hle := bound_le ht hlen
  have hwritten := written_eq ht h.toDealt hlen hdone
  refine ⟨st,hb ▸ hloop,deal_of_loop hk hloop,?_,?_,?_,?_,?_⟩
  · rw [← hb]
    exact dealt_perm hwritten (Nat.le_of_eq hn)
  · intro v hv
    rw [← hb] at hv
    exact dealt_outside hwritten (by omega)
  · intro p hp
    have hfull := h.full ht hlen hp (by omega)
    have hle := first_le_last ht (m := p) (by omega)
    rw [h.place]
    simp only [advance]
    unfold size at hfull
    omega
  · intro p hp x y hx hxy hy
    exact dealt_sorted ht hlen hn (starts_eq_bound ht h.toDealt hlen hdone) hwritten hsorted
      hp hx hxy hy
  · intro p hp q hq hsize least most hbounds
    rw [← hb] at hbounds
    exact h.balanced ht hlen hdone hsorted hp hq hsize hbounds

theorem dealing_balances_short_last :
    ∃ st, dealLoop [(0,2),(2,4),(4,5)] 5 (fun v => ⟨v,5-v⟩) 3 5
        ⟨fun v => ⟨v,5-v⟩,0,firstPlace [(0,2),(2,4),(4,5)]⟩ = some st ∧
      deal [(0,2),(2,4),(4,5)] 3 (fun v => ⟨v,5-v⟩) = some st.units ∧
      EvenlyDealt [(0,2),(2,4),(4,5)] 3 (fun v => ⟨v,5-v⟩) st := by
  have ht : Tiles 0 [(0,2),(2,4),(4,5)] 5 := by simp
  have hk : 0 < 3 := by decide
  exact dealing_balances ht hk (Nat.le_refl 3)
    (fun _ _ hij _ => Nat.sub_le_sub_left hij 5)

end FlashMob.Graph
