import FlashMob.Graph.Make
import FlashMob.Lib.Tiling

namespace FlashMob.Graph
open Lib.Tiling

theorem socketBegins_concat (degree : Nat → Nat) (s : Nat) (begins : Nat → Slot) (vs : List Nat)
    (x : Nat) : socketBegins degree s begins (vs ++ [x]) =
      (Function.update (socketBegins degree s begins vs).1 x
        (s,(socketBegins degree s begins vs).2),(socketBegins degree s begins vs).2 + degree x) := by
  simp only [socketBegins,List.foldl_append,List.foldl_cons,List.foldl_nil]

theorem socketBegins_next (degree : Nat → Nat) (s : Nat) (begins : Nat → Slot) (vs : List Nat) :
    (socketBegins degree s begins vs).2 = (vs.map degree).sum := by
  induction vs using List.reverseRecOn with
  | nil => rfl
  | append_singleton vs x ih => rw [socketBegins_concat,ih]; simp

theorem socketBegins_of_notMem (degree : Nat → Nat) (s : Nat) (begins : Nat → Slot)
    {vs : List Nat} {v : Nat} (hv : v ∉ vs) : (socketBegins degree s begins vs).1 v = begins v := by
  induction vs using List.reverseRecOn with
  | nil => rfl
  | append_singleton vs x ih =>
    rw [List.mem_append,List.mem_singleton,not_or] at hv
    rw [socketBegins_concat]
    exact (Function.update_of_ne hv.2 _ _).trans (ih hv.1)

/-- Each list begins behind the lists of the vertices before it. -/
theorem socketBegins_of_getElem? (degree : Nat → Nat) (s : Nat) (begins : Nat → Slot)
    {vs : List Nat} (hn : vs.Nodup) {i v : Nat} (hi : vs[i]? = some v) :
    (socketBegins degree s begins vs).1 v = (s,((vs.take i).map degree).sum) := by
  induction vs using List.reverseRecOn with
  | nil => simp at hi
  | append_singleton vs x ih =>
    obtain ⟨hnodup,_,hne⟩ := List.nodup_append.mp hn
    rw [socketBegins_concat]
    rcases Nat.lt_or_ge i vs.length with hlt | hge
    · rw [List.getElem?_append_left hlt] at hi
      have hvx : v ≠ x := hne v (List.mem_of_getElem? hi) x (List.mem_singleton_self x)
      rw [List.take_append_of_le_length (Nat.le_of_lt hlt),← ih hnodup hi]
      exact Function.update_of_ne hvx _ _
    · rw [List.getElem?_append_right hge] at hi
      have hi0 : i - vs.length = 0 := by
        have := (List.getElem?_eq_some_iff.mp hi).1
        rw [List.length_singleton] at this
        omega
      rw [hi0,List.getElem?_cons_zero,Option.some.injEq] at hi
      subst hi
      rw [show i = vs.length by omega,List.take_left' rfl,← socketBegins_next degree s begins vs]
      exact Function.update_self _ _ _

section
variable {partitions : List (Nat × Nat)} {n : Nat} (ht : Tiles 0 partitions n) (socketNum : Nat)
include ht

omit ht in
theorem mem_vertices {r : Nat × Nat} {v : Nat} : v ∈ vertices r ↔ r.1 ≤ v ∧ v < r.2 := by
  rw [vertices,List.mem_range'_1]
  omega

omit ht in
theorem mem_socketVertices {s v : Nat} : v ∈ socketVertices socketNum partitions s ↔
    ∃ p < partitions.length, partitionSocket socketNum p = s ∧
      (partitions.getD p (0,0)).1 ≤ v ∧ v < (partitions.getD p (0,0)).2 := by
  simp only [socketVertices,List.mem_flatMap,mem_socketPartitions,mem_vertices,and_assoc]

/-- Two partitions that hold a vertex are the same. -/
theorem partition_unique {p p' v : Nat} (hp : p < partitions.length) (hp' : p' < partitions.length)
    (hv : (partitions.getD p (0,0)).1 ≤ v ∧ v < (partitions.getD p (0,0)).2)
    (hv' : (partitions.getD p' (0,0)).1 ≤ v ∧ v < (partitions.getD p' (0,0)).2) : p = p' := by
  rw [List.getD_eq_getElem _ _ hp] at hv
  rw [List.getD_eq_getElem _ _ hp'] at hv'
  have hlast := (ht.mem_bounds (List.getElem_mem hp)).2.2
  obtain ⟨k,_,hu⟩ := ht.existsUnique_index (Nat.zero_le v) (by omega)
  rw [hu p ⟨_,List.getElem?_eq_getElem hp,hv⟩,hu p' ⟨_,List.getElem?_eq_getElem hp',hv'⟩]

theorem exists_partition {v : Nat} (hv : v < n) : ∃ p < partitions.length,
    (partitions.getD p (0,0)).1 ≤ v ∧ v < (partitions.getD p (0,0)).2 := by
  obtain ⟨k,⟨r,hr,hlo,hhi⟩,_⟩ := ht.existsUnique_index (Nat.zero_le v) hv
  obtain ⟨hk,rfl⟩ := List.getElem?_eq_some_iff.mp hr
  refine ⟨k,hk,?_⟩
  rw [List.getD_eq_getElem _ _ hk]
  exact ⟨hlo,hhi⟩

theorem socketVertices_one {s s' v : Nat} (h : v ∈ socketVertices socketNum partitions s)
    (h' : v ∈ socketVertices socketNum partitions s') : s = s' := by
  obtain ⟨p,hp,rfl,hv⟩ := (mem_socketVertices socketNum).mp h
  obtain ⟨p',hp',rfl,hv'⟩ := (mem_socketVertices socketNum).mp h'
  rw [partition_unique ht hp hp' hv hv']

theorem socketVertices_nodup (s : Nat) : (socketVertices socketNum partitions s).Nodup := by
  rw [socketVertices,List.nodup_flatMap]
  refine ⟨fun p _ => List.nodup_range',?_⟩
  apply List.Pairwise.imp_of_mem _ (socketPartitions_nodup socketNum partitions.length s)
  intro p p' hp hp' hne v hv hv'
  exact hne (partition_unique ht (mem_socketPartitions.mp hp).1 (mem_socketPartitions.mp hp').1
    (mem_vertices.mp hv) (mem_vertices.mp hv'))

/-- The adjacency list of a vertex begins on the socket of its partition, behind the lists of
the vertices before it. -/
theorem edgeBegins_eq (degree : Nat → Nat) {s i v : Nat} (hs : s < socketNum)
    (hi : (socketVertices socketNum partitions s)[i]? = some v) :
    edgeBegins socketNum partitions degree v =
      (s,(((socketVertices socketNum partitions s).take i).map degree).sum) := by
  have hloop : ∀ n, s < n → (List.range n).foldl (fun begins s =>
      (socketBegins degree s begins (socketVertices socketNum partitions s)).1) (fun _ => (0,0)) v =
      (s,(((socketVertices socketNum partitions s).take i).map degree).sum) := by
    intro n
    induction n with
    | zero => intro h; omega
    | succ n ih =>
      intro hsn
      rw [List.range_succ,List.foldl_append,List.foldl_cons,List.foldl_nil]
      rcases Nat.lt_or_eq_of_le (Nat.le_of_lt_succ hsn) with hlt | rfl
      · have hnot : v ∉ socketVertices socketNum partitions n := by
          intro hm
          have := socketVertices_one ht socketNum hm (List.mem_of_getElem? hi)
          omega
        rw [socketBegins_of_notMem degree n _ hnot,ih hlt]
      · exact socketBegins_of_getElem? degree s _ (socketVertices_nodup ht socketNum s) hi
  exact hloop socketNum hs

omit ht in
/-- The vertices of a partition stand one behind the other among those of its socket. -/
theorem socketVertices_run {p : Nat} (hp : p < partitions.length) :
    ∃ off, ∀ x, (partitions.getD p (0,0)).1 ≤ x → x < (partitions.getD p (0,0)).2 →
      (socketVertices socketNum partitions (partitionSocket socketNum p))[off +
        (x - (partitions.getD p (0,0)).1)]? = some x := by
  have hm : p ∈ socketPartitions socketNum partitions.length (partitionSocket socketNum p) :=
    mem_socketPartitions.mpr ⟨hp,rfl⟩
  obtain ⟨before,after,hsplit⟩ := List.append_of_mem hm
  refine ⟨(before.flatMap (fun p => vertices (partitions.getD p (0,0)))).length,?_⟩
  intro x hlo hhi
  rw [socketVertices,hsplit,List.flatMap_append,List.flatMap_cons,
    List.getElem?_append_right (Nat.le_add_right _ _),Nat.add_sub_cancel_left,
    List.getElem?_append_left (by simp only [vertices,List.length_range']; omega),vertices,
    List.getElem?_range' (by omega)]
  congr 1
  omega

omit ht in
theorem sum_take_add_le (degree : Nat → Nat) {vs : List Nat} {i j v : Nat} (hi : vs[i]? = some v)
    (hij : i < j) : ((vs.take i).map degree).sum + degree v ≤ ((vs.take j).map degree).sum := by
  obtain ⟨hlt,rfl⟩ := List.getElem?_eq_some_iff.mp hi
  have htake : vs.take (i+1) = vs.take i ++ [vs[i]] := (List.take_concat_get' vs i hlt).symm
  have hsub := ((List.take_sublist_take_left hij : (vs.take (i+1)).Sublist (vs.take j)).map
    degree).sum_le_sum (by simp)
  rw [htake,List.map_append,List.sum_append] at hsub
  simpa using hsub

theorem exists_place (hsock : 0 < socketNum) {v : Nat} (hv : v < n) :
    ∃ s < socketNum, ∃ i : Nat, (socketVertices socketNum partitions s)[i]? = some v := by
  obtain ⟨p,hp,hb⟩ := exists_partition ht hv
  have hm := (mem_socketVertices socketNum).mpr ⟨p,hp,rfl,hb⟩
  obtain ⟨i,hi⟩ := List.getElem?_of_mem hm
  exact ⟨_,partitionSocket_lt hsock p,i,hi⟩

variable (degree : Nat → Nat)

/-- The adjacency list of a vertex lies inside the edge array of its socket. -/
theorem begins_inside (hsock : 0 < socketNum) {v : Nat} (hv : v < n) :
    (edgeBegins socketNum partitions degree v).1 < socketNum ∧
      (edgeBegins socketNum partitions degree v).2 + degree v ≤
        edgeArrayLength socketNum partitions degree (edgeBegins socketNum partitions degree v).1 := by
  obtain ⟨s,hs,i,hi⟩ := exists_place ht socketNum hsock hv
  rw [edgeBegins_eq ht socketNum degree hs hi]
  refine ⟨hs,?_⟩
  have hlt := (List.getElem?_eq_some_iff.mp hi).1
  have h := sum_take_add_le degree hi hlt
  rwa [List.take_length] at h

/-- The adjacency lists of different vertices do not overlap. -/
theorem begins_disjoint (hsock : 0 < socketNum) {u v : Nat} (hu : u < n) (hv : v < n) (hne : u ≠ v)
    (hs : (edgeBegins socketNum partitions degree u).1 =
      (edgeBegins socketNum partitions degree v).1) :
    (edgeBegins socketNum partitions degree u).2 + degree u ≤
        (edgeBegins socketNum partitions degree v).2 ∨
      (edgeBegins socketNum partitions degree v).2 + degree v ≤
        (edgeBegins socketNum partitions degree u).2 := by
  obtain ⟨s,hsu,i,hi⟩ := exists_place ht socketNum hsock hu
  obtain ⟨s',hsv,j,hj⟩ := exists_place ht socketNum hsock hv
  rw [edgeBegins_eq ht socketNum degree hsu hi,edgeBegins_eq ht socketNum degree hsv hj] at hs ⊢
  obtain rfl : s = s' := hs
  rcases Nat.lt_trichotomy i j with h | rfl | h
  · exact Or.inl (sum_take_add_le degree hi h)
  · rw [hi] at hj
    exact absurd (Option.some.inj hj) hne
  · exact Or.inr (sum_take_add_le degree hj h)

/-- The lists of a partition lie one behind the other. -/
theorem begins_run (hsock : 0 < socketNum) {p x : Nat} (hp : p < partitions.length)
    (hlo : (partitions.getD p (0,0)).1 ≤ x) (hhi : x < (partitions.getD p (0,0)).2) :
    edgeBegins socketNum partitions degree x =
      ((edgeBegins socketNum partitions degree (partitions.getD p (0,0)).1).1,
        (edgeBegins socketNum partitions degree (partitions.getD p (0,0)).1).2 +
          ((List.range' (partitions.getD p (0,0)).1 (x - (partitions.getD p (0,0)).1)).map
            degree).sum) := by
  obtain ⟨off,hrun⟩ := socketVertices_run socketNum hp
  have hs := partitionSocket_lt hsock p
  have hx := hrun x hlo hhi
  have hfirst := hrun _ (Nat.le_refl _) (Nat.lt_of_le_of_lt hlo hhi)
  rw [Nat.sub_self,Nat.add_zero] at hfirst
  rw [edgeBegins_eq ht socketNum degree hs hx,edgeBegins_eq ht socketNum degree hs hfirst,
    List.take_add,List.map_append,List.sum_append]
  congr 3
  refine congrArg (List.map degree) (List.ext_getElem? (fun i => ?_))
  by_cases hi : i < x - (partitions.getD p (0,0)).1
  · have hy := hrun ((partitions.getD p (0,0)).1 + i) (Nat.le_add_right _ _) (by omega)
    rw [Nat.add_sub_cancel_left] at hy
    rw [List.getElem?_take_of_lt hi,List.getElem?_drop,hy,List.getElem?_range' hi,Nat.one_mul]
  · rw [List.getElem?_eq_none (by rw [List.length_take]; omega),
      List.getElem?_eq_none (by rw [List.length_range']; omega)]

end

end FlashMob.Graph
