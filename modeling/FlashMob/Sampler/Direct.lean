import FlashMob.Graph.Edges
import FlashMob.Lib.Loops
import FlashMob.Sampler.Random
import FlashMob.Sampler.Samplers

namespace FlashMob.Sampling
open FlashMob.Graph Lib.Loops Lib.Tiling

def edgesFrom (adj : Nat → AdjList) (v n : Nat) : Nat :=
  ((List.range' v n).map (fun x => (adj x).degree)).sum

/-- The adjacency lists of a partition: one behind the other, from the longest to the shortest,
with fewer edges than 32 bits can count. -/
structure Packed (adj : Nat → AdjList) (b e : Nat) : Prop where
  bound : e < 2 ^ 32
  begins : ∀ x, b ≤ x → x < e →
    (adj x).begin = ((adj b).begin.1, (adj b).begin.2 + edgesFrom adj b (x - b))
  falling : ∀ x y, b ≤ x → x ≤ y → y < e → (adj y).degree ≤ (adj x).degree
  positive : ∀ x, b ≤ x → x < e → 0 < (adj x).degree
  few : edgesFrom adj b (e - b) < 2 ^ 32

/-- The degrees of a partition, however many edges it has: all positive, from the largest to the
smallest. -/
structure Ranked (adj : Nat → AdjList) (b e : Nat) : Prop where
  falling : ∀ x y, b ≤ x → x ≤ y → y < e → (adj y).degree ≤ (adj x).degree
  positive : ∀ x, b ≤ x → x < e → 0 < (adj x).degree

theorem edgesFrom_add (adj : Nat → AdjList) (v m n : Nat) :
    edgesFrom adj v (m + n) = edgesFrom adj v m + edgesFrom adj (v + m) n := by
  rw [edgesFrom,← List.range'_append_1,List.map_append,List.sum_append]
  rfl

theorem edgesFrom_const {adj : Nat → AdjList} {v n d : Nat}
    (h : ∀ x, v ≤ x → x < v + n → (adj x).degree = d) : edgesFrom adj v n = n * d := by
  have hmap : (List.range' v n).map (fun x => (adj x).degree) = List.replicate n d := by
    rw [List.eq_replicate_iff]
    refine ⟨by rw [List.length_map,List.length_range'],?_⟩
    intro y hy
    obtain ⟨x,hx,rfl⟩ := List.mem_map.mp hy
    have hm := List.mem_range'_1.mp hx
    exact h x hm.1 hm.2
  rw [edgesFrom,hmap,List.sum_replicate,smul_eq_mul]

namespace Packed
variable {adj : Nat → AdjList} {b e : Nat} (h : Packed adj b e)
include h

/-- In a run of equal degrees the lists begin at equal distances, and no offset of a list
wraps. -/
theorem run {a x d : Nat} (ha : b ≤ a) (hax : a ≤ x) (hx : x < e)
    (hd : ∀ y, a ≤ y → y ≤ x → (adj y).degree = d) :
    (adj x).begin = ((adj a).begin.1,(adj a).begin.2 + (x - a) * d) ∧
      (x - a) * d + d < 2 ^ 32 := by
  have hbefore : edgesFrom adj a (x - a) = (x - a) * d :=
    edgesFrom_const (fun y hy hlt => hd y hy (by omega))
  have hrun : edgesFrom adj a (x - a + 1) = (x - a + 1) * d :=
    edgesFrom_const (fun y hy hlt => hd y hy (by omega))
  have hsplit := edgesFrom_add adj b (a - b) (x - a)
  have hall := edgesFrom_add adj b (a - b) (x - a + 1 + (e - (x + 1)))
  have htail := edgesFrom_add adj a (x - a + 1) (e - (x + 1))
  rw [Nat.add_sub_cancel' ha] at hsplit hall
  have hfew := h.few
  rw [show e - b = a - b + (x - a + 1 + (e - (x + 1))) by omega] at hfew
  rw [Nat.add_mul,Nat.one_mul] at hrun
  refine ⟨?_,by omega⟩
  rw [h.begins x (Nat.le_trans ha hax) hx,h.begins a ha (Nat.lt_of_le_of_lt hax hx),
    show x - b = a - b + (x - a) by omega,hsplit,hbefore,Nat.add_assoc]

/-- The 32-bit index into a run of equal degrees finds the entry of the vertex's own list. -/
theorem read_run {ρ : Type} [RandGen ρ] (content : Slot → Nat) {a x d : Nat} (ha : b ≤ a)
    (hax : a ≤ x) (hx : x < e) (hd : ∀ y, a ≤ y → y ≤ x → (adj y).degree = d) (rd : ρ) :
    (content ((adj a).begin.1,(adj a).begin.2 +
        u32 (u32 (u32Sub x a * d) + (RandGen.gen d rd).1)),(RandGen.gen d rd).2) =
      DirectSampler.sample content ⟨adj⟩ x rd := by
  obtain ⟨hbegin,hfit⟩ := h.run ha hax hx hd
  have hdx := hd x hax (Nat.le_refl _)
  have hpos : 0 < d := hdx ▸ h.positive x (Nat.le_trans ha hax) hx
  have hgen := RandGen.gen_lt d rd hpos
  have hbound := h.bound
  rw [u32Sub_of_le hax (by omega),u32_of_lt (show (x - a) * d < 2 ^ 32 by omega),u32_of_lt (by omega),
    DirectSampler.sample,hbegin,hdx,Nat.add_assoc]

end Packed

theorem UniformDegreeDirectSampler.sample_eq {ρ : Type} [RandGen ρ] {adj : Nat → AdjList}
    {b e : Nat} (h : Packed adj b e)
    (hd : ∀ x, b ≤ x → x < e → (adj x).degree = (adj b).degree) (content : Slot → Nat) {v : Nat}
    (hlo : b ≤ v) (hhi : v < e) (rd : ρ) :
    (UniformDegreeDirectSampler.init b adj).sample content v rd =
      DirectSampler.sample content ⟨adj⟩ v rd :=
  h.read_run content (Nat.le_refl b) hlo hhi (fun y hy hyv => hd y hy (by omega)) rd

def AdjHint.range (h : AdjHint) : Nat × Nat := (h.vertexBegin,h.vertexEnd)

structure AdjHint.Describes (adj : Nat → AdjList) (h : AdjHint) : Prop where
  nonempty : h.vertexBegin < h.vertexEnd
  degree : ∀ x, h.vertexBegin ≤ x → x < h.vertexEnd → (adj x).degree = h.degree
  edgeBegin : h.edgeBegin = (adj h.vertexBegin).begin

structure Recorded (adj : Nat → AdjList) (b x : Nat) (hints : List AdjHint) : Prop where
  tiles : Tiles b (hints.map AdjHint.range) x
  describes : ∀ h ∈ hints, h.Describes adj
  falling : hints.Pairwise (fun h h' => h'.degree < h.degree)

namespace Recorded
variable {adj : Nat → AdjList} {b x : Nat}

/-- A vertex of the same degree extends the last run. -/
theorem extend {closed : List AdjHint} {last : AdjHint}
    (h : Recorded adj b x (closed ++ [{ last with vertexEnd := x }]))
    (hd : last.degree = (adj x).degree) :
    Recorded adj b (x+1) (closed ++ [{ last with vertexEnd := x + 1 }]) := by
  have hlast := h.describes { last with vertexEnd := x } (by simp)
  have hlt : last.vertexBegin < x := hlast.nonempty
  refine ⟨?_,?_,?_⟩
  · have ht := h.tiles
    rw [List.map_append,tiles_append] at ht ⊢
    obtain ⟨m,hclosed,hm,_,_⟩ := ht
    exact ⟨m,hclosed,hm,Nat.le_succ_of_le (Nat.le_of_lt hlt),rfl⟩
  · intro q hq
    rcases List.mem_append.mp hq with hq | hq
    · exact h.describes q (List.mem_append_left _ hq)
    · obtain rfl := List.mem_singleton.mp hq
      refine ⟨Nat.lt_succ_of_lt hlt,?_,hlast.edgeBegin⟩
      intro y hlo hhi
      rcases Nat.lt_or_eq_of_le (Nat.le_of_lt_succ hhi) with hy | rfl
      · exact hlast.degree y hlo hy
      · exact hd.symm
  · have hf := h.falling
    rw [List.pairwise_append] at hf ⊢
    refine ⟨hf.1,List.pairwise_singleton _ _,?_⟩
    intro q hq q' hq'
    obtain rfl := List.mem_singleton.mp hq'
    exact hf.2.2 q hq { last with vertexEnd := x } (List.mem_singleton_self _)

theorem push {hints : List AdjHint} (h : Recorded adj b x hints)
    (hd : ∀ q ∈ hints, (adj x).degree < q.degree) :
    Recorded adj b (x+1) (hints ++ [⟨x,x + 1,(adj x).degree,(adj x).begin⟩]) := by
  refine ⟨?_,?_,?_⟩
  · rw [List.map_append,tiles_append]
    exact ⟨x,h.tiles,rfl,Nat.le_succ x,rfl⟩
  · intro q hq
    rcases List.mem_append.mp hq with hq | hq
    · exact h.describes q hq
    · obtain rfl := List.mem_singleton.mp hq
      refine ⟨Nat.lt_succ_self x,?_,rfl⟩
      intro y hlo hhi
      rw [Nat.le_antisymm (Nat.le_of_lt_succ hhi) hlo]
  · refine List.pairwise_append.mpr ⟨h.falling,List.pairwise_singleton _ _,?_⟩
    intro q hq q' hq'
    obtain rfl := List.mem_singleton.mp hq'
    exact hd q hq

theorem degrees_nodup {hints : List AdjHint} (h : Recorded adj b x hints) :
    (hints.map AdjHint.degree).Nodup :=
  List.Pairwise.map _ (fun _ _ hlt => Nat.ne_of_gt hlt) h.falling

/-- There are no more hints than degrees. -/
theorem length_le {hints : List AdjHint} (h : Recorded adj b x hints) {least most : Nat}
    (hd : ∀ y, b ≤ y → y < x → least ≤ (adj y).degree ∧ (adj y).degree ≤ most) :
    hints.length ≤ most - least + 1 := by
  have hsub : (hints.map AdjHint.degree).toFinset ⊆ Finset.Icc least most := by
    intro d hm
    obtain ⟨q,hq,rfl⟩ := List.mem_map.mp (List.mem_toFinset.mp hm)
    have hdesc := h.describes q hq
    have hin := h.tiles.mem_bounds (List.mem_map_of_mem hq)
    have hend : q.vertexEnd ≤ x := hin.2.2
    have hbounds := hd q.vertexBegin hin.1 (Nat.lt_of_lt_of_le hdesc.nonempty hend)
    rw [hdesc.degree _ (Nat.le_refl _) hdesc.nonempty] at hbounds
    exact Finset.mem_Icc.mpr hbounds
  have hcard := Finset.card_le_card hsub
  rw [List.toFinset_card_of_nodup h.degrees_nodup,List.length_map,Nat.card_Icc] at hcard
  omega

end Recorded

namespace SimilarDegreeDirectSampler

theorem closeLast_concat (v : Nat) (hints : List AdjHint) (h : AdjHint) :
    closeLast v (hints ++ [h]) = hints ++ [{ h with vertexEnd := v }] := by
  induction hints with
  | nil => rfl
  | cons q hints ih =>
    cases hints with
    | nil => rfl
    | cons q' hints =>
      rw [List.cons_append,List.cons_append,closeLast,← List.cons_append,ih]
      rfl

variable {adj : Nat → AdjList} {b e : Nat}

section
variable (h : Ranked adj b e)
include h

/-- The loop of `init` records the runs of equal degrees. -/
theorem initStep_recorded (n : Nat) (hn : b + n < e) :
    ∃ closed last, (List.range' b (n+1)).foldl (initStep adj) (0,[]) =
        (last.degree,closed ++ [last]) ∧
      Recorded adj b (b + n + 1) (closed ++ [{ last with vertexEnd := b + n + 1 }]) := by
  induction n with
  | zero =>
    refine ⟨[],⟨b,0,(adj b).degree,(adj b).begin⟩,?_,?_⟩
    · have hpos := h.positive b (Nat.le_refl b) hn
      rw [List.range'_one,List.foldl_cons,List.foldl_nil,initStep,if_pos (by omega)]
      rfl
    · exact Recorded.push ⟨rfl,by simp,List.Pairwise.nil⟩ (by simp)
  | succ n ih =>
    obtain ⟨closed,last,hfold,hrec⟩ := ih (by omega)
    rw [List.range'_1_concat,List.foldl_append,hfold,List.foldl_cons,List.foldl_nil,initStep]
    by_cases hd : last.degree = (adj (b + (n+1))).degree
    · rw [if_neg (by simpa using hd)]
      exact ⟨closed,last,rfl,hrec.extend hd⟩
    · rw [if_pos hd,closeLast_concat]
      refine ⟨_,⟨b + (n+1),0,_,_⟩,rfl,hrec.push ?_⟩
      have hlast : (adj (b + (n+1))).degree < last.degree := by
        have hdesc := hrec.describes { last with vertexEnd := b + n + 1 } (by simp)
        have hin := hrec.tiles.mem_bounds (List.mem_map_of_mem
          (show { last with vertexEnd := b + n + 1 } ∈ _ by simp))
        have hfirst := hdesc.degree _ (Nat.le_refl _) hdesc.nonempty
        have hle := h.falling last.vertexBegin (b + (n+1)) hin.1
          (Nat.le_of_lt hdesc.nonempty) hn
        simp only at hfirst
        omega
      intro q hq
      rcases List.mem_append.mp hq with hq | hq
      · have hfall := (List.pairwise_append.mp hrec.falling).2.2 q hq _
          (List.mem_singleton_self _)
        exact Nat.lt_trans hlast hfall
      · obtain rfl := List.mem_singleton.mp hq
        exact hlast

/-- With at most eight degrees, `init` succeeds and its hints tile the vertices. -/
theorem init_recorded (hne : b < e) {least most : Nat}
    (hd : ∀ x, b ≤ x → x < e → least ≤ (adj x).degree ∧ (adj x).degree ≤ most)
    (hfew : most - least + 1 ≤ similarDegreeDirectSamplerMaxHintNum) :
    ∃ s, init b e adj = some s ∧ s.hints ≠ [] ∧
      s.hints.length ≤ similarDegreeDirectSamplerMaxHintNum ∧ Recorded adj b e s.hints := by
  obtain ⟨closed,last,hfold,hrec⟩ := initStep_recorded h (e - b - 1) (by omega)
  rw [show b + (e - b - 1) + 1 = e by omega] at hrec
  rw [show e - b - 1 + 1 = e - b by omega] at hfold
  have hlen := Nat.le_trans (hrec.length_le hd) hfew
  have hlen' : ¬ (closed ++ [last] = [] ∨
      similarDegreeDirectSamplerMaxHintNum < (closed ++ [last]).length) := by
    simp only [List.length_append,List.length_singleton] at hlen ⊢
    simp only [List.append_eq_nil_iff,List.cons_ne_self,and_false,false_or]
    omega
  refine ⟨⟨closed ++ [{ last with vertexEnd := e }]⟩,?_,by simp,hlen,hrec⟩
  rw [init,hfold,if_neg hlen',closeLast_concat]

end

theorem findHint_recorded {s : SimilarDegreeDirectSampler} (hs : Recorded adj b e s.hints)
    {v : Nat} (hlo : b ≤ v) (hhi : v < e) :
    ∃ q ∈ s.hints, s.findHint v = some q ∧ q.vertexBegin ≤ v ∧ v < q.vertexEnd := by
  obtain ⟨r,hr,hb⟩ := hs.tiles.find?_end hlo hhi
  rw [List.find?_map] at hr
  obtain ⟨q,hq,rfl⟩ := Option.map_eq_some_iff.mp hr
  exact ⟨q,List.mem_of_find?_eq_some hq,hq,hb⟩

theorem sample_eq {ρ : Type} [RandGen ρ] (h : Packed adj b e) {s : SimilarDegreeDirectSampler}
    (hs : Recorded adj b e s.hints) (content : Slot → Nat) {v : Nat} (hlo : b ≤ v) (hhi : v < e)
    (rd : ρ) : (s.findHint v).isSome ∧
      s.sample content v rd = DirectSampler.sample content ⟨adj⟩ v rd := by
  obtain ⟨q,hm,hfind,hbegin,hend⟩ := findHint_recorded hs hlo hhi
  have hdesc := hs.describes q hm
  have hin := hs.tiles.mem_bounds (List.mem_map_of_mem hm)
  refine ⟨by rw [hfind]; rfl,?_⟩
  rw [sample,hfind]
  simp only [hdesc.edgeBegin]
  exact h.read_run content hin.1 hbegin hhi
    (fun y hy hyv => hdesc.degree y hy (Nat.lt_of_le_of_lt hyv hend)) rd

end SimilarDegreeDirectSampler

section
variable {D : Type} {cfg : MultiThreadConfig} (hint : GraphHint D)
  (schedule : List (Nat × Nat) → List (Nat × Nat)) {g : Loaded} (hg : Sorted g)
  {partitions : List (Nat × Nat)} (ht : Tiles 0 partitions g.vNum) {units : Nat → VertexSortUnit}
  (hr : Redistributed partitions g.vNum g.unit units)

include hg hr in
/-- Dealing gives every vertex one of the loaded degrees. -/
theorem dealt_degree {x : Nat} (hx : x < g.vNum) :
    0 < (units x).degree ∧ (units x).degree < uintMax := by
  have hm := hr.perm.mem_iff.mp (List.mem_map_of_mem (List.mem_range.mpr hx))
  obtain ⟨v,hv,he⟩ := List.mem_map.mp hm
  rw [← he]
  exact hg.degrees v (List.mem_range.mp hv)

include ht in
theorem partition_bounds {p : Nat} (hp : p < partitions.length) :
    (partitions.getD p (0,0)).2 ≤ g.vNum := by
  rw [List.getD_eq_getElem _ _ hp]
  exact (ht.mem_bounds (List.getElem_mem hp)).2.2

include hg ht hr in
theorem assemble_ranked (k : Nat) {p s : Nat} (hp : p < partitions.length)
    (hs : s < cfg.socketNum) :
    Ranked ((assemble cfg hint schedule g partitions k units).adjlists s)
      (partitions.getD p (0,0)).1 (partitions.getD p (0,0)).2 := by
  have htable := assemble_adjlists hint schedule g partitions k units hs
  have hend := partition_bounds ht hp
  rw [htable]
  refine ⟨?_,?_⟩
  · intro x y hx hxy hy
    rcases Nat.lt_or_eq_of_le hxy with hlt | rfl
    · exact hr.sorted hg.sorted p hp x y hx hlt hy
    · exact Nat.le_refl _
  · intro x _ hx
    exact (dealt_degree hg hr (Nat.lt_of_lt_of_le hx hend)).1

include hg ht hr in
theorem assemble_packed (k : Nat) {p s : Nat} (hp : p < partitions.length)
    (hs : s < cfg.socketNum)
    (hedges : ((vertices (partitions.getD p (0,0))).map (fun v => (units v).degree)).sum < 2 ^ 32) :
    Packed ((assemble cfg hint schedule g partitions k units).adjlists s)
      (partitions.getD p (0,0)).1 (partitions.getD p (0,0)).2 := by
  have htable := assemble_adjlists hint schedule g partitions k units hs
  have hend := partition_bounds ht hp
  have hranked := assemble_ranked hint schedule hg ht hr k hp hs
  rw [htable] at hranked ⊢
  refine ⟨Nat.lt_of_le_of_lt hend hg.vNum_lt,?_,hranked.falling,hranked.positive,hedges⟩
  intro x hlo hhi
  exact begins_run ht cfg.socketNum _ (Nat.zero_lt_of_lt hs) hp hlo hhi

include hg ht hr in
/-- The statistics of a partition bound the degrees of its vertices. -/
theorem assemble_degrees (k : Nat) {p s x : Nat} (hp : p < partitions.length)
    (hs : s < cfg.socketNum) (hlo : (partitions.getD p (0,0)).1 ≤ x)
    (hhi : x < (partitions.getD p (0,0)).2) :
    (assemble cfg hint schedule g partitions k units).partitionMinDegree.getD p 0 ≤
        ((assemble cfg hint schedule g partitions k units).adjlists s x).degree ∧
      ((assemble cfg hint schedule g partitions k units).adjlists s x).degree ≤
        (assemble cfg hint schedule g partitions k units).partitionMaxDegree.getD p 0 ∧
      (assemble cfg hint schedule g partitions k units).partitionMaxDegree.getD p 0 < uintMax := by
  have htable := assemble_degree hint schedule g partitions k units hs x
  have hm : x ∈ vertices (partitions.getD p (0,0)) := mem_vertices.mpr ⟨hlo,hhi⟩
  have hend := partition_bounds ht hp
  rw [List.getD_eq_getElem _ _ hp] at hm hend
  rw [htable,List.getD_eq_getElem _ _ (by simpa [assemble] using hp),
    List.getD_eq_getElem _ _ (by simpa [assemble] using hp)]
  simp only [assemble,List.getElem_map]
  refine ⟨((le_foldl_min_iff _ _ _ _).mp (Nat.le_refl _)).2 x hm,
    ((foldl_max_le_iff (fun v => (units v).degree) _ _ _).mp (Nat.le_refl _)).2 x hm,?_⟩
  apply Nat.lt_of_le_pred (by decide)
  refine (foldl_max_le_iff _ _ _ _).mpr ⟨Nat.zero_le _,?_⟩
  intro y hy
  have hdegree := (dealt_degree hg hr (Nat.lt_of_lt_of_le (mem_vertices.mp hy).2 hend)).2
  exact Nat.le_pred_of_lt hdegree

end

section
variable {D : Type} {edges : List (Nat × Nat)} {asUndirected : Bool} {cfg : MultiThreadConfig}
  {hint : GraphHint D} {schedule : List (Nat × Nat) → List (Nat × Nat)} {g : Loaded} {made : Made}
  (hload : load edges asUndirected = some g) (hmake : make cfg hint schedule g = some made)
  (ht : Tiles 0 made.partitions made.vNum) (hsock : 0 < cfg.socketNum) {p : Nat}
  (hp : p < made.partitionNum)
include hload hmake ht hsock hp

theorem make_degrees : made.partitionEnd p < 2 ^ 32 ∧
    ∀ x, made.partitionBegin p ≤ x → x < made.partitionEnd p →
      made.partitionMinDegree.getD p 0 ≤
          (made.adjlists (partitionSocket made.socketNum p) x).degree ∧
        (made.adjlists (partitionSocket made.socketNum p) x).degree ≤
          made.partitionMaxDegree.getD p 0 ∧
        made.partitionMaxDegree.getD p 0 < uintMax := by
  obtain ⟨k,units,he,hr⟩ := make_dealt hmake ht
  obtain ⟨hnum,_,_,hsocket⟩ := make_sizes hmake
  have hs : partitionSocket made.socketNum p < cfg.socketNum := hsocket ▸ partitionSocket_lt hsock p
  rw [hnum] at ht
  have hdegrees := fun x =>
    assemble_degrees hint schedule (load_sorted hload) ht hr k hp hs (x := x)
  rw [← he] at hdegrees
  exact ⟨Nat.lt_of_le_of_lt (partition_bounds ht hp) (load_sorted hload).vNum_lt,hdegrees⟩

theorem make_ranked : Ranked (made.adjlists (partitionSocket made.socketNum p))
    (made.partitionBegin p) (made.partitionEnd p) := by
  obtain ⟨k,units,he,hr⟩ := make_dealt hmake ht
  obtain ⟨hnum,_,_,hsocket⟩ := make_sizes hmake
  have hs : partitionSocket made.socketNum p < cfg.socketNum := hsocket ▸ partitionSocket_lt hsock p
  rw [hnum] at ht
  have hranked := assemble_ranked hint schedule (load_sorted hload) ht hr k hp hs
  rwa [← he] at hranked

/-- What the specialised samplers rely on holds for every graph from `load` and `make`, when the
edges of the partition can be counted in 32 bits. -/
theorem make_packed (hedges : made.partitionEdgeNum.getD p 0 < 2 ^ 32) :
    Packed (made.adjlists (partitionSocket made.socketNum p)) (made.partitionBegin p)
      (made.partitionEnd p) := by
  obtain ⟨k,units,he,hr⟩ := make_dealt hmake ht
  obtain ⟨hnum,_,_,hsocket⟩ := make_sizes hmake
  have hs : partitionSocket made.socketNum p < cfg.socketNum := hsocket ▸ partitionSocket_lt hsock p
  have htotal : made.partitionEdgeNum.getD p 0 =
      ((vertices (made.partitions.getD p (0,0))).map (fun v => (units v).degree)).sum := by
    have hstat : made.partitionEdgeNum = made.partitions.map
        (fun r => ((vertices r).map (fun v => (units v).degree)).sum) :=
      congrArg Made.partitionEdgeNum he
    rw [hstat,List.getD_eq_getElem _ _ (by rw [List.length_map]; exact hp),List.getElem_map,
      List.getD_eq_getElem _ _ hp]
    rfl
  rw [hnum] at ht
  rw [htotal] at hedges
  have hpacked := assemble_packed hint schedule (load_sorted hload) ht hr k hp hs hedges
  rwa [← he] at hpacked

omit hload hp in
theorem make_unit_degree {x : Nat} (hx : x < made.vNum) : ∃ v < g.vNum,
    (made.adjlists (partitionSocket made.socketNum p) x).degree = (g.unit v).degree := by
  obtain ⟨k,units,he,hr⟩ := make_dealt hmake ht
  obtain ⟨hnum,_,_,hsocket⟩ := make_sizes hmake
  have hs : partitionSocket made.socketNum p < cfg.socketNum := hsocket ▸ partitionSocket_lt hsock p
  have htable := assemble_degree hint schedule g made.partitions k units hs x
  rw [← he] at htable
  have hm := hr.perm.mem_iff.mp (List.mem_map_of_mem (List.mem_range.mpr (hnum ▸ hx)))
  obtain ⟨v,hv,hunit⟩ := List.mem_map.mp hm
  exact ⟨v,List.mem_range.mp hv,by rw [htable,hunit]⟩

/-- Under the sampler for equal degrees the degrees of a partition are equal. -/
theorem uniform_degrees {l2CacheSize : Nat}
    (hchosen : Sampler.chosen made l2CacheSize p = .classUniformDegreeDirectSampler) {x y : Nat}
    (hx : made.partitionBegin p ≤ x) (hxe : x < made.partitionEnd p)
    (hy : made.partitionBegin p ≤ y) (hye : y < made.partitionEnd p) :
    (made.adjlists (partitionSocket made.socketNum p) x).degree =
      (made.adjlists (partitionSocket made.socketNum p) y).degree := by
  have hdegrees := (make_degrees hload hmake ht hsock hp).2
  have hequal : made.partitionMinDegree.getD p 0 = made.partitionMaxDegree.getD p 0 := by
    rw [Sampler.chosen] at hchosen
    split_ifs at hchosen with _ h
    exact h
  have hdx := hdegrees x hx hxe
  have hdy := hdegrees y hy hye
  omega

theorem install_uniform (hedges : made.partitionEdgeNum.getD p 0 < 2 ^ 32)
    (hne : made.partitionBegin p < made.partitionEnd p) (l2CacheSize : Nat)
    (hchosen : Sampler.chosen made l2CacheSize p = .classUniformDegreeDirectSampler) :
    ∃ s, Sampler.install made l2CacheSize p = some (.uniform s) ∧
      ∀ {ρ : Type} [RandGen ρ] (content : Slot → Nat) (v : Nat), made.partitionBegin p ≤ v →
        v < made.partitionEnd p → ∀ rd : ρ, s.sample content v rd = DirectSampler.sample content
          ⟨made.adjlists (partitionSocket made.socketNum p)⟩ v rd := by
  have hpacked := make_packed hload hmake ht hsock hp hedges
  refine ⟨_,by rw [Sampler.install,hchosen],?_⟩
  intro ρ _ content v hlo hhi rd
  exact UniformDegreeDirectSampler.sample_eq hpacked (fun x hx hxe =>
    uniform_degrees hload hmake ht hsock hp hchosen hx hxe (Nat.le_refl _) hne) content hlo hhi rd

theorem install_similar (hne : made.partitionBegin p < made.partitionEnd p) (l2CacheSize : Nat)
    (hchosen : Sampler.chosen made l2CacheSize p = .classSimilarDegreeDirectSampler) :
    ∃ s, Sampler.install made l2CacheSize p = some (.similar s) ∧ s.hints ≠ [] ∧
      s.hints.length ≤ similarDegreeDirectSamplerMaxHintNum ∧
      Recorded (made.adjlists (partitionSocket made.socketNum p)) (made.partitionBegin p)
        (made.partitionEnd p) s.hints := by
  have hranked := make_ranked hload hmake ht hsock hp
  have hdegrees := (make_degrees hload hmake ht hsock hp).2
  have hvalid : SimilarDegreeDirectSampler.valid p l2CacheSize made = true := by
    rw [Sampler.chosen] at hchosen
    split_ifs at hchosen with _ _ h
    exact h
  have hfew : made.partitionMaxDegree.getD p 0 - made.partitionMinDegree.getD p 0 + 1 ≤
      similarDegreeDirectSamplerMaxHintNum := by
    have hdb := hdegrees _ (Nat.le_refl _) hne
    have huint : uintMax = 2 ^ 32 - 1 := rfl
    rw [SimilarDegreeDirectSampler.valid,u32Sub_of_le (by omega) (by omega),
      u32_of_lt (by omega)] at hvalid
    split_ifs at hvalid with hspread
    exact Nat.le_of_not_lt hspread
  obtain ⟨s,hinit,hhints,hlen,hrec⟩ := SimilarDegreeDirectSampler.init_recorded hranked hne
    (fun x hx hxe => ⟨(hdegrees x hx hxe).1,(hdegrees x hx hxe).2.1⟩) hfew
  refine ⟨s,?_,hhints,hlen,hrec⟩
  rw [Sampler.install,hchosen]
  simp only [hinit,Option.map_some]

end

/-- For every partition with a sampler for equal or for similar degrees, the sampler agrees
with direct sampling, whatever the edge arrays hold. -/
theorem specialised_samplers_agree {D ρ : Type} [RandGen ρ] {edges : List (Nat × Nat)}
    {asUndirected : Bool} {cfg : MultiThreadConfig} {hint : GraphHint D}
    {schedule : List (Nat × Nat) → List (Nat × Nat)} {g : Loaded} {made : Made}
    (hload : load edges asUndirected = some g) (hmake : make cfg hint schedule g = some made)
    (ht : Tiles 0 made.partitions made.vNum) (hsock : 0 < cfg.socketNum) {p : Nat}
    (hp : p < made.partitionNum) (hne : made.partitionBegin p < made.partitionEnd p)
    (hedges : made.partitionEdgeNum.getD p 0 < 2 ^ 32) (content : Slot → Nat)
    (l2CacheSize : Nat) :
    (Sampler.chosen made l2CacheSize p = .classUniformDegreeDirectSampler →
      ∃ s, Sampler.install made l2CacheSize p = some (.uniform s) ∧
        ∀ v, made.partitionBegin p ≤ v → v < made.partitionEnd p → ∀ rd : ρ,
          s.sample content v rd = DirectSampler.sample content
            ⟨made.adjlists (partitionSocket made.socketNum p)⟩ v rd) ∧
    (Sampler.chosen made l2CacheSize p = .classSimilarDegreeDirectSampler →
      ∃ s, Sampler.install made l2CacheSize p = some (.similar s) ∧
        1 ≤ s.hints.length ∧ s.hints.length ≤ similarDegreeDirectSamplerMaxHintNum ∧
        Tiles (made.partitionBegin p) (s.hints.map AdjHint.range) (made.partitionEnd p) ∧
        ∀ v, made.partitionBegin p ≤ v → v < made.partitionEnd p → ∀ rd : ρ,
          (s.findHint v).isSome ∧
          s.sample content v rd = DirectSampler.sample content
            ⟨made.adjlists (partitionSocket made.socketNum p)⟩ v rd) := by
  constructor
  · intro hchosen
    obtain ⟨s,hinstall,hsample⟩ :=
      install_uniform hload hmake ht hsock hp hedges hne l2CacheSize hchosen
    exact ⟨s,hinstall,hsample content⟩
  · intro hchosen
    have hpacked := make_packed hload hmake ht hsock hp hedges
    obtain ⟨s,hinstall,hhints,hlen,hrec⟩ :=
      install_similar hload hmake ht hsock hp hne l2CacheSize hchosen
    refine ⟨s,hinstall,List.length_pos_iff.mpr hhints,hlen,hrec.tiles,?_⟩
    intro v hlo hhi rd
    exact SimilarDegreeDirectSampler.sample_eq hpacked hrec content hlo hhi rd

theorem specialised_samplers_agree_star :
    let hint : GraphHint Unit := ⟨2,1,[⟨0,3,2,1,(),(),0⟩],[]⟩
    ∃ g made s, load [(5,6),(5,7)] true = some g ∧ make ⟨2,2,0⟩ hint id g = some made ∧
      Sampler.install made 0 0 = some (.similar s) ∧
      s.hints.length ≤ similarDegreeDirectSamplerMaxHintNum ∧
      ∀ rd : XorRandGen, s.sample made.edges 2 rd =
        DirectSampler.sample made.edges ⟨made.adjlists 0⟩ 2 rd := by
  intro hint
  obtain ⟨g,hg⟩ := Option.isSome_iff_exists.mp
    (show (load [(5,6),(5,7)] true).isSome = true by decide)
  have hfacts : ((load [(5,6),(5,7)] true).bind (make ⟨2,2,0⟩ hint id)).map (fun made =>
      (made.vNum,made.socketNum,made.partitions,made.partitionEdgeNum,
        Sampler.chosen made 0 0)) =
      some (3,2,[(0,3)],[4],.classSimilarDegreeDirectSampler) := by decide
  obtain ⟨made,hmade,hfacts⟩ := Option.map_eq_some_iff.mp hfacts
  rw [hg,Option.bind_some] at hmade
  obtain ⟨hv,hs,hparts,hedges,hchosen⟩ : made.vNum = 3 ∧ made.socketNum = 2 ∧
      made.partitions = [(0,3)] ∧ made.partitionEdgeNum = [4] ∧
      Sampler.chosen made 0 0 = .classSimilarDegreeDirectSampler := by
    simpa only [Prod.mk.injEq] using hfacts
  have hbegin : made.partitionBegin 0 = 0 := by rw [Made.partitionBegin,hparts]; rfl
  have hend : made.partitionEnd 0 = 3 := by rw [Made.partitionEnd,hparts]; rfl
  obtain ⟨s,hinstall,_,hlen,_,hsample⟩ := (specialised_samplers_agree (ρ := XorRandGen) hg hmade
    (by rw [hparts,hv]; exact ⟨rfl,by decide,rfl⟩) (by decide) (p := 0)
    (by rw [Made.partitionNum,hparts]; decide) (by rw [hbegin,hend]; decide)
    (by rw [hedges]; decide) made.edges 0).2 hchosen
  refine ⟨g,made,s,hg,hmade,hinstall,hlen,fun rd => ?_⟩
  have h := (hsample 2 (by omega) (by omega) rd).2
  rwa [hs] at h

end FlashMob.Sampling
