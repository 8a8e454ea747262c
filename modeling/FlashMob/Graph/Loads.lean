import FlashMob.Graph.Make
import FlashMob.Graph.Rename
import FlashMob.Graph.Sort

namespace FlashMob.Graph

/-- The edge lists that `load` can count in 32 bits: fewer names than ids, every name the
source of an edge unless the graph is undirected, and no name with too many ends. -/
structure Loadable (asUndirected : Bool) (edges : List (Nat × Nat)) : Prop where
  few : (names edges).dedup.length < uintMax
  sources : asUndirected = false → ∀ n ∈ names edges, n ∈ edges.map Prod.fst
  counts : ∀ n, (ends asUndirected edges).count n < uintMax

/-- What `load` leaves, for the names in the order of their ids. -/
structure LoadOk (edges : List (Nat × Nat)) (asUndirected : Bool) (seen : List Nat)
    (g : Loaded) : Prop where
  nodup : seen.Nodup
  seen_iff : ∀ n, n ∈ seen ↔ n ∈ names edges
  few : seen.length < uintMax
  undirected : g.asUndirected = asUndirected
  vNum : g.vNum = seen.length
  rawEdges : g.rawEdges = edges.map (fun e => (seen.idxOf e.1,seen.idxOf e.2))
  ids : ∀ n, g.name2id.getD n uintMax = if n ∈ seen then seen.idxOf n else uintMax
  units : g.vertexUnits.Perm ((List.range g.vNum).map
    (fun v => ⟨v,(ends asUndirected g.rawEdges).count v⟩))
  sorted : ∀ i j, i ≤ j → j < g.vNum → (g.unit j).degree ≤ (g.unit i).degree
  degrees : ∀ v < g.vNum, (ends asUndirected g.rawEdges).count v ≠ 0 ∧
    (ends asUndirected g.rawEdges).count v < uintMax

theorem mem_ends_names {asUndirected : Bool} {edges : List (Nat × Nat)} {n : Nat}
    (h : n ∈ ends asUndirected edges) : n ∈ names edges := by
  obtain ⟨e,he,hn⟩ := List.mem_flatMap.mp h
  refine List.mem_flatMap.mpr ⟨e,he,?_⟩
  cases asUndirected with
  | true => exact hn
  | false =>
    rw [if_neg (by decide),List.mem_singleton] at hn
    simp [hn]

theorem Loadable.mem_ends {asUndirected : Bool} {edges : List (Nat × Nat)}
    (h : Loadable asUndirected edges) {n : Nat} (hn : n ∈ names edges) :
    n ∈ ends asUndirected edges := by
  cases asUndirected with
  | true => exact hn
  | false =>
    obtain ⟨e,he,rfl⟩ := List.mem_map.mp (h.sources rfl n hn)
    exact List.mem_flatMap.mpr ⟨e,he,by simp⟩

theorem ends_map (asUndirected : Bool) (edges : List (Nat × Nat)) (f : Nat → Nat) :
    ends asUndirected (edges.map (fun e => (f e.1,f e.2))) = (ends asUndirected edges).map f := by
  rw [ends,ends,List.flatMap_map,List.map_flatMap]
  congr 1
  funext e
  cases asUndirected <;> rfl

/-- A renaming that keeps names apart keeps their counts. -/
theorem count_map_of_injOn {l : List Nat} {f : Nat → Nat} {n : Nat}
    (hf : ∀ m ∈ l, f m = f n → m = n) : (l.map f).count (f n) = l.count n := by
  rw [List.count_eq_countP,List.count_eq_countP,List.countP_map]
  apply List.countP_congr
  intro m hm
  simp only [Function.comp_apply,beq_iff_eq]
  constructor
  · exact hf m hm
  · rintro rfl
    rfl

/-- The id of a name counts as often as the name. -/
theorem count_ends_idxOf {edges : List (Nat × Nat)} {seen : List Nat} (asUndirected : Bool)
    (hnodup : seen.Nodup) (hseen : ∀ n, n ∈ seen ↔ n ∈ names edges) {v : Nat}
    (hv : v < seen.length) :
    (ends asUndirected (edges.map (fun e => (seen.idxOf e.1,seen.idxOf e.2)))).count v =
      (ends asUndirected edges).count seen[v] := by
  have hid := hnodup.idxOf_getElem v hv
  have hinj : ∀ m ∈ ends asUndirected edges, seen.idxOf m = seen.idxOf seen[v] → m = seen[v] :=
    fun m hm => (List.idxOf_inj ((hseen m).mpr (mem_ends_names hm))).mp
  have hmap := count_map_of_injOn (f := fun n => seen.idxOf n) hinj
  simp only [hid] at hmap
  rw [ends_map asUndirected edges (fun n => seen.idxOf n)]
  exact hmap

theorem load_loadOk {edges : List (Nat × Nat)} {asUndirected : Bool}
    (h : Loadable asUndirected edges) :
    ∃ seen g, load edges asUndirected = some g ∧ LoadOk edges asUndirected seen g := by
  obtain ⟨seen,hr⟩ := rename_renamed edges (Nat.le_of_lt h.few)
  have hnum : (rename edges).vNum = seen.length := hr.named.vNum
  have hcount : ∀ v < (rename edges).vNum, ∃ n ∈ names edges,
      (ends asUndirected (rename edges).edges).count v = (ends asUndirected edges).count n := by
    intro v hv
    have hv' : v < seen.length := hnum ▸ hv
    rw [hr.edges,count_ends_idxOf asUndirected hr.named.nodup hr.seen_iff hv']
    exact ⟨_,(hr.seen_iff _).mp (List.getElem_mem hv'),rfl⟩
  have hdegrees : ∀ v < (rename edges).vNum,
      (ends asUndirected (rename edges).edges).count v ≠ 0 ∧
      (ends asUndirected (rename edges).edges).count v < uintMax := by
    intro v hv
    obtain ⟨n,hn,he⟩ := hcount v hv
    rw [he]
    exact ⟨Nat.ne_of_gt (List.count_pos_iff.mpr (h.mem_ends hn)),h.counts n⟩
  have huint : uintMax = 2 ^ 32 - 1 := rfl
  have hunits : unsortedUnits asUndirected (rename edges) = (List.range (rename edges).vNum).map
      (fun v => ⟨v,(ends asUndirected (rename edges).edges).count v⟩) := by
    apply List.map_congr_left
    intro v hv
    have := (hdegrees v (List.mem_range.mp hv)).2
    rw [countDegrees_eq,u32_of_lt (by omega)]
  have hdata : ∀ u ∈ unsortedUnits asUndirected (rename edges),
      u.degree ≠ 0 ∧ u.degree < uintMax := by
    intro u hu
    rw [hunits] at hu
    obtain ⟨v,hv,rfl⟩ := List.mem_map.mp hu
    exact hdegrees v (List.mem_range.mp hv)
  obtain ⟨sorted,hsort,hsorted⟩ := countingSort_spec (fun u hu => (hdata u hu).1)
    (fun u hu => (hdata u hu).2)
  refine ⟨seen,_,Option.map_eq_some_iff.mpr ⟨sorted,hsort,rfl⟩,hr.named.nodup,hr.seen_iff,?_,rfl,
    hnum,hr.edges,hr.named.ids,?_,?_,hdegrees⟩
  · rw [length_eq_names hr.named.nodup hr.seen_iff]
    exact h.few
  · rw [← hunits]
    exact hsorted.perm
  · intro i j hij hj
    exact hsorted.getD_le hij (by simpa [unsortedUnits] using hj)

theorem vNum_lt (edges : List (Nat × Nat)) : (rename edges).vNum < 2 ^ 32 := by
  have hassign : ∀ (st : List Nat × Nat) (name : Nat), st.2 < 2 ^ 32 → (assign st name).2 < 2 ^ 32 := by
    intro st name hst
    rw [assign]
    split_ifs
    · exact u32_lt _
    · exact hst
  induction edges using List.reverseRecOn with
  | nil => exact Nat.two_pow_pos 32
  | append_singleton edges e ih =>
    rw [rename,List.foldl_append]
    exact hassign _ _ (hassign _ _ ih)

/-- What every successful `load` leaves, also when ends were too many for 32 bits. -/
structure Sorted (g : Loaded) : Prop where
  vNum_lt : g.vNum < 2 ^ 32
  degrees : ∀ v < g.vNum, 0 < (g.unit v).degree ∧ (g.unit v).degree < uintMax
  sorted : ∀ i j, i ≤ j → j < g.vNum → (g.unit j).degree ≤ (g.unit i).degree

/-- The units are those of the renamed graph, sorted. -/
theorem load_units {edges : List (Nat × Nat)} {asUndirected : Bool} {g : Loaded}
    (h : load edges asUndirected = some g) :
    g.vertexUnits.Perm (unsortedUnits asUndirected (rename edges)) ∧
      (∀ u ∈ unsortedUnits asUndirected (rename edges), u.degree ≠ 0 ∧ u.degree < uintMax) ∧
      ∀ i j, i ≤ j → j < g.vNum → (g.unit j).degree ≤ (g.unit i).degree := by
  obtain ⟨sorted,hsort,rfl⟩ := Option.map_eq_some_iff.mp h
  have hlen : (unsortedUnits asUndirected (rename edges)).length = (rename edges).vNum := by
    simp [unsortedUnits]
  have hdegrees := countingSort_cases hsort (by
    intro u hu
    obtain ⟨v,_,rfl⟩ := List.mem_map.mp hu
    rw [countDegrees_eq]
    exact Nat.le_of_lt_succ (u32_lt _))
  obtain ⟨sorted',hsort',hsorted⟩ := countingSort_spec (fun u hu => (hdegrees u hu).1)
    (fun u hu => (hdegrees u hu).2)
  obtain rfl := Option.some.inj (hsort.symm.trans hsort')
  refine ⟨hsorted.perm,hdegrees,fun i j hij hj => ?_⟩
  exact hsorted.getD_le hij (by rw [hlen]; exact hj)

theorem load_vNum {edges : List (Nat × Nat)} {asUndirected : Bool} {g : Loaded}
    (h : load edges asUndirected = some g) : g.vNum = (rename edges).vNum := by
  obtain ⟨sorted,_,rfl⟩ := Option.map_eq_some_iff.mp h
  rfl

theorem load_name2id {edges : List (Nat × Nat)} {asUndirected : Bool} {g : Loaded}
    (h : load edges asUndirected = some g) : g.name2id = (rename edges).name2id := by
  obtain ⟨sorted,_,rfl⟩ := Option.map_eq_some_iff.mp h
  rfl

theorem load_rawEdges {edges : List (Nat × Nat)} {asUndirected : Bool} {g : Loaded}
    (h : load edges asUndirected = some g) : g.rawEdges = (rename edges).edges := by
  obtain ⟨sorted,_,rfl⟩ := Option.map_eq_some_iff.mp h
  rfl

/-- The loaded graph depends on the names through `name2id` only. -/
theorem load_map {edges : List (Nat × Nat)} {f : Nat → Nat}
    (hf : Set.InjOn f {n | n ∈ names edges}) (asUndirected : Bool) :
    load (edges.map (fun e => (f e.1,f e.2))) asUndirected =
      (load edges asUndirected).map (fun g =>
        { g with name2id := (rename (edges.map (fun e => (f e.1,f e.2)))).name2id }) := by
  have hsame := rename_map hf
  have hnum : (rename (edges.map (fun e => (f e.1,f e.2)))).vNum = (rename edges).vNum :=
    hsame.mirrors.vNum
  have hunits : unsortedUnits asUndirected (rename (edges.map (fun e => (f e.1,f e.2)))) =
      unsortedUnits asUndirected (rename edges) := by
    rw [unsortedUnits,unsortedUnits,hnum,hsame.edges]
  simp only [load,hunits,hnum,hsame.edges,List.length_map,Option.map_map,Function.comp_def]

theorem load_length_units {edges : List (Nat × Nat)} {asUndirected : Bool} {g : Loaded}
    (h : load edges asUndirected = some g) : g.vertexUnits.length = g.vNum := by
  rw [(load_units h).1.length_eq,load_vNum h,unsortedUnits,List.length_map,List.length_range]

theorem load_sorted {edges : List (Nat × Nat)} {asUndirected : Bool} {g : Loaded}
    (h : load edges asUndirected = some g) : Sorted g := by
  obtain ⟨hperm,hdegrees,hfall⟩ := load_units h
  refine ⟨load_vNum h ▸ vNum_lt edges,?_,hfall⟩
  intro v hv
  have hv' : v < g.vertexUnits.length := by rwa [load_length_units h]
  have hm := hdegrees _ (hperm.mem_iff.mp (List.getElem_mem hv'))
  rw [Loaded.unit,List.getD_eq_getElem _ _ hv']
  exact ⟨Nat.pos_of_ne_zero hm.1,hm.2⟩

theorem length_rename (edges : List (Nat × Nat)) : (rename edges).edges.length = edges.length := by
  induction edges using List.reverseRecOn with
  | nil => rfl
  | append_singleton edges e ih =>
    rw [rename,List.foldl_append,List.length_append,← ih]
    exact List.length_append

theorem length_ends (asUndirected : Bool) (edges : List (Nat × Nat)) :
    (ends asUndirected edges).length =
      if asUndirected then edges.length * 2 else edges.length := by
  induction edges with
  | nil => cases asUndirected <;> rfl
  | cons e edges ih =>
    rw [ends,List.flatMap_cons,List.length_append,← ends,ih]
    cases asUndirected
    · simp only [Bool.false_eq_true,if_false,List.length_cons,List.length_nil]
      omega
    · simp only [if_true,List.length_cons,List.length_nil]
      omega

/-- An edge list that is short enough can be counted. -/
theorem loadable_of_length {edges : List (Nat × Nat)} (h : edges.length * 2 < uintMax) :
    Loadable true edges := by
  have hlen : (ends true edges).length < uintMax := by
    rwa [length_ends,if_pos rfl]
  have hnames : names edges = ends true edges := by
    simp only [names,ends,if_true]
  refine ⟨?_,by simp,fun n => ?_⟩
  · rw [hnames]
    exact Nat.lt_of_le_of_lt (List.dedup_sublist _).length_le hlen
  · exact Nat.lt_of_le_of_lt List.count_le_length hlen

/-- Counting each of the first numbers counts every item at most once. -/
theorem sum_count_le (l : List Nat) (n : Nat) :
    ((List.range n).map (fun v => l.count v)).sum ≤ l.length := by
  have hcount : (List.range n).map (fun v => l.count v) =
      (List.range n).map (fun v => (l.filter (fun x => x < n)).count v) := by
    apply List.map_congr_left
    intro v hv
    rw [List.count_filter (by simpa using hv)]
  have hfew : ∀ x ∈ (l.filter (fun x => x < n) : Multiset Nat), x ∈ Finset.range n := by
    intro x hx
    simpa using (List.mem_filter.mp hx).2
  have hcard : ((List.range n).map (fun v => (l.filter (fun x => x < n)).count v)).sum =
      (l.filter (fun x => x < n)).length := by
    rw [← List.sum_toFinset _ List.nodup_range,List.toFinset_range]
    simpa only [Multiset.coe_count,Multiset.coe_card] using Multiset.sum_count_eq_card hfew
  rw [hcount,hcard]
  exact List.length_filter_le _ l

/-- The degrees add up to the number of edges at most. -/
theorem load_degrees_le {edges : List (Nat × Nat)} {asUndirected : Bool} {g : Loaded}
    (h : load edges asUndirected = some g) : (g.vertexUnits.map VertexSortUnit.degree).sum ≤ g.eNum := by
  have heNum : g.eNum = if asUndirected then edges.length * 2 else edges.length := by
    obtain ⟨sorted,_,rfl⟩ := Option.map_eq_some_iff.mp h
    rfl
  rw [((load_units h).1.map VertexSortUnit.degree).sum_eq,unsortedUnits,List.map_map,heNum,
    ← length_rename edges,← length_ends]
  refine Nat.le_trans (List.sum_le_sum (fun v _ => ?_)) (sum_count_le _ (rename edges).vNum)
  simp only [Function.comp_apply,countDegrees_eq]
  exact Nat.mod_le _ _

/-- The graph of `n` separate edges. -/
def matching (n : Nat) : List (Nat × Nat) := (List.range n).map (fun j => (2 * j,2 * j + 1))

theorem names_matching (n : Nat) : names (matching n) = List.range (2 * n) := by
  induction n with
  | zero => rfl
  | succ n ih =>
    rw [show 2 * (n + 1) = 2 * n + 1 + 1 by omega,List.range_succ,List.range_succ,← ih]
    simp [matching,names,List.range_succ]

theorem load_matching {n : Nat} (hn : 2 * n < uintMax) :
    ∃ g, load (matching n) true = some g ∧ g.vNum = 2 * n := by
  have hdedup : (names (matching n)).dedup = List.range (2 * n) := by
    rw [names_matching,List.Nodup.dedup List.nodup_range]
  have hloads : Loadable true (matching n) := by
    refine ⟨?_,fun hd => (nomatch hd),?_⟩
    · rw [hdedup,List.length_range]
      exact hn
    · intro v
      have hends : ends true (matching n) = List.range (2 * n) := names_matching n
      have hone := List.nodup_iff_count_le_one.mp (List.nodup_range (n := 2 * n)) v
      rw [hends]
      exact Nat.lt_of_le_of_lt hone (by decide)
  obtain ⟨seen,g,hg,ok⟩ := load_loadOk hloads
  refine ⟨g,hg,?_⟩
  rw [ok.vNum,length_eq_names ok.nodup ok.seen_iff,hdedup,List.length_range]

/-- `n` separate pairs of vertices, with `m` edges between the two of each pair. -/
def parallelMatching (n m : Nat) : List (Nat × Nat) := (matching n).flatMap (List.replicate m)

theorem count_names_parallel (n m x : Nat) :
    (names (parallelMatching n m)).count x = m * (names (matching n)).count x := by
  have hpair : ∀ (e : Nat × Nat), ((List.replicate m e).flatMap (fun e => [e.1,e.2])).count x =
      m * [e.1,e.2].count x := by
    intro e
    rw [List.count_flatMap,List.map_replicate,List.sum_replicate,smul_eq_mul]
    rfl
  rw [parallelMatching,names,names]
  induction matching n with
  | nil => rfl
  | cons e edges ih =>
    rw [List.flatMap_cons,List.flatMap_append,List.count_append,hpair,ih,List.flatMap_cons,
      List.count_append,Nat.mul_add]

theorem map_unit {g : Loaded} (hlen : g.vertexUnits.length = g.vNum) :
    (List.range g.vNum).map g.unit = g.vertexUnits := by
  refine List.ext_getElem (by simp [hlen]) (fun i hi hi' => ?_)
  rw [List.getElem_map,List.getElem_range,Loaded.unit,List.getD_eq_getElem _ _ hi']

namespace LoadOk
variable {edges : List (Nat × Nat)} {asUndirected : Bool} {seen : List Nat} {g : Loaded}
  (ok : LoadOk edges asUndirected seen g)
include ok

theorem length_units : g.vertexUnits.length = g.vNum := by
  rw [ok.units.length_eq,List.length_map,List.length_range]

theorem map_unit : (List.range g.vNum).map g.unit = g.vertexUnits := Graph.map_unit ok.length_units

/-- The degree of a vertex is the number of ends of its name. -/
theorem unit_degree {v : Nat} (hv : v < g.vNum) :
    ∃ n ∈ names edges, (g.unit v).degree = (ends asUndirected edges).count n := by
  have hv' : v < g.vertexUnits.length := by rwa [ok.length_units]
  have hm := ok.units.mem_iff.mp (List.getElem_mem hv')
  obtain ⟨w,hw,he⟩ := List.mem_map.mp hm
  have hw' : w < seen.length := ok.vNum ▸ List.mem_range.mp hw
  rw [Loaded.unit,List.getD_eq_getElem _ _ hv',← he]
  dsimp only
  rw [ok.rawEdges,count_ends_idxOf asUndirected ok.nodup ok.seen_iff hw']
  exact ⟨_,(ok.seen_iff _).mp (List.getElem_mem hw'),rfl⟩

end LoadOk

theorem load_parallelMatching {n m : Nat} (hn : 2 * n < uintMax) (hpos : 0 < m)
    (hm : m < uintMax) : ∃ g, load (parallelMatching n m) true = some g ∧ g.vNum = 2 * n ∧
      ∀ v < g.vNum, (g.unit v).degree = m := by
  have hcount : ∀ x, (names (parallelMatching n m)).count x =
      if x < 2 * n then m else 0 := by
    intro x
    rw [count_names_parallel,names_matching,List.count_range]
    split_ifs <;> omega
  have hmem : ∀ x, x ∈ List.range (2 * n) ↔ x ∈ names (parallelMatching n m) := by
    intro x
    rw [List.mem_range,← List.count_pos_iff,hcount]
    split_ifs with hx
    · exact iff_of_true hx hpos
    · exact iff_of_false hx (Nat.lt_irrefl 0)
  have hnum := length_eq_names List.nodup_range hmem
  rw [List.length_range] at hnum
  have hloads : Loadable true (parallelMatching n m) := by
    refine ⟨hnum ▸ hn,fun hd => (nomatch hd),fun x => ?_⟩
    change (names (parallelMatching n m)).count x < uintMax
    rw [hcount]
    split_ifs <;> omega
  obtain ⟨seen,g,hg,ok⟩ := load_loadOk hloads
  refine ⟨g,hg,?_,fun v hv => ?_⟩
  · rw [ok.vNum,length_eq_names ok.nodup ok.seen_iff,hnum]
  · obtain ⟨x,hx,hdegree⟩ := ok.unit_degree hv
    rw [hdegree]
    change (names (parallelMatching n m)).count x = m
    rw [hcount,if_pos (List.mem_range.mp ((hmem x).mpr hx))]

end FlashMob.Graph
