import FlashMob.Graph.Deal
import FlashMob.Graph.Layout
import FlashMob.Graph.Loads
import FlashMob.Lib.Buckets

namespace FlashMob.Graph
open Lib.Buckets Lib.Cursor Lib.Tiling Lib.Writes

theorem slotWrites_eq (begins : Nat → Slot) (ops : List (Nat × Nat)) :
    slotWrites begins ops = claims (fun v => (begins v).1) (fun v => (begins v).2) ops := by
  induction ops generalizing begins with
  | nil => rfl
  | cons op ops ih =>
    rw [slotWrites,ih,claims_cons]
    congr 2
    · funext v
      by_cases hv : v = op.1
      · subst hv
        rw [Function.update_self]
      · rw [Function.update_of_ne hv]
    · funext v
      by_cases hv : v = op.1
      · subst hv
        rw [Function.update_self,Function.update_self]
      · rw [Function.update_of_ne hv,Function.update_of_ne hv]

theorem insertions_fst (asUndirected : Bool) (edges : List (Nat × Nat)) :
    (insertions asUndirected edges).map Prod.fst = ends asUndirected edges := by
  rw [insertions,ends,List.map_flatMap]
  congr 1
  funext e
  cases asUndirected <;> rfl

theorem insertions_map (asUndirected : Bool) (edges : List (Nat × Nat)) (f : Nat → Nat) :
    insertions asUndirected (edges.map (fun e => (f e.1,f e.2))) =
      (insertions asUndirected edges).map (fun e => (f e.1,f e.2)) := by
  rw [insertions,insertions,List.flatMap_map,List.map_flatMap]
  congr 1
  funext e
  cases asUndirected <;> rfl

/-- Every socket has the same table. -/
theorem adjTables_eq {socketNum : Nat} (degree : Nat → Nat) (begins : Nat → Slot) {s : Nat}
    (hs : s < socketNum) : adjTables socketNum degree begins s = fun v => ⟨degree v,begins v⟩ := by
  have hloop : ∀ n, (∀ s ≤ n, (List.range' 1 n).foldl (fun (tables : Nat → Nat → AdjList) s =>
      Function.update tables s (tables 0))
      (Function.update (fun _ v => ⟨degree v,(0,0)⟩) 0 (fun v => ⟨degree v,begins v⟩)) s =
      fun v => ⟨degree v,begins v⟩) := by
    intro n
    induction n with
    | zero =>
      intro s hs
      rw [Nat.le_zero.mp hs]
      exact Function.update_self _ _ _
    | succ n ih =>
      intro s hs
      rw [List.range'_1_concat,List.foldl_append,List.foldl_cons,List.foldl_nil,
        ih 0 (Nat.zero_le n)]
      by_cases he : s = 1 + n
      · rw [he,Function.update_self]
      · rw [Function.update_of_ne he]
        exact ih s (by omega)
  exact hloop (socketNum - 1) s (by omega)

section
variable {D : Type} {cfg : MultiThreadConfig} (hint : GraphHint D)
  (schedule : List (Nat × Nat) → List (Nat × Nat)) (g : Loaded) (partitions : List (Nat × Nat))
  (k : Nat) (units : Nat → VertexSortUnit) {s : Nat} (hs : s < cfg.socketNum)
include hs

theorem assemble_adjlists : (assemble cfg hint schedule g partitions k units).adjlists s =
    fun v => ⟨(units v).degree,
      edgeBegins cfg.socketNum partitions (fun v => (units v).degree) v⟩ := adjTables_eq _ _ hs

theorem assemble_degree (v : Nat) :
    ((assemble cfg hint schedule g partitions k units).adjlists s v).degree = (units v).degree := by
  rw [assemble_adjlists hint schedule g partitions k units hs]

end

/-- What the renumbering works on: units of all the vertices, in some order. -/
structure Permuted (n : Nat) (units : Nat → VertexSortUnit) : Prop where
  perm : ((List.range n).map (fun x => (units x).vertex)).Perm (List.range n)

section
variable {partitions : List (Nat × Nat)} {n : Nat} {units : Nat → VertexSortUnit}

theorem Permuted.vertex_lt (hp : Permuted n units) {x : Nat} (hx : x < n) :
    (units x).vertex < n :=
  List.mem_range.mp (hp.perm.mem_iff.mp (List.mem_map.mpr ⟨x,List.mem_range.mpr hx,rfl⟩))

/-- The new id of the vertex whose unit stands at `x` is `x`. -/
theorem newIds_vertex (ht : Tiles 0 partitions n) (hp : Permuted n units) {x : Nat} (hx : x < n) :
    newIds partitions units (units x).vertex = x := by
  have hrange : partitions.flatMap vertices = List.range n := by
    have := ht.flatMap_range'
    rwa [Nat.sub_zero,← List.range_eq_range'] at this
  rw [newIds,hrange,foldl_update (fun v => (units v).vertex) (fun v => v)]
  apply writes_of_mem
  · rw [List.map_map]
    exact hp.perm.nodup_iff.mpr List.nodup_range
  · exact List.mem_map.mpr ⟨x,List.mem_range.mpr hx,rfl⟩

theorem exists_newId (ht : Tiles 0 partitions n) (hp : Permuted n units) {i : Nat} (hi : i < n) :
    ∃ x < n, (units x).vertex = i ∧ newIds partitions units i = x := by
  obtain ⟨x,hx,rfl⟩ := List.mem_map.mp (hp.perm.mem_iff.mpr (List.mem_range.mpr hi))
  have hx' := List.mem_range.mp hx
  exact ⟨x,hx',rfl,newIds_vertex ht hp hx'⟩

theorem newIds_inj (ht : Tiles 0 partitions n) (hp : Permuted n units) {i j : Nat} (hi : i < n)
    (hj : j < n) (h : newIds partitions units i = newIds partitions units j) : i = j := by
  obtain ⟨x,_,rfl,hx⟩ := exists_newId ht hp hi
  obtain ⟨y,_,rfl,hy⟩ := exists_newId ht hp hj
  rw [hx,hy] at h
  rw [h]

end

theorem permuted_of_units {g : Loaded} {degree : Nat → Nat} {partitions : List (Nat × Nat)}
    {units : Nat → VertexSortUnit}
    (h : g.vertexUnits.Perm ((List.range g.vNum).map (fun v => ⟨v,degree v⟩)))
    (hr : Redistributed partitions g.vNum g.unit units) : Permuted g.vNum units := by
  have hlen : g.vertexUnits.length = g.vNum := by
    rw [h.length_eq,List.length_map,List.length_range]
  have hperm := hr.perm
  rw [map_unit hlen] at hperm
  have hvertex := (hperm.trans h).map VertexSortUnit.vertex
  rw [List.map_map,List.map_map] at hvertex
  refine ⟨hvertex.trans (List.Perm.of_eq ?_)⟩
  exact List.map_id _

theorem load_permuted {edges : List (Nat × Nat)} {asUndirected : Bool} {g : Loaded}
    (h : load edges asUndirected = some g) {partitions : List (Nat × Nat)}
    {units : Nat → VertexSortUnit} (hr : Redistributed partitions g.vNum g.unit units) :
    Permuted g.vNum units := by
  have hunits := (load_units h).1
  rw [unsortedUnits,← load_vNum h] at hunits
  exact permuted_of_units hunits hr

section
variable {edges : List (Nat × Nat)} {asUndirected : Bool} {seen : List Nat} {g : Loaded}
  (ok : LoadOk edges asUndirected seen g) {partitions : List (Nat × Nat)}
  {units : Nat → VertexSortUnit} (ht : Tiles 0 partitions g.vNum)
  (hr : Redistributed partitions g.vNum g.unit units)
include ok hr

/-- The dealt units are those of the vertices, with the numbers of their ends. -/
theorem units_perm : ((List.range g.vNum).map units).Perm ((List.range g.vNum).map
    (fun v => ⟨v,(ends asUndirected g.rawEdges).count v⟩)) := by
  have h := hr.perm
  rw [ok.map_unit] at h
  exact h.trans ok.units

theorem units_permuted : Permuted g.vNum units := permuted_of_units ok.units hr

theorem unit_eq {x : Nat} (hx : x < g.vNum) : (units x).vertex < g.vNum ∧
    (units x).degree = (ends asUndirected g.rawEdges).count (units x).vertex := by
  have hm := (units_perm ok hr).mem_iff.mp (List.mem_map_of_mem (List.mem_range.mpr hx))
  obtain ⟨v,hv,he⟩ := List.mem_map.mp hm
  rw [← he]
  exact ⟨List.mem_range.mp hv,rfl⟩

omit hr in
theorem idxOf_lt {n : Nat} (hn : n ∈ names edges) : seen.idxOf n < g.vNum := by
  rw [ok.vNum]
  exact List.idxOf_lt_length_iff.mpr ((ok.seen_iff n).mpr hn)

omit hr in
theorem mem_ends_lt {v : Nat} (hv : v ∈ ends asUndirected g.rawEdges) : v < g.vNum := by
  rw [ok.rawEdges,ends_map asUndirected edges (fun n => seen.idxOf n)] at hv
  obtain ⟨n,hn,rfl⟩ := List.mem_map.mp hv
  exact idxOf_lt ok (mem_ends_names hn)

include ht

/-- The degree of a vertex is the number of insertions into its list. -/
theorem degree_eq {x : Nat} (hx : x < g.vNum) :
    (units x).degree =
      (ends asUndirected (newEdges g (newIds partitions units))).count x := by
  have hp := units_permuted ok hr
  obtain ⟨hv,he⟩ := unit_eq ok hr hx
  have hinj : ∀ m ∈ ends asUndirected g.rawEdges, newIds partitions units m =
      newIds partitions units (units x).vertex → m = (units x).vertex :=
    fun m hm h => newIds_inj ht hp (mem_ends_lt ok hm) hv h
  have hmap := count_map_of_injOn hinj
  rw [newIds_vertex ht hp hx] at hmap
  rw [he,newEdges,ends_map,hmap]

theorem mem_newEnds_lt {x : Nat}
    (hx : x ∈ ends asUndirected (newEdges g (newIds partitions units))) : x < g.vNum := by
  rw [newEdges,ends_map] at hx
  obtain ⟨i,hi,rfl⟩ := List.mem_map.mp hx
  obtain ⟨x,hx,_,he⟩ := exists_newId ht (units_permuted ok hr) (mem_ends_lt ok hi)
  rwa [he]

variable {schedule : List (Nat × Nat) → List (Nat × Nat)} (hsched : ∀ l, (schedule l).Perm l)
include hsched

/-- In every order of the insertions a vertex gets as many as its degree. -/
theorem count_schedule {x : Nat} (hx : x < g.vNum) :
    ((schedule (insertions g.asUndirected (newEdges g (newIds partitions units)))).map
      Prod.fst).count x = (units x).degree := by
  rw [((hsched _).map Prod.fst).count_eq,insertions_fst,ok.undirected,degree_eq ok ht hr hx]

theorem mem_schedule_lt {op : Nat × Nat}
    (hop : op ∈ schedule (insertions g.asUndirected (newEdges g (newIds partitions units)))) :
    op.1 < g.vNum := by
  apply mem_newEnds_lt ok ht hr
  rw [← insertions_fst,← ok.undirected]
  exact List.mem_map_of_mem ((hsched _).mem_iff.mp hop)

/-- The adjacency lists are separate buckets. -/
theorem separated_begins {socketNum : Nat} (hsock : 0 < socketNum) :
    Separated (fun v => (edgeBegins socketNum partitions (fun v => (units v).degree) v).1)
      (fun v => (edgeBegins socketNum partitions (fun v => (units v).degree) v).2)
      ((schedule (insertions g.asUndirected (newEdges g (newIds partitions units)))).map
        Prod.fst) := by
  intro u hu v hv hne hz
  obtain ⟨op,hop,rfl⟩ := List.mem_map.mp hu
  obtain ⟨op',hop',rfl⟩ := List.mem_map.mp hv
  have hlt := mem_schedule_lt ok ht hr hsched hop
  have hlt' := mem_schedule_lt ok ht hr hsched hop'
  rw [count_schedule ok ht hr hsched hlt,count_schedule ok ht hr hsched hlt']
  exact begins_disjoint ht socketNum _ hsock hlt hlt' hne hz

/-- The adjacency list of a vertex holds its insertions, in the order of the fetch-and-adds. -/
theorem neighbors_eq {D : Type} {cfg : MultiThreadConfig} (hint : GraphHint D) (k : Nat) {s v : Nat}
    (hs : s < cfg.socketNum) (hv : v < g.vNum) :
    (assemble cfg hint schedule g partitions k units).neighbors s v =
      ((schedule (insertions g.asUndirected (newEdges g (newIds partitions units)))).filter
        (fun op => op.1 = v)).map Prod.snd := by
  have hsep := separated_begins ok ht hr hsched (Nat.zero_lt_of_lt hs)
  rw [← bucket_eq hsep (fun _ => 0) v,count_schedule ok ht hr hsched hv]
  simp only [Made.neighbors,assemble,adjTables_eq _ _ hs,edgeWrites,slotWrites_eq]

/-- A neighbour is the other end of an edge of the vertex. -/
theorem exists_edge_of_neighbor {D : Type} {cfg : MultiThreadConfig} (hint : GraphHint D) (k : Nat)
    {s v : Nat} (hs : s < cfg.socketNum) (hv : v < g.vNum) {y : Nat}
    (hy : y ∈ (assemble cfg hint schedule g partitions k units).neighbors s v) :
    ∃ e ∈ edges, ∃ a b, (e = (a,b) ∨ e = (b,a)) ∧
      v = newIds partitions units (seen.idxOf a) ∧ y = newIds partitions units (seen.idxOf b) := by
  rw [neighbors_eq ok ht hr hsched hint k hs hv] at hy
  obtain ⟨op,hop,rfl⟩ := List.mem_map.mp hy
  obtain ⟨hop',hfst⟩ := List.mem_filter.mp hop
  obtain rfl : op.1 = v := by simpa using hfst
  have hin := (hsched _).mem_iff.mp hop'
  rw [newEdges,ok.rawEdges,List.map_map] at hin
  obtain ⟨e',he',hin⟩ := List.mem_flatMap.mp hin
  obtain ⟨e,he,rfl⟩ := List.mem_map.mp he'
  refine ⟨e,he,?_⟩
  split_ifs at hin
  · rcases List.mem_cons.mp hin with rfl | hin
    · exact ⟨e.1,e.2,Or.inl rfl,rfl,rfl⟩
    · rw [List.mem_singleton.mp hin]
      exact ⟨e.2,e.1,Or.inr rfl,rfl,rfl⟩
  · rw [List.mem_singleton.mp hin]
    exact ⟨e.1,e.2,Or.inl rfl,rfl,rfl⟩

/-- Neighbours are vertices. -/
theorem neighbors_lt {D : Type} {cfg : MultiThreadConfig} (hint : GraphHint D) (k : Nat) {s v : Nat}
    (hs : s < cfg.socketNum) (hv : v < g.vNum) {y : Nat}
    (hy : y ∈ (assemble cfg hint schedule g partitions k units).neighbors s v) : y < g.vNum := by
  obtain ⟨e,he,a,b,hends,_,rfl⟩ := exists_edge_of_neighbor ok ht hr hsched hint k hs hv hy
  have hb : b ∈ names edges := by
    rcases hends with rfl | rfl
    · exact snd_mem_names he
    · exact fst_mem_names he
  obtain ⟨x,hx,_,hnew⟩ := exists_newId ht (units_permuted ok hr) (idxOf_lt ok hb)
  rwa [hnew]

/-- Without an edge from a vertex to itself, no vertex is its own neighbour. -/
theorem self_not_mem_neighbors {D : Type} {cfg : MultiThreadConfig} (hint : GraphHint D) (k : Nat)
    {s v : Nat} (hs : s < cfg.socketNum) (hv : v < g.vNum) (hloop : ∀ e ∈ edges, e.1 ≠ e.2) :
    v ∉ (assemble cfg hint schedule g partitions k units).neighbors s v := by
  intro hy
  obtain ⟨e,he,a,b,hends,ha,hb⟩ := exists_edge_of_neighbor ok ht hr hsched hint k hs hv hy
  obtain ⟨hna,hnb,hne⟩ : a ∈ names edges ∧ b ∈ names edges ∧ a ≠ b := by
    rcases hends with rfl | rfl
    · exact ⟨fst_mem_names he,snd_mem_names he,hloop _ he⟩
    · exact ⟨snd_mem_names he,fst_mem_names he,(hloop _ he).symm⟩
  have hsame := newIds_inj ht (units_permuted ok hr) (idxOf_lt ok hna) (idxOf_lt ok hnb)
    (ha.symm.trans hb)
  exact hne ((List.idxOf_inj ((ok.seen_iff a).mpr hna)).mp hsame)

end

end FlashMob.Graph
