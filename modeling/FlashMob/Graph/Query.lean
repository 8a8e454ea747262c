import FlashMob.Graph.Bloom
import FlashMob.Graph.Deal
import FlashMob.Graph.Edges
import FlashMob.Lib.Search

namespace FlashMob.Graph
open Lib.Search Lib.Tiling Lib.Writes

/-- The graph with the Bloom filter for node2vec. -/
structure NeighborGraph extends Made where
  bf : Option BloomFilter

/-- The orders in which one call of `prepare_neighbor_query` sorts the lists and executes the
fetch-and-ors of its insertions. -/
structure QueryOrder where
  lists : List Nat → List Nat
  inserts : List (Nat × Nat) → List (Nat × Nat)
  lists_perm : ∀ l, (lists l).Perm l
  inserts_perm : ∀ l, (inserts l).Perm l

def readList (edges : Slot → Nat) (adj : AdjList) : List Nat :=
  (List.range adj.degree).map (fun i => edges (adj.begin.1, adj.begin.2 + i))

/-- Sorts an adjacency list in place. -/
def sortList (edges : Slot → Nat) (adj : AdjList) : Slot → Nat :=
  writes edges (((readList edges adj).mergeSort (· ≤ ·)).zipIdx.map
    (fun q => ((adj.begin.1, adj.begin.2 + q.2), q.1)))

namespace NeighborGraph

def allVertices (g : NeighborGraph) : List Nat := g.partitions.flatMap vertices

def sortLists (order : List Nat) (g : NeighborGraph) : NeighborGraph :=
  { g with edges := order.foldl (fun edges v => sortList edges (g.adjlists 0 v)) g.edges }

def prepareNeighborQuery (g : NeighborGraph) (o : QueryOrder) : NeighborGraph :=
  let g := g.sortLists (o.lists g.allVertices)
  let inserts := g.allVertices.flatMap (fun v => (g.neighbors 0 v).map (fun u => (v,u)))
  { g with
    bf := some ((o.inserts inserts).foldl (fun bf op => bf.insert op.1 op.2)
      (BloomFilter.create (if g.asUndirected then g.eNum / 2 else g.eNum))) }

/-- Without a call of `prepare_neighbor_query` the pointer to the filter is null. -/
def hasNeighbor (g : NeighborGraph) (src dst socket : Nat) : Option Bool :=
  g.bf.map (fun bf =>
    bf.exist src dst &&
      let adj := g.adjlists socket src
      binarySearch (fun i => g.edges (adj.begin.1, adj.begin.2 + i)) adj.degree dst)

end NeighborGraph

/-- The slots of the lists of different vertices are different. -/
def SegmentsDisjoint (adj : Nat → AdjList) (n : Nat) : Prop :=
  ∀ u < n, ∀ v < n, u ≠ v → ∀ i < (adj u).degree, ∀ j < (adj v).degree,
    ((adj u).begin.1,(adj u).begin.2 + i) ≠ ((adj v).begin.1,(adj v).begin.2 + j)

theorem readList_sortList_self (edges : Slot → Nat) (adj : AdjList) :
    readList (sortList edges adj) adj = (readList edges adj).mergeSort (· ≤ ·) := by
  refine List.ext_getElem (by simp [readList]) (fun i hi hi' => ?_)
  have hget : (readList (sortList edges adj) adj)[i] =
      sortList edges adj (adj.begin.1,adj.begin.2 + i) := by simp [readList]
  rw [hget,sortList]
  apply writes_of_mem
  · rw [List.map_map]
    have hidx : ((readList edges adj).mergeSort (· ≤ ·)).zipIdx.map
        (Prod.fst ∘ fun q : Nat × Nat => ((adj.begin.1,adj.begin.2 + q.2),q.1)) =
        (((readList edges adj).mergeSort (· ≤ ·)).zipIdx.map Prod.snd).map
          (fun i => (adj.begin.1,adj.begin.2 + i)) := by
      rw [List.map_map]
      rfl
    rw [hidx,List.zipIdx_map_snd]
    refine List.Nodup.map_on ?_ List.nodup_range'
    intro a _ b _ hab
    have := (Prod.mk.inj hab).2
    omega
  · refine List.mem_map.mpr ⟨(((readList edges adj).mergeSort (· ≤ ·))[i],i),?_,rfl⟩
    exact List.mem_zipIdx_iff_getElem?.mpr (List.getElem?_eq_getElem hi')

theorem readList_sortList_other {edges : Slot → Nat} {adj adj' : AdjList}
    (h : ∀ i < adj.degree, ∀ j < adj'.degree,
      (adj.begin.1,adj.begin.2 + i) ≠ (adj'.begin.1,adj'.begin.2 + j)) :
    readList (sortList edges adj) adj' = readList edges adj' := by
  apply List.map_congr_left
  intro j hj
  rw [sortList]
  apply writes_of_notMem
  intro hm
  obtain ⟨_,hq,he⟩ := List.mem_map.mp hm
  obtain ⟨⟨x,i⟩,hi,rfl⟩ := List.mem_map.mp hq
  have hlt := (List.getElem?_eq_some_iff.mp (List.mem_zipIdx_iff_getElem?.mp hi)).1
  rw [List.length_mergeSort,readList,List.length_map,List.length_range] at hlt
  exact h i hlt j (List.mem_range.mp hj) he

/-- Sorting lists one after the other permutes each of them, and leaves the sorted ones sorted. -/
theorem foldl_sortList {adj : Nat → AdjList} {n : Nat} (hdisj : SegmentsDisjoint adj n)
    (edges : Slot → Nat) (order : List Nat) (horder : ∀ v ∈ order, v < n) {v : Nat} (hv : v < n) :
    (readList (order.foldl (fun edges v => sortList edges (adj v)) edges) (adj v)).Perm
        (readList edges (adj v)) ∧
      (v ∈ order → (readList (order.foldl (fun edges v => sortList edges (adj v)) edges)
        (adj v)).Pairwise (· ≤ ·)) := by
  induction order using List.reverseRecOn with
  | nil => exact ⟨List.Perm.refl _,fun h => by simp at h⟩
  | append_singleton order x ih =>
    obtain ⟨hperm,hsorted⟩ := ih (fun v hv => horder v (List.mem_append_left _ hv))
    rw [List.foldl_append,List.foldl_cons,List.foldl_nil]
    by_cases hx : x = v
    · subst hx
      rw [readList_sortList_self]
      refine ⟨(List.mergeSort_perm _ _).trans hperm,fun _ => ?_⟩
      exact List.pairwise_mergeSort (by simpa using fun a b c => Nat.le_trans)
        (by simpa using Nat.le_total) _ |>.imp (by simp)
    · have hxn := horder x (by simp)
      rw [readList_sortList_other (hdisj x hxn v hv hx)]
      refine ⟨hperm,fun hm => hsorted ?_⟩
      rcases List.mem_append.mp hm with h | h
      · exact h
      · exact absurd (List.mem_singleton.mp h).symm hx

structure Laid (made : Made) : Prop where
  tables : ∀ s < made.socketNum, made.adjlists s = made.adjlists 0
  disjoint : SegmentsDisjoint (made.adjlists 0) made.vNum
  covered : made.partitions.flatMap vertices = List.range made.vNum

theorem assemble_laid {D : Type} {cfg : MultiThreadConfig} (hint : GraphHint D)
    (schedule : List (Nat × Nat) → List (Nat × Nat)) {g : Loaded} {partitions : List (Nat × Nat)}
    (ht : Tiles 0 partitions g.vNum) (hsock : 0 < cfg.socketNum) (k : Nat)
    (units : Nat → VertexSortUnit) : Laid (assemble cfg hint schedule g partitions k units) := by
  have htables := fun (s : Nat) (hs : s < cfg.socketNum) =>
    assemble_adjlists hint schedule g partitions k units hs
  refine ⟨fun s hs => (htables s hs).trans (htables 0 hsock).symm,?_,?_⟩
  · intro u hu v hv hne i hi j hj he
    rw [htables 0 hsock] at hi hj he
    obtain ⟨hz,hp⟩ := Prod.mk.inj he
    have := begins_disjoint ht cfg.socketNum (fun v => (units v).degree) hsock hu hv hne hz
    simp only at hi hj hp
    omega
  · have := ht.flatMap_range'
    rwa [Nat.sub_zero,← List.range_eq_range'] at this

/-- What calls of `prepare_neighbor_query` keep and establish. -/
structure Queried (made : Made) (g : NeighborGraph) : Prop where
  same : { g.toMade with edges := made.edges } = made
  lists : ∀ v < made.vNum, (readList g.edges (made.adjlists 0 v)).Perm (made.neighbors 0 v)
  sorted : g.bf.isSome → ∀ v < made.vNum,
    (readList g.edges (made.adjlists 0 v)).Pairwise (· ≤ ·)
  inserted : ∀ bf, g.bf = some bf → ∀ v < made.vNum, ∀ u ∈ made.neighbors 0 v,
    bf.exist v u = true

namespace Queried
variable {made : Made} {g : NeighborGraph} (h : Queried made g)
include h

theorem vNum : g.vNum = made.vNum := by
  have := congrArg Made.vNum h.same
  exact this

theorem adjlists : g.adjlists = made.adjlists := by
  have := congrArg Made.adjlists h.same
  exact this

theorem neighbors_perm {v : Nat} (hv : v < made.vNum) :
    (g.neighbors 0 v).Perm (made.neighbors 0 v) := by
  have hlist := h.lists v hv
  rw [← h.adjlists] at hlist
  exact hlist

theorem partitions : g.partitions = made.partitions := by
  have := congrArg Made.partitions h.same
  exact this

theorem prepare (hl : Laid made) (o : QueryOrder) :
    Queried made (g.prepareNeighborQuery o) := by
  have hall : g.allVertices = List.range made.vNum := by
    rw [NeighborGraph.allVertices,h.partitions,hl.covered]
  have hfold := fun (v : Nat) (hv : v < made.vNum) => foldl_sortList hl.disjoint g.edges
    (o.lists (List.range made.vNum))
    (fun v hv => List.mem_range.mp ((o.lists_perm _).mem_iff.mp hv)) hv
  have hedges : (g.prepareNeighborQuery o).edges =
      (o.lists (List.range made.vNum)).foldl
        (fun edges v => sortList edges (made.adjlists 0 v)) g.edges := by
    rw [← hall,← h.adjlists]
    rfl
  have hlists : ∀ v < made.vNum, (readList (g.prepareNeighborQuery o).edges
      (made.adjlists 0 v)).Perm (made.neighbors 0 v) := by
    intro v hv
    rw [hedges]
    exact (hfold v hv).1.trans (h.lists v hv)
  refine ⟨h.same,hlists,?_,?_⟩
  · intro _ v hv
    rw [hedges]
    exact (hfold v hv).2 ((o.lists_perm _).mem_iff.mpr (List.mem_range.mpr hv))
  · intro bf hbf v hv u hu
    rw [← Option.some.inj hbf]
    apply BloomFilter.exist_of_mem
    rw [(o.inserts_perm _).mem_iff]
    refine List.mem_flatMap.mpr ⟨v,?_,List.mem_map.mpr ⟨u,?_,rfl⟩⟩
    · change v ∈ g.allVertices
      rw [hall]
      exact List.mem_range.mpr hv
    · have := (hlists v hv).mem_iff.mpr hu
      rwa [← h.adjlists] at this

/-- After a call a vertex is found in a list exactly when it is there. -/
theorem hasNeighbor_eq (hl : Laid made) (hbf : g.bf.isSome) {u s : Nat} (hu : u < made.vNum)
    (hs : s < made.socketNum) (v : Nat) :
    g.hasNeighbor u v s = some (decide (v ∈ made.neighbors s u)) := by
  obtain ⟨bf,hsome⟩ := Option.isSome_iff_exists.mp hbf
  have hneighbors : made.neighbors s u = made.neighbors 0 u := by
    rw [Made.neighbors,hl.tables s hs]
    rfl
  have hperm := h.lists u hu
  have hsorted := h.sorted hbf u hu
  have hsearch : binarySearch (fun i => g.edges ((made.adjlists 0 u).begin.1,
      (made.adjlists 0 u).begin.2 + i)) (made.adjlists 0 u).degree v = true ↔
      v ∈ made.neighbors 0 u := by
    rw [binarySearch_iff,← hperm.mem_iff,readList,List.mem_map]
    · simp only [List.mem_range]
    · intro i j hij hj
      rcases Nat.lt_or_eq_of_le hij with hlt | rfl
      · have := List.pairwise_iff_getElem.mp hsorted i j (by simp [readList]; omega)
          (by simpa [readList] using hj) hlt
        simpa [readList] using this
      · exact Nat.le_refl _
  rw [NeighborGraph.hasNeighbor,hsome,Option.map_some,h.adjlists,hl.tables s hs,hneighbors]
  congr 1
  rw [Bool.eq_iff_iff,Bool.and_eq_true,hsearch,decide_eq_true_eq]
  exact ⟨fun h => h.2,fun hv => ⟨h.inserted bf hsome u hu v hv,hv⟩⟩

end Queried

theorem prepared_queried {made : Made} (hl : Laid made) (orders : List QueryOrder) :
    Queried made (orders.foldl NeighborGraph.prepareNeighborQuery ⟨made,none⟩) ∧
      (orders ≠ [] →
        (orders.foldl NeighborGraph.prepareNeighborQuery ⟨made,none⟩).bf.isSome) := by
  induction orders using List.reverseRecOn with
  | nil =>
    refine ⟨⟨rfl,fun v _ => List.Perm.refl _,fun h => (nomatch h),fun _ h => (nomatch h)⟩,?_⟩
    exact fun h => absurd rfl h
  | append_singleton orders o ih =>
    rw [List.foldl_append,List.foldl_cons,List.foldl_nil]
    exact ⟨ih.1.prepare hl o,fun _ => rfl⟩

end FlashMob.Graph
