import FlashMob.Walk.Accept

namespace FlashMob.Reference
open Floating FlashMob.Graph FlashMob.WalkManager Lib.Search

section
variable {R : Type} [Floating R]

abbrev TransMat (R : Type) := Nat → Nat → R

def zeros : TransMat R := fun _ _ => ofNat 0

def addTo (transMat : TransMat R) (r c : Nat) (x : R) : TransMat R :=
  Function.update transMat r (Function.update (transMat r) c (add (transMat r c) x))

/-- Rows of `n` entries are divided by their sums, unless these are zero. -/
def matNormalization (n : Nat) (mat : TransMat R) : TransMat R := fun r =>
  let sum := (List.range n).foldl (fun sum c => add sum (mat r c)) (ofNat 0)
  if lt sum (ofNat 0) || lt (ofNat 0) sum then fun c => div (mat r c) sum else mat r

/-- The edges of `graph[v]`, sorted by their ends. -/
def outEdges (edges : List (Nat × Nat)) (v : Nat) : List (Nat × Nat) :=
  (edges.filter (fun e => e.1 = v)).mergeSort (fun a b => a.2 ≤ b.2)

/-- The weight of going on along `e` when the walker comes from `src`. -/
def transWeight (p q : R) (edges : List (Nat × Nat)) (src : Nat) (e : Nat × Nat) : R :=
  if e.2 = src then div (ofNat 1) p
  else if binarySearch (fun i => ((outEdges edges src).getD i (0,0)).2)
    (outEdges edges src).length e.2 then ofNat 1
  else div (ofNat 1) q

/-- The assertions on the edges: no edge ends where it starts, or where no edge goes on. -/
def assertEdge (edges : List (Nat × Nat)) (e : Nat × Nat) : Bool :=
  decide (e.1 ≠ e.2) && !(outEdges edges e.2).isEmpty

def getNode2vecTransMatrix (vNum : Nat) (edges : List (Nat × Nat)) (p q : R)
    (transMat : TransMat R) : Option (TransMat R) :=
  if edges.all (assertEdge edges) then
    some (matNormalization vNum ((List.range edges.length).foldl (fun transMat i =>
      let e := edges.getD i (0,0)
      (outEdges edges e.2).foldl (fun transMat next =>
        addTo transMat i next.2 (transWeight p q edges e.1 next)) transMat) transMat))
  else none

end

/-- The edges of a graph under its ids, as the tests read them from the table of a socket. -/
def getEdgeSet (g : Made) (socketId : Nat) : List (Nat × Nat) :=
  (List.range g.vNum).flatMap (fun v => (g.neighbors socketId v).map (fun y => (v,y)))

def getEdgesWithId (g : Made) : List (Nat × Nat) := getEdgeSet g 0

section
variable {K : Type} [Field K] [LinearOrder K] [FloorSemiring K]

theorem foldl_addTo (l : List ((Nat × Nat) × K)) (mat : TransMat K) (r c : Nat) :
    l.foldl (fun mat a => addTo mat a.1.1 a.1.2 a.2) mat r c =
      mat r c + ((l.filter (fun a => a.1 = (r,c))).map Prod.snd).sum := by
  induction l generalizing mat with
  | nil => rw [List.foldl_nil,List.filter_nil,List.map_nil,List.sum_nil,add_zero]
  | cons a l ih =>
    obtain ⟨⟨i,j⟩,x⟩ := a
    rw [List.foldl_cons,ih]
    by_cases hij : (i,j) = (r,c)
    · cases hij
      rw [List.filter_cons_of_pos (by simp),List.map_cons,List.sum_cons,← add_assoc,addTo,
        Function.update_self,Function.update_self,exact_add]
    · rw [List.filter_cons_of_neg (by simpa using hij)]
      congr 1
      rw [addTo]
      by_cases hr : r = i
      · subst hr
        rw [Function.update_self,Function.update_of_ne (fun hc => hij (by rw [hc]))]
      · rw [Function.update_of_ne hr]

theorem matNormalization_eq {n r : Nat} {mat : TransMat K}
    (hsum : ((List.range n).map (mat r)).sum ≠ 0) (c : Nat) :
    matNormalization n mat r c = mat r c / ((List.range n).map (mat r)).sum := by
  have hfold : (List.range n).foldl (fun sum c => add sum (mat r c)) (ofNat 0 : K) =
      ((List.range n).map (mat r)).sum := by
    rw [List.sum_eq_foldl,List.foldl_map,exact_ofNat,Nat.cast_zero]
    rfl
  rw [matNormalization]
  simp only [hfold]
  rw [if_pos]
  · rfl
  · simp only [exact_lt,exact_ofNat,Nat.cast_zero,Bool.or_eq_true,decide_eq_true_eq]
    exact lt_or_gt_of_ne hsum

end

theorem flatMap_single {α ι : Type} {f : ι → List α} {r : ι} {l : List ι} (hl : l.Nodup)
    (hr : r ∈ l) (hempty : ∀ i ∈ l, i ≠ r → f i = []) : l.flatMap f = f r := by
  induction l with
  | nil => cases hr
  | cons i l ih =>
    obtain ⟨hi,hl⟩ := List.nodup_cons.mp hl
    have htail : ∀ j ∈ l, j ≠ r → f j = [] := fun j hj => hempty j (List.mem_cons_of_mem _ hj)
    rw [List.flatMap_cons]
    rcases List.mem_cons.mp hr with rfl | hr
    · have hnone : l.flatMap f = [] :=
        List.flatMap_eq_nil_iff.mpr (fun j hj => htail j hj (fun he => hi (he ▸ hj)))
      rw [hnone,List.append_nil]
    · rw [hempty i List.mem_cons_self (fun he => hi (he ▸ hr)),List.nil_append]
      exact ih hl hr htail

section
variable {g : Made} {v : Nat} (hv : v < g.vNum)
include hv

theorem filter_getEdgesWithId :
    (getEdgesWithId g).filter (fun e => e.1 = v) = (g.neighbors 0 v).map (fun y => (v,y)) := by
  rw [getEdgesWithId,getEdgeSet,List.filter_flatMap,
    flatMap_single List.nodup_range (List.mem_range.mpr hv)]
  · exact List.filter_eq_self.mpr (by simp)
  · intro u _ hu
    exact List.filter_eq_nil_iff.mpr (by simpa using fun _ _ => hu)

/-- The edges that go on from a vertex lead to its neighbours. -/
theorem outEdges_perm : (outEdges (getEdgesWithId g) v).Perm
    ((g.neighbors 0 v).map (fun y => (v,y))) := by
  rw [outEdges,filter_getEdgesWithId hv]
  exact List.mergeSort_perm _ _

end

section
variable {K : Type} [Field K] [LinearOrder K] [FloorSemiring K] {g : Made}

/-- The search finds the neighbours of the vertex that the walker comes from. -/
theorem transWeight_eq (p q : K) {u : Nat} (hu : u < g.vNum) (e : Nat × Nat) :
    transWeight p q (getEdgesWithId g) u e = acceptBound p q (g.neighbors 0 u) u e.2 := by
  have hperm := outEdges_perm hu
  have hfound : binarySearch (fun i => ((outEdges (getEdgesWithId g) u).getD i (0,0)).2)
      (outEdges (getEdgesWithId g) u).length e.2 = true ↔ e.2 ∈ g.neighbors 0 u := by
    rw [binarySearch_iff]
    · constructor
      · rintro ⟨i,hi,he⟩
        have hmem := hperm.subset (List.getElem_mem hi)
        rw [List.getD_eq_getElem _ _ hi] at he
        obtain ⟨y,hy,hedge⟩ := List.mem_map.mp hmem
        rw [← he,← hedge]
        exact hy
      · intro hmem
        obtain ⟨i,hi,hedge⟩ := List.getElem_of_mem (hperm.mem_iff.mpr (List.mem_map_of_mem hmem))
        exact ⟨i,hi,by rw [List.getD_eq_getElem _ _ hi,hedge]⟩
    · intro i j hij hj
      have hsorted : (outEdges (getEdgesWithId g) u).Pairwise (fun a b => a.2 ≤ b.2) :=
        List.pairwise_mergeSort (by simpa using fun _ _ _ => Nat.le_trans)
          (by simpa using Nat.le_total) _ |>.imp (by simp)
      rw [List.getD_eq_getElem _ _ (by omega),List.getD_eq_getElem _ _ hj]
      rcases Nat.eq_or_lt_of_le hij with rfl | hlt
      · exact Nat.le_refl _
      · exact List.pairwise_iff_getElem.mp hsorted i j _ _ hlt
  rw [transWeight,acceptBound]
  split_ifs with hback hsearch hmem hmem
  · simp only [exact_div,exact_ofNat,Nat.cast_one]
  · exact (exact_ofNat).trans Nat.cast_one
  · exact absurd (hfound.mp hsearch) hmem
  · exact absurd (hfound.mpr hmem) hsearch
  · simp only [exact_div,exact_ofNat,Nat.cast_one]

/-- The weight of a vertex in a row: its multiplicity times its bound. -/
def rowWeight (p q : K) (g : Made) (u v y : Nat) : K :=
  (g.neighbors 0 v).count y * acceptBound p q (g.neighbors 0 u) u y

theorem row_eq (p q : K) {u v i : Nat} (hu : u < g.vNum) (hv : v < g.vNum)
    (hi : (getEdgesWithId g)[i]? = some (u,v)) (y : Nat) :
    (List.range (getEdgesWithId g).length).foldl (fun transMat i =>
      let e := (getEdgesWithId g).getD i (0,0)
      (outEdges (getEdgesWithId g) e.2).foldl (fun transMat next =>
        addTo transMat i next.2 (transWeight p q (getEdgesWithId g) e.1 next)) transMat)
      (zeros : TransMat K) i y = rowWeight p q g u v y := by
  let edges := getEdgesWithId g
  let row : Nat → List ((Nat × Nat) × K) := fun i => (outEdges edges (edges.getD i (0,0)).2).map
    (fun next => ((i,next.2),transWeight p q edges (edges.getD i (0,0)).1 next))
  have hentries : ∀ mat : TransMat K, (List.range edges.length).foldl (fun transMat i =>
      let e := edges.getD i (0,0)
      (outEdges edges e.2).foldl (fun transMat next =>
        addTo transMat i next.2 (transWeight p q edges e.1 next)) transMat) mat =
      ((List.range edges.length).flatMap row).foldl (fun mat a => addTo mat a.1.1 a.1.2 a.2) mat := by
    intro mat
    rw [List.foldl_flatMap]
    simp only [row,List.foldl_map]
  have hedge : edges.getD i (0,0) = (u,v) := by rw [List.getD_eq_getElem?_getD,hi,Option.getD_some]
  have hother : ∀ j ∈ List.range edges.length, j ≠ i →
      (row j).filter (fun a => a.1 = (i,y)) = [] := by
    intro j _ hj
    refine List.filter_eq_nil_iff.mpr (fun a ha => ?_)
    obtain ⟨next,_,rfl⟩ := List.mem_map.mp ha
    simpa using fun he => absurd he hj
  have hone : ((row i).filter (fun a => a.1 = (i,y))).map Prod.snd =
      List.replicate ((g.neighbors 0 v).count y) (acceptBound p q (g.neighbors 0 u) u y) := by
    have hrow : row i = (outEdges edges v).map
        (fun next => ((i,next.2),acceptBound p q (g.neighbors 0 u) u next.2)) := by
      simp only [row,hedge]
      exact List.map_congr_left (fun next _ => by rw [transWeight_eq p q hu])
    rw [List.eq_replicate_iff,hrow]
    constructor
    · rw [List.length_map,← List.countP_eq_length_filter,List.countP_map,
        (outEdges_perm hv).countP_eq,List.countP_map,List.count]
      refine List.countP_congr (fun z _ => ?_)
      simp
    · intro x hx
      obtain ⟨a,ha,rfl⟩ := List.mem_map.mp hx
      obtain ⟨hmem,hentry⟩ := List.mem_filter.mp ha
      obtain ⟨next,_,rfl⟩ := List.mem_map.mp hmem
      have hy : next.2 = y := (Prod.mk.inj (of_decide_eq_true hentry)).2
      rw [hy]
  rw [hentries,foldl_addTo,List.filter_flatMap,flatMap_single List.nodup_range
    (List.mem_range.mpr (List.getElem?_eq_some_iff.mp hi).1) hother,hone,List.sum_replicate,zeros,
    exact_ofNat,Nat.cast_zero,zero_add,nsmul_eq_mul,rowWeight]

/-- A graph on which every walk goes on, and along edges between different vertices. -/
structure Goes (g : Made) : Prop where
  positive : ∀ v < g.vNum, g.neighbors 0 v ≠ []
  inside : ∀ v < g.vNum, ∀ y ∈ g.neighbors 0 v, y < g.vNum
  different : ∀ v < g.vNum, v ∉ g.neighbors 0 v

theorem mem_getEdgesWithId {u v : Nat} (h : (u,v) ∈ getEdgesWithId g) :
    u < g.vNum ∧ v ∈ g.neighbors 0 u := by
  obtain ⟨w,hw,hmem⟩ := List.mem_flatMap.mp h
  obtain ⟨y,hy,he⟩ := List.mem_map.mp hmem
  obtain ⟨rfl,rfl⟩ := Prod.mk.inj he
  exact ⟨List.mem_range.mp hw,hy⟩

theorem Goes.asserts (h : Goes g) :
    (getEdgesWithId g).all (assertEdge (getEdgesWithId g)) = true := by
  rw [List.all_eq_true]
  rintro ⟨u,v⟩ hedge
  obtain ⟨hu,hv⟩ := mem_getEdgesWithId hedge
  have hvNum := h.inside u hu v hv
  have hne : u ≠ v := fun he => h.different u hu (he ▸ hv)
  rw [assertEdge,Bool.and_eq_true]
  refine ⟨decide_eq_true hne,?_⟩
  rw [Bool.not_eq_true',List.isEmpty_eq_false_iff,← List.length_pos_iff,
    (outEdges_perm hvNum).length_eq,List.length_map,List.length_pos_iff]
  exact h.positive v hvNum

theorem rowWeight_nonneg [IsStrictOrderedRing K] {p q : K} (hp : 0 < p) (hq : 0 < q) (u v y : Nat) :
    0 ≤ rowWeight p q g u v y :=
  mul_nonneg (Nat.cast_nonneg _) (acceptBound_pos hp hq _ u y).le

theorem Goes.sum_pos [IsStrictOrderedRing K] (h : Goes g) {p q : K} (hp : 0 < p) (hq : 0 < q)
    (u : Nat) {v : Nat} (hv : v < g.vNum) :
    0 < ∑ z ∈ Finset.range g.vNum, rowWeight p q g u v z := by
  obtain ⟨y,hy⟩ := List.exists_mem_of_ne_nil _ (h.positive v hv)
  refine Finset.sum_pos' (fun z _ => rowWeight_nonneg hp hq u v z)
    ⟨y,Finset.mem_range.mpr (h.inside v hv y hy),?_⟩
  exact mul_pos (Nat.cast_pos.mpr (List.count_pos_iff.mpr hy)) (acceptBound_pos hp hq _ u y)

theorem Goes.getNode2vecTransMatrix_eq [IsStrictOrderedRing K] (h : Goes g) {p q : K} (hp : 0 < p)
    (hq : 0 < q) : ∃ transMat : TransMat K,
      getNode2vecTransMatrix g.vNum (getEdgesWithId g) p q zeros = some transMat ∧
      ∀ i u v, (getEdgesWithId g)[i]? = some (u,v) → ∀ y, transMat i y =
        rowWeight p q g u v y / ∑ z ∈ Finset.range g.vNum, rowWeight p q g u v z := by
  refine ⟨_,if_pos h.asserts,fun i u v hi y => ?_⟩
  obtain ⟨hu,hv⟩ := mem_getEdgesWithId (List.mem_of_getElem? hi)
  have hvNum := h.inside u hu v hv
  have hrow := fun z => row_eq p q hu hvNum hi z
  have hsum : ∀ mat : TransMat K, (∀ z, mat i z = rowWeight p q g u v z) →
      ((List.range g.vNum).map (mat i)).sum =
        ∑ z ∈ Finset.range g.vNum, rowWeight p q g u v z := by
    intro mat hmat
    rw [List.map_congr_left (fun z _ => hmat z)]
    rfl
  rw [matNormalization_eq (by rw [hsum _ hrow]; exact (h.sum_pos hp hq u hvNum).ne'),hsum _ hrow]
  exact congrArg (· / _) (hrow y)

end

end FlashMob.Reference
