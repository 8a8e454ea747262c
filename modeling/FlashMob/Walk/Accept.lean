import FlashMob.Graph.Query

namespace FlashMob.WalkManager
open Floating FlashMob.Graph Lib.Tiling

/-- The fields of `WalkManager` that `set_node2vec` sets. -/
structure Node2vec (R : Type) where
  p : R
  q : R
  n2vLowerbound : R
  n2vUpperbound : R
  n2vMin1P : R
  n2vMin1Q : R
  divP : R
  divQ : R

section
variable {R : Type} [Floating R]

def setNode2vec (p q : R) : Node2vec R where
  p := p
  q := q
  n2vLowerbound := stdMin (ofNat 1) (stdMin (div (ofNat 1) p) (div (ofNat 1) q))
  n2vUpperbound := stdMax (ofNat 1) (stdMax (div (ofNat 1) p) (div (ofNat 1) q))
  n2vMin1P := stdMin (ofNat 1) (div (ofNat 1) p)
  n2vMin1Q := stdMin (ofNat 1) (div (ofNat 1) q)
  divP := div (ofNat 1) p
  divQ := div (ofNat 1) q

/-- `node2vec_accept`; the current vertex is not read. -/
def node2vecAccept (wm : Node2vec R) (g : NeighborGraph)
    (previousVertex _currentVertex nextVertex : Nat) (prob : R) (socket : Nat) : Option Bool :=
  if previousVertex = nextVertex then some (le prob wm.divP)
  else if le prob wm.n2vMin1Q then some true
  else (g.hasNeighbor previousVertex nextVertex socket).map (fun neighbor =>
    let val := if neighbor then ofNat 1 else wm.divQ
    le prob val)

end

section
variable {K : Type} [Field K] [LinearOrder K]

/-- The bound of the plain definition of node2vec, for the neighbours of the previous vertex. -/
def acceptBound (p q : K) (neighbors : List Nat) (previousVertex nextVertex : Nat) : K :=
  if nextVertex = previousVertex then 1 / p
  else if nextVertex ∈ neighbors then 1
  else 1 / q

variable [FloorSemiring K]

theorem acceptBound_le (p q : K) (neighbors : List Nat) (previousVertex nextVertex : Nat) :
    acceptBound p q neighbors previousVertex nextVertex ≤ (setNode2vec p q).n2vUpperbound := by
  simp only [setNode2vec,exact_stdMax,exact_ofNat,exact_div,Nat.cast_one,acceptBound]
  split_ifs
  · exact le_max_of_le_right (le_max_left _ _)
  · exact le_max_left _ _
  · exact le_max_of_le_right (le_max_right _ _)

theorem acceptBound_pos [IsStrictOrderedRing K] {p q : K} (hp : 0 < p) (hq : 0 < q)
    (neighbors : List Nat) (previousVertex nextVertex : Nat) :
    0 < acceptBound p q neighbors previousVertex nextVertex := by
  rw [acceptBound]
  split_ifs
  · exact one_div_pos.mpr hp
  · exact one_pos
  · exact one_div_pos.mpr hq

theorem n2vUpperbound_pos [IsStrictOrderedRing K] {p q : K} (hp : 0 < p) (hq : 0 < q) :
    0 < (setNode2vec p q).n2vUpperbound :=
  lt_of_lt_of_le (acceptBound_pos hp hq [] 0 0) (acceptBound_le p q [] 0 0)

theorem n2vUpperbound_ones : (setNode2vec 1 1 : Node2vec K).n2vUpperbound = 1 := by
  simp only [setNode2vec,exact_stdMax,exact_div,exact_ofNat,Nat.cast_one,div_one,max_self]

/-- With p = q = 1 every vertex is accepted up to the bound of the draw. -/
theorem node2vecAccept_ones (g : NeighborGraph) (previousVertex currentVertex nextVertex socket : Nat)
    {prob : K} (h : prob ≤ 1) : node2vecAccept (setNode2vec 1 1) g previousVertex currentVertex
      nextVertex prob socket = some true := by
  have haccept : decide (prob ≤ 1) = true := decide_eq_true h
  simp only [node2vecAccept,setNode2vec,exact_le,exact_div,exact_stdMin,exact_ofNat,Nat.cast_one,
    div_one,min_self,haccept,if_true,ite_self]

theorem node2vecAccept_eq (p q : K) {g : NeighborGraph} {neighbors : List Nat}
    {previousVertex nextVertex socket : Nat} (currentVertex : Nat) (prob : K)
    (hneighbor : g.hasNeighbor previousVertex nextVertex socket =
      some (decide (nextVertex ∈ neighbors))) :
    node2vecAccept (setNode2vec p q) g previousVertex currentVertex nextVertex prob socket =
      some (decide (prob ≤ acceptBound p q neighbors previousVertex nextVertex)) := by
  rw [node2vecAccept,acceptBound,hneighbor]
  simp only [setNode2vec,exact_le,exact_div,exact_stdMin,exact_ofNat,Nat.cast_one,
    Option.map_some]
  by_cases hp : previousVertex = nextVertex
  · rw [if_pos hp,if_pos hp.symm]
  · rw [if_neg hp,if_neg (Ne.symm hp)]
    by_cases hlow : prob ≤ min 1 (1 / q)
    · -- The early exit is below both of the other bounds.
      obtain ⟨h1,hq⟩ := le_min_iff.mp hlow
      rw [if_pos (decide_eq_true hlow)]
      congr 1
      split_ifs
      · exact (decide_eq_true h1).symm
      · exact (decide_eq_true hq).symm
    · rw [if_neg (by simpa using hlow)]
      by_cases hn : nextVertex ∈ neighbors
      · rw [if_pos (decide_eq_true hn),if_pos hn]
      · rw [if_neg (by simpa using hn),if_neg hn]

/-- After any number of calls of `prepare_neighbor_query`, a neighbour query tells exactly the
neighbours, and in exact arithmetic the test accepts up to the bound of the plain definition. -/
theorem queries_and_acceptance_exact {D : Type} (cfg : MultiThreadConfig) (hint : GraphHint D)
    (schedule : List (Nat × Nat) → List (Nat × Nat)) (loaded : Loaded) (made : Made)
    (rows : List (List (Nat × Nat))) (hmake : make cfg hint schedule loaded = some made)
    (hrows : partitionRows loaded.vNum hint = some rows) (ht : Tiles 0 rows.flatten loaded.vNum)
    (hsock : 1 ≤ cfg.socketNum) (orders : List QueryOrder) (horders : orders ≠ []) :
    let g := orders.foldl NeighborGraph.prepareNeighborQuery ⟨made,none⟩
    (∀ u < made.vNum, ∀ v < made.vNum, ∀ s < made.socketNum,
      g.hasNeighbor u v s = some (decide (v ∈ made.neighbors s u))) ∧
    ∀ (p q : K), ∀ previous < made.vNum, ∀ current < made.vNum, ∀ next < made.vNum,
      ∀ s < made.socketNum, ∀ prob,
      (node2vecAccept (setNode2vec p q) g previous current next prob s = some true ↔
        prob ≤ acceptBound p q (made.neighbors s previous) previous next) ∧
      acceptBound p q (made.neighbors s previous) previous next ≤
        (setNode2vec p q).n2vUpperbound := by
  intro g
  obtain ⟨rows',k,units,hrows',_,_,rfl⟩ := make_cases hmake
  obtain rfl : rows = rows' := Option.some.inj (hrows.symm.trans hrows')
  have hlaid := assemble_laid hint schedule ht hsock k units
  obtain ⟨hq,hbf⟩ := prepared_queried hlaid orders
  refine ⟨fun u hu v _ s hs => hq.hasNeighbor_eq hlaid (hbf horders) hu hs v,?_⟩
  intro p q previous hprevious current _ next _ s hs prob
  rw [node2vecAccept_eq p q current prob
    (hq.hasNeighbor_eq hlaid (hbf horders) hprevious hs next)]
  exact ⟨by simp,acceptBound_le p q _ previous next⟩

/-- A path of three vertices, prepared twice. -/
theorem queries_and_acceptance_path :
    let loaded : Loaded := ⟨true,3,4,[(0,1),(1,2)],[2,2,2,1,2,2,2,0],[⟨1,2⟩,⟨2,1⟩,⟨0,1⟩],[0,2,3,4]⟩
    let hint : GraphHint Unit := ⟨2,1,[⟨0,3,1,2,(),(),0⟩],[]⟩
    let order : QueryOrder := ⟨List.reverse,id,List.reverse_perm,List.Perm.refl⟩
    ∃ made, make ⟨2,2,0⟩ hint id loaded = some made ∧
      (node2vecAccept (setNode2vec (2 : ℚ) 4)
        ([order,order].foldl NeighborGraph.prepareNeighborQuery ⟨made,none⟩) 0 1 2 1 0 =
          some true ↔ 1 ≤ acceptBound (2 : ℚ) 4 (made.neighbors 0 0) 0 2) := by
  intro loaded hint order
  obtain ⟨made,hmade⟩ := Option.isSome_iff_exists.mp
    (show (make ⟨2,2,0⟩ hint id loaded).isSome = true by rfl)
  obtain ⟨_,_,_,_,_,_,hsame⟩ := make_cases hmade
  have hnum : made.vNum = 3 := by rw [hsame]; rfl
  have hsock : made.socketNum = 2 := by rw [hsame]; rfl
  obtain ⟨_,haccept⟩ := queries_and_acceptance_exact (K := ℚ) ⟨2,2,0⟩ hint id loaded made
    [[(0,2),(2,3)]] hmade rfl ⟨rfl,by decide,rfl,by decide,rfl⟩ (by decide) [order,order] (by simp)
  exact ⟨made,hmade,(haccept 2 4 0 (by omega) 1 (by omega) 2 (by omega) 0 (by omega) 1).1⟩

end

end FlashMob.WalkManager
