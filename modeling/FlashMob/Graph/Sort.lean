import FlashMob.Graph.Load
import FlashMob.Lib.Buckets
import FlashMob.Lib.Loops

namespace FlashMob.Graph
open Lib.Buckets Lib.Cursor Lib.Loops Lib.Writes

/-- The ends of edges that count for a degree. -/
def ends (asUndirected : Bool) (edges : List (Nat × Nat)) : List Nat :=
  edges.flatMap (fun e => if asUndirected then [e.1,e.2] else [e.1])

theorem countDegrees_eq (asUndirected : Bool) (edges : List (Nat × Nat)) (v : Nat) :
    countDegrees asUndirected edges v = u32 ((ends asUndirected edges).count v) := by
  have hfold : countDegrees asUndirected edges =
      (ends asUndirected edges).foldl bumpDegree (fun _ => 0) := by
    rw [countDegrees,ends,List.foldl_flatMap]
    cases asUndirected <;> rfl
  rw [hfold]
  induction ends asUndirected edges using List.reverseRecOn with
  | nil => rfl
  | append_singleton l x ih =>
    rw [List.foldl_append,List.foldl_cons,List.foldl_nil,bumpDegree,List.count_append]
    by_cases hv : v = x
    · subst hv
      rw [Function.update_self,ih,List.count_singleton_self,u32,u32,u32,Nat.mod_add_mod]
    · rw [Function.update_of_ne hv,ih,List.count_singleton,if_neg (by simpa using Ne.symm hv),
        Nat.add_zero]

section
variable {data : List VertexSortUnit}

theorem summed_eq (n k : Nat) : (List.range' 1 n).foldl (fun (counters : Nat → Nat) d =>
      Function.update counters d (counters d + counters (d - 1)))
      (advance (fun _ => 0) (data.map VertexSortUnit.degree)) k =
    if k ≤ n then starts (data.map VertexSortUnit.degree) (k+1)
    else (data.map VertexSortUnit.degree).count k := by
  induction n generalizing k with
  | zero =>
    rw [List.range'_zero,List.foldl_nil,advance,Nat.zero_add]
    cases k with
    | zero => rw [if_pos (Nat.le_refl 0),starts_succ,starts_zero,Nat.zero_add]
    | succ k => rw [if_neg (by omega)]
  | succ n ih =>
    rw [List.range'_1_concat,List.foldl_append,List.foldl_cons,List.foldl_nil]
    rcases Nat.lt_trichotomy k (1 + n) with hk | hk | hk
    · rw [Function.update_of_ne (by omega),ih,if_pos (by omega),if_pos (by omega)]
    · subst hk
      rw [Function.update_self,ih,ih,if_neg (by omega),if_pos (by omega),if_pos (by omega),
        starts_succ _ (1 + n),Nat.add_sub_cancel_left,Nat.add_comm 1 n,Nat.add_comm]
    · rw [Function.update_of_ne (by omega),ih,if_neg (by omega),if_neg (by omega)]

theorem degreeCounters_eq {high d : Nat} (hd : d ≤ high) :
    degreeCounters data high d = starts (data.map VertexSortUnit.degree) (d+1) := by
  rw [degreeCounters,foldl_bump]
  exact (summed_eq high d).trans (if_pos hd)

/-- The counters serve as the first places of the degrees, which are counted from one on. -/
theorem starts_pred (hpos : ∀ u ∈ data, u.degree ≠ 0) (k : Nat) :
    starts (data.map VertexSortUnit.degree) (k+1) = starts (data.map (fun u => u.degree - 1)) k := by
  rw [starts,starts,List.countP_map,List.countP_map]
  apply List.countP_congr
  intro u hu
  have := hpos u hu
  simp only [Function.comp_apply,decide_eq_true_eq]
  omega

/-- What the placing loop leaves: each unit in its slot, counted from the end. -/
theorem countingSort_eq (hpos : ∀ u ∈ data, u.degree ≠ 0)
    (hhigh : ∀ u ∈ data, u.degree < uintMax) :
    countingSort data = some ((List.range data.length).map (writes (fun i => data.getD i ⟨0,0⟩)
      ((data.zip (slots (starts (data.map (fun u => u.degree - 1)))
        (data.map (fun u => u.degree - 1)))).map (fun q => (data.length - q.2 - 1,q.1))))) := by
  have hmax := foldl_max_le_iff VertexSortUnit.degree data 0
  have hle := (hmax (uintMax - 1)).mpr ⟨Nat.zero_le _,fun u hu => by
    have := hhigh u hu
    omega⟩
  have huint : uintMax = 2 ^ 32 - 1 := rfl
  unfold countingSort
  simp only
  rw [if_neg (by
    rw [not_or]
    refine ⟨by omega,?_⟩
    simpa using hpos)]
  have hslots : slots (degreeCounters data (data.foldl (fun high u => max high u.degree) 0))
      (data.map (fun u => u.degree - 1)) =
      slots (starts (data.map (fun u => u.degree - 1))) (data.map (fun u => u.degree - 1)) := by
    apply slots_congr
    intro k hk
    obtain ⟨u,hu,rfl⟩ := List.mem_map.mp hk
    have := ((hmax _).mp (Nat.le_refl _)).2 u hu
    rw [degreeCounters_eq (by omega),starts_pred hpos]
  rw [foldl_claim (fun u : VertexSortUnit => u.degree - 1)
    (fun u pos (arr : Nat → VertexSortUnit) => Function.update arr (data.length - pos - 1) u),
    hslots,foldl_update (fun q : VertexSortUnit × Nat => data.length - q.2 - 1)]

/-- The stores go to the buckets of the degrees, which lie one behind the other from the end. -/
theorem placed_reverse (old : Nat → VertexSortUnit) {n : Nat}
    (hn : ∀ u ∈ data, u.degree - 1 < n) :
    ((List.range data.length).map (writes old
      ((data.zip (slots (starts (data.map (fun u => u.degree - 1)))
        (data.map (fun u => u.degree - 1)))).map (fun q => (data.length - q.2 - 1,q.1))))).reverse =
    (List.range n).flatMap (fun k => data.filter (fun u => u.degree - 1 = k)) := by
  let ops := data.map (fun u => (u.degree - 1,u))
  let last : Unit × Nat → Nat := fun a => data.length - a.2 - 1
  have hkeys : ops.map Prod.fst = data.map (fun u => u.degree - 1) := by
    rw [List.map_map]
    rfl
  have hclaims : (data.zip (slots (starts (data.map (fun u => u.degree - 1)))
        (data.map (fun u => u.degree - 1)))).map (fun q => (data.length - q.2 - 1,q.1)) =
      (claims (fun _ => ()) (starts (ops.map Prod.fst)) ops).map (fun op => (last op.1,op.2)) := by
    rw [claims,hkeys,List.zip_map_left,List.map_map,List.map_map]
    rfl
  have hall : starts (ops.map Prod.fst) n = data.length := by
    rw [starts_eq_length (by rw [hkeys]; simpa using hn)]
    simp [ops]
  have hbuckets := range_claims_starts ops (old ∘ last) n
  have hfilter : ∀ k, (ops.filter (fun op => op.1 = k)).map Prod.snd =
      data.filter (fun u => u.degree - 1 = k) := by
    intro k
    rw [List.filter_map,List.map_map]
    exact List.map_id _
  rw [hall] at hbuckets
  simp only [hfilter] at hbuckets
  rw [← hbuckets,hclaims]
  refine List.ext_getElem (by simp) (fun i hi hi' => ?_)
  have hi : i < data.length := by simpa using hi'
  simp only [List.getElem_reverse,List.getElem_map,List.getElem_range,List.length_map,
    List.length_range]
  rw [Nat.sub_right_comm]
  refine writes_map old last (k := ((),i)) (fun op hop he => ?_)
  obtain ⟨k,j,hj,hk⟩ := mem_claims.mp (List.mem_map_of_mem hop)
  have hlen := starts_le_length (ops.map Prod.fst) (k+1)
  rw [starts_succ,List.length_map,List.length_map] at hlen
  rw [hk] at he ⊢
  have he' : data.length - (starts (ops.map Prod.fst) k + j) - 1 = data.length - i - 1 := he
  rw [show starts (ops.map Prod.fst) k + j = i by omega]

theorem countingSort_cases {sorted : List VertexSortUnit} (h : countingSort data = some sorted)
    (hrange : ∀ u ∈ data, u.degree ≤ uintMax) :
    ∀ u ∈ data, u.degree ≠ 0 ∧ u.degree < uintMax := by
  have hmax := foldl_max_le_iff VertexSortUnit.degree data 0
  have hle := (hmax uintMax).mpr ⟨Nat.zero_le _,hrange⟩
  unfold countingSort at h
  dsimp only at h
  split_ifs at h with hbad
  rw [not_or] at hbad
  have hpos : ∀ u ∈ data, u.degree ≠ 0 := by simpa using hbad.2
  intro u hu
  have := ((hmax _).mp (Nat.le_refl _)).2 u hu
  exact ⟨hpos u hu,by omega⟩

theorem countingSort_buckets (hpos : ∀ u ∈ data, u.degree ≠ 0)
    (hhigh : ∀ u ∈ data, u.degree < uintMax) {n : Nat} (hn : ∀ u ∈ data, u.degree ≤ n) :
    countingSort data =
      some ((List.range (n+1)).flatMap (fun d => data.filter (fun u => u.degree = d))).reverse := by
  have hzero : data.filter (fun u => u.degree = 0) = [] :=
    List.filter_eq_nil_iff.mpr (fun u hu => by simpa using hpos u hu)
  have hpred : ∀ k, data.filter (fun u => u.degree - 1 = k) =
      data.filter (fun u => u.degree = k+1) := by
    intro k
    apply List.filter_congr
    intro u hu
    have := hpos u hu
    rw [decide_eq_decide]
    omega
  rw [countingSort_eq hpos hhigh]
  congr 1
  rw [← List.reverse_inj,List.reverse_reverse,placed_reverse _ (n := n),List.range_succ_eq_map,
    List.flatMap_cons,hzero,List.nil_append,List.flatMap_map]
  · simp only [hpred]
  · intro u hu
    have := hpos u hu
    have := hn u hu
    omega

/-- What the sort is for. -/
structure DegreeSorted (data sorted : List VertexSortUnit) : Prop where
  perm : sorted.Perm data
  falls : sorted.Pairwise (fun u v => v.degree ≤ u.degree)
  reversed : ∀ d, sorted.filter (fun u => u.degree = d) =
    (data.filter (fun u => u.degree = d)).reverse

theorem buckets_sorted {n : Nat} (hn : ∀ u ∈ data, u.degree ≤ n) : DegreeSorted data
    ((List.range (n+1)).flatMap (fun d => data.filter (fun u => u.degree = d))).reverse := by
  have hlt : ∀ u ∈ data, u.degree < n + 1 := fun u hu => Nat.lt_succ_of_le (hn u hu)
  refine ⟨?_,?_,fun d => ?_⟩
  · exact (List.reverse_perm _).trans (filters_perm _ data hlt)
  · exact List.pairwise_reverse.mpr (filters_pairwise _ data (n+1))
  · rw [List.filter_reverse,filter_filters]
    split_ifs with hd
    · rfl
    · rw [List.filter_eq_nil_iff.mpr]
      intro u hu
      have := hlt u hu
      simp only [decide_eq_true_eq]
      omega

/-- The sort keeps the units and puts the larger degrees first, and of equal ones the last. -/
theorem countingSort_spec (hpos : ∀ u ∈ data, u.degree ≠ 0)
    (hhigh : ∀ u ∈ data, u.degree < uintMax) :
    ∃ sorted, countingSort data = some sorted ∧ DegreeSorted data sorted :=
  ⟨_,countingSort_buckets hpos hhigh (fun u hu => Nat.le_of_lt (hhigh u hu)),
    buckets_sorted (fun u hu => Nat.le_of_lt (hhigh u hu))⟩

theorem DegreeSorted.getD_le {sorted : List VertexSortUnit} (h : DegreeSorted data sorted)
    {i j : Nat} (hij : i ≤ j) (hj : j < data.length) :
    (sorted.getD j ⟨0,0⟩).degree ≤ (sorted.getD i ⟨0,0⟩).degree := by
  rw [← h.perm.length_eq] at hj
  rw [List.getD_eq_getElem _ _ hj,List.getD_eq_getElem _ _ (Nat.lt_of_le_of_lt hij hj)]
  rcases Nat.lt_or_eq_of_le hij with hlt | rfl
  · exact List.pairwise_iff_getElem.mp h.falls i j _ hj hlt
  · exact Nat.le_refl _

end

end FlashMob.Graph
