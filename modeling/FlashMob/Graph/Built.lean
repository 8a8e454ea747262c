import FlashMob.Graph.Edges

namespace FlashMob.Graph
open Lib.Buckets Lib.Tiling Lib.Writes

/-- What it means that a graph with the stores `log` of its edge loop is the multigraph of
the input. -/
structure BuildsInput (edges : List (Nat × Nat)) (asUndirected : Bool) (made : Made)
    (log : List (Slot × Nat)) : Prop where
  contents : made.edges = writes (fun _ => 0) log
  /-- Every slot of every list is stored to once, -/
  written : ∀ s < made.socketNum, ∀ v < made.vNum, ∀ i < (made.adjlists s v).degree,
    (log.map Prod.fst).count
      ((made.adjlists s v).begin.1,(made.adjlists s v).begin.2 + i) = 1
  /-- and nothing else is stored to. -/
  slots : ∀ a ∈ log.map Prod.fst, ∃ v < made.vNum, ∃ i < (made.adjlists 0 v).degree,
    a = ((made.adjlists 0 v).begin.1,(made.adjlists 0 v).begin.2 + i)
  inside : ∀ s < made.socketNum, ∀ v < made.vNum, (made.adjlists s v).begin.1 < made.socketNum ∧
    (made.adjlists s v).begin.2 + (made.adjlists s v).degree ≤
      edgeArrayLength made.socketNum made.partitions (fun v => (made.adjlists s v).degree)
        (made.adjlists s v).begin.1
  disjoint : ∀ s < made.socketNum, ∀ u < made.vNum, ∀ v < made.vNum, u ≠ v →
    (made.adjlists s u).begin.1 = (made.adjlists s v).begin.1 →
    (made.adjlists s u).begin.2 + (made.adjlists s u).degree ≤ (made.adjlists s v).begin.2 ∨
      (made.adjlists s v).begin.2 + (made.adjlists s v).degree ≤ (made.adjlists s u).begin.2
  names : Set.BijOn made.id2name (Set.Iio made.vNum) {n | n ∈ names edges}
  multigraph : ∀ s < made.socketNum,
    ((List.range made.vNum).flatMap (fun u =>
      (made.neighbors s u).map (fun v => (made.id2name u,made.id2name v)))).Perm
    (edges ++ if asUndirected then edges.map Prod.swap else [])
  tables : ∀ s < made.socketNum, ∀ v < made.vNum, made.adjlists s v = made.adjlists 0 v

theorem insertions_perm (asUndirected : Bool) (edges : List (Nat × Nat)) :
    (insertions asUndirected edges).Perm
      (edges ++ if asUndirected then edges.map Prod.swap else []) := by
  cases asUndirected with
  | false =>
    refine List.Perm.of_eq ?_
    simp [insertions]
  | true =>
    have h := List.flatMap_append_perm edges (fun e => [e]) (fun e => [e.swap])
    refine (List.Perm.of_eq ?_).trans h.symm |>.trans (List.Perm.of_eq ?_)
    · simp [insertions,Prod.swap]
    · simp [List.map_eq_flatMap]

theorem nameTable_named {seen name2id : List Nat} {vNum : Nat} {id2newid : Nat → Nat}
    (h : Named seen (name2id,vNum)) (hfew : seen.length ≤ uintMax)
    (hinj : ∀ i j, i < vNum → j < vNum → id2newid i = id2newid j → i = j) {n : Nat}
    (hn : n ∈ seen) : nameTable name2id id2newid (id2newid (seen.idxOf n)) = n := by
  have hnum : vNum = seen.length := h.vNum
  have hidx : ∀ m ∈ seen, seen.idxOf m < vNum := fun m hm => by
    rw [hnum]
    exact List.idxOf_lt_length_iff.mpr hm
  have hids : ∀ m, name2id.getD m uintMax = if m ∈ seen then seen.idxOf m else uintMax := h.ids
  -- The loop stores at the names that have an id.
  have hloop : ∀ (l : List Nat) (f : Nat → Nat), l.foldl (fun id2name n =>
      if name2id.getD n uintMax = uintMax then id2name
      else Function.update id2name (id2newid (name2id.getD n uintMax)) n) f =
      writes f ((l.filter (fun n => n ∈ seen)).map (fun n => (id2newid (seen.idxOf n),n))) := by
    intro l
    induction l with
    | nil => intro f; rfl
    | cons m l ih =>
      intro f
      rw [List.foldl_cons,ih,hids m]
      by_cases hm : m ∈ seen
      · have hlt := hidx m hm
        rw [if_pos hm,if_neg (by omega),List.filter_cons_of_pos (by simpa using hm),List.map_cons,
          writes_cons]
      · rw [if_neg hm,if_pos rfl,List.filter_cons_of_neg (by simpa using hm)]
  rw [nameTable,hloop]
  apply writes_of_mem
  · rw [List.map_map]
    refine List.Nodup.map_on ?_ (List.nodup_range.filter _)
    intro a ha b hb he
    have ha' : a ∈ seen := by simpa using (List.mem_filter.mp ha).2
    have hb' : b ∈ seen := by simpa using (List.mem_filter.mp hb).2
    exact (List.idxOf_inj ha').mp (hinj _ _ (hidx a ha') (hidx b hb') he)
  · refine List.mem_map.mpr ⟨n,List.mem_filter.mpr ⟨?_,by simpa using hn⟩,rfl⟩
    rw [List.mem_range]
    apply Nat.lt_of_not_le
    intro hle
    have hid := hids n
    rw [List.getD_eq_default _ _ hle,if_pos hn] at hid
    have := hidx n hn
    omega

section
variable {edges : List (Nat × Nat)} {asUndirected : Bool} {seen : List Nat} {g : Loaded}
  (ok : LoadOk edges asUndirected seen g) {partitions : List (Nat × Nat)}
  {units : Nat → VertexSortUnit} (ht : Tiles 0 partitions g.vNum)
  (hr : Redistributed partitions g.vNum g.unit units)
include ok ht hr

/-- The table of names leads from the final id of a name back to it. -/
theorem nameTable_newId {n : Nat} (hn : n ∈ seen) :
    nameTable g.name2id (newIds partitions units) (newIds partitions units (seen.idxOf n)) = n := by
  have hp := units_permuted ok hr
  have hfew := Nat.le_of_lt ok.few
  refine nameTable_named ⟨ok.nodup,ok.vNum,ok.ids⟩ hfew ?_ hn
  intro a b ha hb he
  exact newIds_inj ht hp ha hb he

theorem nameTable_bijOn : Set.BijOn (nameTable g.name2id (newIds partitions units))
    (Set.Iio g.vNum) {n | n ∈ names edges} := by
  have hp := units_permuted ok hr
  -- Every final id is that of a name.
  have hname : ∀ x < g.vNum, ∃ n ∈ seen, newIds partitions units (seen.idxOf n) = x := by
    intro x hx
    have hv := (unit_eq ok hr hx).1
    have hv' : (units x).vertex < seen.length := ok.vNum ▸ hv
    refine ⟨seen[(units x).vertex],List.getElem_mem hv',?_⟩
    rw [ok.nodup.idxOf_getElem _ hv',newIds_vertex ht hp hx]
  refine ⟨?_,?_,?_⟩
  · intro x hx
    obtain ⟨n,hn,rfl⟩ := hname x hx
    rw [nameTable_newId ok ht hr hn]
    exact (ok.seen_iff n).mp hn
  · intro x hx y hy he
    obtain ⟨n,hn,rfl⟩ := hname x hx
    obtain ⟨m,hm,rfl⟩ := hname y hy
    rw [nameTable_newId ok ht hr hn,nameTable_newId ok ht hr hm] at he
    rw [he]
  · intro n hn
    have hs := (ok.seen_iff n).mpr hn
    have hlt : seen.idxOf n < g.vNum := by
      rw [ok.vNum]
      exact List.idxOf_lt_length_iff.mpr hs
    obtain ⟨x,hx,_,he⟩ := exists_newId ht hp hlt
    exact ⟨x,hx,by rw [← he]; exact nameTable_newId ok ht hr hs⟩

/-- The edges under the final numbering, with the names put back, are those of the input. -/
theorem insertions_named : (insertions asUndirected (newEdges g (newIds partitions units))).map
    (fun e => (nameTable g.name2id (newIds partitions units) e.1,
      nameTable g.name2id (newIds partitions units) e.2)) = insertions asUndirected edges := by
  rw [← insertions_map,newEdges,ok.rawEdges,List.map_map,List.map_map]
  congr 1
  conv_rhs => rw [← List.map_id edges]
  apply List.map_congr_left
  intro e he
  have h1 := (ok.seen_iff _).mpr (fst_mem_names he)
  have h2 := (ok.seen_iff _).mpr (snd_mem_names he)
  simp only [Function.comp_apply,nameTable_newId ok ht hr h1,nameTable_newId ok ht hr h2,id]

theorem assemble_buildsInput {D : Type} {cfg : MultiThreadConfig} (hint : GraphHint D)
    {schedule : List (Nat × Nat) → List (Nat × Nat)} (k : Nat) (hsock : 0 < cfg.socketNum)
    (hsched : ∀ l, (schedule l).Perm l) :
    BuildsInput edges asUndirected (assemble cfg hint schedule g partitions k units)
      (edgeWrites cfg.socketNum schedule g partitions units) := by
  have hsep := separated_begins ok ht hr hsched hsock
  have hdegree := fun (x : Nat) (hx : x < g.vNum) => count_schedule ok ht hr hsched hx
  have htables := fun (s : Nat) (hs : s < cfg.socketNum) =>
    assemble_adjlists hint schedule g partitions k units hs
  refine ⟨rfl,?_,?_,?_,?_,nameTable_bijOn ok ht hr,?_,?_⟩
  · intro s hs v hv i hi
    rw [htables s hs] at hi ⊢
    rw [edgeWrites,slotWrites_eq]
    refine List.count_eq_one_of_mem (claims_nodup hsep) (mem_claims.mpr ⟨v,i,?_,rfl⟩)
    rwa [hdegree v hv]
  · intro a ha
    rw [edgeWrites,slotWrites_eq] at ha
    obtain ⟨v,i,hi,rfl⟩ := mem_claims.mp ha
    obtain ⟨op,hop,hv⟩ := List.mem_map.mp (List.count_pos_iff.mp (Nat.zero_lt_of_lt hi))
    have hlt : v < g.vNum := hv ▸ mem_schedule_lt ok ht hr hsched hop
    refine ⟨v,hlt,i,?_,?_⟩
    · rw [htables 0 hsock]
      rwa [hdegree v hlt] at hi
    · rw [htables 0 hsock]
  · intro s hs v hv
    rw [htables s hs]
    exact begins_inside ht cfg.socketNum _ hsock hv
  · intro s hs u hu v hv hne hz
    rw [htables s hs] at hz ⊢
    exact begins_disjoint ht cfg.socketNum _ hsock hu hv hne hz
  · intro s hs
    have hneighbors : (List.range g.vNum).flatMap (fun u =>
        ((assemble cfg hint schedule g partitions k units).neighbors s u).map
          (fun v => (nameTable g.name2id (newIds partitions units) u,
            nameTable g.name2id (newIds partitions units) v))) =
        ((List.range g.vNum).flatMap (fun u =>
          (schedule (insertions g.asUndirected (newEdges g (newIds partitions units)))).filter
            (fun op => op.1 = u))).map
          (fun e => (nameTable g.name2id (newIds partitions units) e.1,
            nameTable g.name2id (newIds partitions units) e.2)) := by
      rw [List.map_flatMap]
      apply List.flatMap_congr
      intro u hu
      rw [neighbors_eq ok ht hr hsched hint k hs (List.mem_range.mp hu),List.map_map]
      apply List.map_congr_left
      intro op hop
      have he : op.1 = u := by simpa using (List.mem_filter.mp hop).2
      simp only [Function.comp_apply,he]
    refine List.Perm.trans (List.Perm.of_eq hneighbors) ?_
    refine ((filters_perm Prod.fst _ (fun op hop => mem_schedule_lt ok ht hr hsched hop)).map _).trans ?_
    refine ((hsched _).map _).trans ?_
    rw [ok.undirected,insertions_named ok ht hr]
    exact insertions_perm asUndirected edges
  · intro s hs v _
    rw [htables s hs,htables 0 hsock]

end

/-- A multigraph of the input is built from every edge list whose ends can be counted, for
every hint whose partitions tile the vertices. -/
theorem make_builds_input {D : Type} (edges : List (Nat × Nat)) (asUndirected : Bool)
    (cfg : MultiThreadConfig) (hint : GraphHint D)
    (schedule : List (Nat × Nat) → List (Nat × Nat)) (rows : List (List (Nat × Nat)))
    (hcount : Loadable asUndirected edges) (hsock : 1 ≤ cfg.socketNum) (hthreads : 1 ≤ cfg.threadNum)
    (hrows : partitionRows (names edges).dedup.length hint = some rows)
    (ht : Tiles 0 rows.flatten (names edges).dedup.length) (hfirst : rows.headD [] ≠ [])
    (hsched : ∀ l, (schedule l).Perm l) :
    ∃ g k units, load edges asUndirected = some g ∧
      make cfg hint schedule g = some (assemble cfg hint schedule g rows.flatten k units) ∧
      BuildsInput edges asUndirected (assemble cfg hint schedule g rows.flatten k units)
        (edgeWrites cfg.socketNum schedule g rows.flatten units) := by
  obtain ⟨seen,g,hload,ok⟩ := load_loadOk hcount
  have hnum : g.vNum = (names edges).dedup.length :=
    ok.vNum.trans (length_eq_names ok.nodup ok.seen_iff)
  rw [← hnum] at hrows ht
  obtain ⟨k,units,hmake,hr⟩ := make_isSome schedule hrows ht hthreads hfirst
  exact ⟨g,k,units,hload,hmake,assemble_buildsInput ok ht hr hint k hsock hsched⟩

theorem make_builds_input_path :
    ∃ g k units, load [(7,3),(3,5)] true = some g ∧
      make ⟨2,2,0⟩ (⟨2,1,[⟨0,3,1,2,(),(),0⟩],[]⟩ : GraphHint Unit) List.reverse g =
        some (assemble ⟨2,2,0⟩ (⟨2,1,[⟨0,3,1,2,(),(),0⟩],[]⟩ : GraphHint Unit) List.reverse g
          [(0,2),(2,3)] k units) ∧
      BuildsInput [(7,3),(3,5)] true
        (assemble ⟨2,2,0⟩ (⟨2,1,[⟨0,3,1,2,(),(),0⟩],[]⟩ : GraphHint Unit) List.reverse g
          [(0,2),(2,3)] k units)
        (edgeWrites 2 List.reverse g [(0,2),(2,3)] units) := by
  exact make_builds_input [(7,3),(3,5)] true ⟨2,2,0⟩ ⟨2,1,[⟨0,3,1,2,(),(),0⟩],[]⟩ List.reverse
    [[(0,2),(2,3)]] (loadable_of_length (by decide)) (by decide) (by decide) (by decide)
    ⟨rfl,by decide,rfl,by decide,rfl⟩ (by decide) (fun l => List.reverse_perm l)

theorem rename_loops (n : Nat) :
    rename (List.replicate (n+1) (0,0)) = ⟨[0],1,List.replicate (n+1) (0,0)⟩ := by
  induction n with
  | zero => rfl
  | succ n ih =>
    rw [List.replicate_succ',rename,List.foldl_append]
    rw [rename] at ih
    rw [ih]
    rfl

theorem count_loops (n : Nat) : (ends true (List.replicate n (0,0))).count 0 = 2 * n := by
  induction n with
  | zero => rfl
  | succ n ih =>
    rw [List.replicate_succ',ends,List.flatMap_append,List.count_append,← ends,ih]
    rfl

theorem load_loops {n : Nat} (hn : u32 (2 * (n + 1)) = 2) :
    load (List.replicate (n+1) (0,0)) true =
      some ⟨true,1,(n + 1) * 2,List.replicate (n+1) (0,0),[0],[⟨0,2⟩],[0,2]⟩ := by
  have hunits : unsortedUnits true (rename (List.replicate (n+1) (0,0))) = [⟨0,2⟩] := by
    rw [rename_loops,unsortedUnits]
    simp only [List.range_one,List.map_singleton,countDegrees_eq,count_loops,hn]
  have hsort : countingSort [⟨0,2⟩] = some [⟨0,2⟩] := by decide
  rw [load,hunits,hsort,rename_loops]
  simp

theorem names_loops (n : Nat) : (names (List.replicate (n+1) (0,0))).dedup = [0] := by
  have hconst : ∀ m, names (List.replicate m (0,0)) = List.replicate (2 * m) 0 := by
    intro m
    induction m with
    | zero => rfl
    | succ m ih =>
      rw [List.replicate_succ,names,List.flatMap_cons,← names,ih,show 2 * (m + 1) = 2 * m + 1 + 1 by
        omega,List.replicate_succ,List.replicate_succ]
      rfl
  rw [hconst,List.replicate_dedup (by omega)]

/-- The adjacency list is too short for the loops when their number of ends is 2 only in
32 bits. -/
theorem loops_not_multigraph {n : Nat} (hn : u32 (2 * (n + 1)) = 2) (hbig : 0 < n) {g : Loaded}
    {k : Nat} {units : Nat → VertexSortUnit} {hint : GraphHint Unit}
    (heq : hint = ⟨0,1,[⟨0,1,0,1,(),(),0⟩],[]⟩)
    (hload : load (List.replicate (n+1) (0,0)) true = some g)
    (hmake : make ⟨1,1,0⟩ hint id g = some (assemble ⟨1,1,0⟩ hint id g [(0,1)] k units)) :
    ¬ BuildsInput (List.replicate (n+1) (0,0)) true
      (assemble ⟨1,1,0⟩ hint id g [(0,1)] k units) (edgeWrites 1 id g [(0,1)] units) := by
  subst heq
  intro hb
  rw [load_loops hn,Option.some.injEq] at hload
  subst hload
  have hdegree : (units 0).degree = 2 := by
    have h := congrArg (Option.map (fun m : Made => (m.adjlists 0 0).degree)) hmake
    exact (Option.some.inj h).symm
  have hlen := (hb.multigraph 0 Nat.one_pos).length_eq
  have hrange : List.range (assemble ⟨1,1,0⟩ (⟨0,1,[⟨0,1,0,1,(),(),0⟩],[]⟩ : GraphHint Unit) id
      ⟨true,1,(n + 1) * 2,List.replicate (n+1) (0,0),[0],[⟨0,2⟩],[0,2]⟩ [(0,1)] k units).vNum = [0] :=
    rfl
  rw [hrange,List.flatMap_singleton,List.length_map,Made.neighbors,List.length_map,
    List.length_range] at hlen
  have hadj : ((assemble ⟨1,1,0⟩ (⟨0,1,[⟨0,1,0,1,(),(),0⟩],[]⟩ : GraphHint Unit) id
      ⟨true,1,(n + 1) * 2,List.replicate (n+1) (0,0),[0],[⟨0,2⟩],[0,2]⟩ [(0,1)] k
      units).adjlists 0 0).degree = 2 := hdegree
  simp only [hadj,if_true,List.length_append,List.length_map,List.length_replicate] at hlen
  omega

/-- With 2^31 + 1 loops the degree of their vertex wraps to 2. With an empty first group there
is no partition to deal to. -/
theorem not_always_built : (¬ ∀ (edges : List (Nat × Nat)) (asUndirected : Bool)
    (cfg : MultiThreadConfig) (hint : GraphHint Unit)
    (schedule : List (Nat × Nat) → List (Nat × Nat)) (rows : List (List (Nat × Nat))),
    edges ≠ [] → (names edges).dedup.length < uintMax →
    (asUndirected = false → ∀ n ∈ names edges, n ∈ edges.map Prod.fst) →
    1 ≤ cfg.socketNum → 1 ≤ cfg.threadNum →
    partitionRows (names edges).dedup.length hint = some rows →
    Tiles 0 rows.flatten (names edges).dedup.length → (∀ l, (schedule l).Perm l) →
    ∃ g k units, load edges asUndirected = some g ∧
      make cfg hint schedule g = some (assemble cfg hint schedule g rows.flatten k units) ∧
      BuildsInput edges asUndirected (assemble cfg hint schedule g rows.flatten k units)
        (edgeWrites cfg.socketNum schedule g rows.flatten units)) ∧
    partitionRows 2 (⟨1,2,[⟨0,0,1,0,(),(),0⟩,⟨0,2,1,1,(),(),0⟩],[]⟩ : GraphHint Unit) =
      some [[],[(0,2)]] ∧
    ((load [(0,1)] true).bind (make ⟨1,1,0⟩
      (⟨1,2,[⟨0,0,1,0,(),(),0⟩,⟨0,2,1,1,(),(),0⟩],[]⟩ : GraphHint Unit) id)).isNone := by
  refine ⟨fun h => ?_,rfl,rfl⟩
  have hspec := fun n => h (List.replicate (n+1) (0,0)) true ⟨1,1,0⟩
    ⟨0,1,[⟨0,1,0,1,(),(),0⟩],[]⟩ id [[(0,1)]] (by simp) (by rw [names_loops]; decide) (by simp)
    (by decide) (by decide) (by rw [names_loops]; rfl)
    (by rw [names_loops]; exact ⟨rfl,by decide,rfl⟩) (fun l => List.Perm.refl l)
  obtain ⟨g,k,units,hload,hmake,hb⟩ := hspec (2 ^ 31)
  exact loops_not_multigraph (n := 2 ^ 31) rfl (by decide) rfl hload hmake hb

end FlashMob.Graph
