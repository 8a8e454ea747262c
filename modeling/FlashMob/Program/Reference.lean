import FlashMob.Program.Transitions
import FlashMob.Walk.Agreement

namespace FlashMob.Program
open FlashMob.Benchmark FlashMob.Graph FlashMob.Partition FlashMob.Reference FlashMob.Sampling
  FlashMob.Solver FlashMob.Tools FlashMob.WalkManager Lib.Rejection

section
variable {D K : Type} [Floating D] [DoubleText D] [Field K] [LinearOrder K]
  [FloorSemiring K] [IsStrictOrderedRing K] {opt : WalkOptions K} {edges : List (Nat × Nat)}
  {file : Option (List Char)} {schedule : List (Nat × Nat) → List (Nat × Nat)}
  {times : List (MiniBMKItem D)} {made : Made} {env : Setup K}

omit [IsStrictOrderedRing K] in
theorem MakesGraph.goes (h : MakesGraph opt edges file schedule times made) (hf : Feasible opt edges)
    (hsched : ∀ l, (schedule l).Perm l) {o : QueryOrder}
    (henv : Setup.prepare opt.cfg made opt.node2vec o (opt.getWalkerNum made.vNum) opt.walkLen
      opt.memQuota = .ok env) (hloop : ∀ e ∈ edges, e.1 ≠ e.2) :
    Goes env.graph.toMade ∧ Queried made env.graph ∧ Laid made := by
  obtain ⟨env',henv',hready,hqueried,_,hinstall⟩ := h.ready hf hsched o XorRandGen
  obtain rfl := Except.ok.inj (henv.symm.trans henv')
  have : Nonempty Sampler := ⟨.direct ⟨made.adjlists 0⟩⟩
  choose! samplers hsamplers using hinstall
  obtain ⟨htable,_⟩ := h.sampled hf henv (fun p hp => (hsamplers p hp).1)
  obtain ⟨hg,_,_,_,hhint,hmake⟩ := h
  have hsmall := hf.small
  obtain ⟨hv,_,_⟩ := load_sizes hf.loadable hg
  obtain ⟨ok,_⟩ := hint_partitions hmake hhint (indices_of_small (by omega))
  refine ⟨⟨fun v hv => ?_,hready.graph.neighbor_lt,fun v hv hmem => ?_⟩,hqueried,
    made_laid hmake ok hf.config.sockets⟩
  · obtain ⟨hp,hlo,hhi⟩ := hready.graph.lookup 0 v hv
    rw [← List.length_pos_iff,Made.neighbors,List.length_map,List.length_range]
    exact (htable.degrees _ hp v hlo hhi).1
  · have hv : v < env.graph.vNum := hv
    rw [hqueried.vNum] at hv
    exact made_self_not_mem hmake ok hf.loadable hg hsched hf.config.sockets hloop hv
      ((hqueried.neighbors_perm hv).mem_iff.mp hmem)

/-- The tests compare node2vec walks with a matrix that they make of the edges. In a node2vec run on
a graph without loops the rejection loop ends at a vertex as often as the matrix has it, up to a
factor close to one, whatever was sampled before. -/
theorem node2vec_agrees_reference (o : QueryOrder) (hf : Feasible opt edges)
    (hsched : ∀ l, (schedule l).Perm l) (hmade : MakesGraph opt edges file schedule times made)
    (henv : Setup.prepare opt.cfg made opt.node2vec o (opt.getWalkerNum made.vNum) opt.walkLen
      opt.memQuota = .ok env) {p q : K} (hpq : opt.pq = some (p,q)) (hp : 0 < p) (hq : 0 < q)
    (hloop : ∀ e ∈ edges, e.1 ≠ e.2) {i : Nat} (hi : i < made.partitionNum) {smp : Sampler}
    (hsmp : Sampler.install env.graph.toMade opt.cfg.l2CacheSize i = some smp) (us : List Use)
    (hin : ∀ v ∈ Use.vertices us, env.graph.partitionBegin i ≤ v ∧ v < env.graph.partitionEnd i)
    {j previous current : Nat}
    (hj : (getEdgesWithId env.graph.toMade)[j]? = some (previous,current))
    (hlo : env.graph.partitionBegin i ≤ current) (hhi : current < env.graph.partitionEnd i)
    (t : Nat) {n : Nat} (hn : 0 < n) :
    let s := partitionSocket env.graph.socketNum i
    let factor : K := agreement p q (env.graph.adjlists s current).degree
    ∃ transMat, getNode2vecTransMatrix env.graph.vNum (getEdgesWithId env.graph.toMade) p q zeros =
        some transMat ∧
      ∃ cells : Fin n → (Nat × Nat) × (Nat × Nat), Apart cells ∧
        ∀ words : Nat × Nat → BitVec 64, ∀ y < env.graph.vNum,
          let walked := fun x => walkedTo (setNode2vec p q) env.graph s previous current n t smp us
            (assign words cells x)
          let ended : K := Set.ncard { x | (walked x).isSome = true }
          let times : K := Set.ncard { x | walked x = some y }
          times ≤ factor * (transMat j y * ended) ∧ transMat j y * ended ≤ factor * times := by
  intro s factor
  obtain ⟨hgoes,hqueried,hlaid⟩ := hmade.goes hf hsched henv hloop
  obtain ⟨transMat,hmat,hrow⟩ := hgoes.getNode2vecTransMatrix_eq hp hq
  obtain ⟨hprevious,hmem⟩ := mem_getEdgesWithId (List.mem_of_getElem? hj)
  have hcurrent : current < env.graph.vNum := hgoes.inside previous hprevious current hmem
  have hflush : 2 * edges.length + 16 ≤ 2 ^ 32 := hf.flush_of_no_loop hloop
  have hpreviousMade : previous < made.vNum := hqueried.vNum ▸ hprevious
  obtain ⟨hs,⟨hsame,hpos,hdegree⟩,cells,hlaw⟩ :=
    hmade.exists_law hf hflush hsched henv hpq hp hq hi hsmp hin hpreviousMade hlo hhi t n
  refine ⟨transMat,hmat,cells,hlaw.apart,fun words y hy => ?_⟩
  have hlist : readList env.graph.edges (env.graph.adjlists s current) =
      env.graph.neighbors 0 current := by
    rw [hsame]
    rfl
  have hlength : (env.graph.neighbors 0 current).length = (env.graph.adjlists s current).degree := by
    rw [← hlist,readList,List.length_map,List.length_range]
  have huniform := sampledBy_nearlyUniform env.graph.edges hpos
  rw [hlist] at huniform
  have hweight : ∀ z, ((env.graph.neighbors 0 current).count z : K) * acceptBound p q
      (made.neighbors (partitionSocket env.graph.socketNum i) previous) previous z =
        rowWeight p q env.graph.toMade previous current z := by
    intro z
    have hsocket : made.neighbors (partitionSocket env.graph.socketNum i) previous =
        made.neighbors 0 previous := by
      rw [Made.neighbors,hlaid.tables _ hs]
      rfl
    rw [hsocket,rowWeight,acceptBound,acceptBound]
    simp only [(hqueried.neighbors_perm hpreviousMade).mem_iff]
  have hagrees := hlaw.agrees hp hq hn huniform (hlength ▸ hpos) (hlength ▸ hdegree)
    (fun z hz => Finset.mem_range.mpr (hgoes.inside current hcurrent z hz)) words
    (Finset.mem_range.mpr hy)
  simp only [hlength,hweight] at hagrees
  rw [hrow j previous current hj y]
  exact hagrees

end

theorem node2vec_agrees_reference_triangle : ∃ (env : Setup ℚ) (smp : Sampler) (i j current : Nat)
    (transMat : TransMat ℚ) (cells : Fin 8 → (Nat × Nat) × (Nat × Nat)),
    env.node2vec = some (setNode2vec (1 / 4) 4) ∧
    getNode2vecTransMatrix env.graph.vNum (getEdgesWithId env.graph.toMade) (1 / 4 : ℚ) 4 zeros =
      some transMat ∧
    ∀ words : Nat × Nat → BitVec 64, ∀ y < env.graph.vNum,
      let s := partitionSocket env.graph.socketNum i
      let walked := fun x => walkedTo (setNode2vec (1 / 4 : ℚ) 4) env.graph s 0 current 8 0 smp
        [.sample 0 current,.other 0,.sample 1 current] (assign words cells x)
      (Set.ncard { x | walked x = some y } : ℚ) ≤
        agreement (1 / 4 : ℚ) 4 (env.graph.adjlists s current).degree *
          (transMat j y * Set.ncard { x | (walked x).isSome = true }) := by
  obtain ⟨opt,hopt⟩ : ∃ opt : WalkOptions ℚ,
      opt = ⟨⟨2,1,0⟩,4096,.binaryGraphFormat,0,3,2,some (1 / 4,4)⟩ := ⟨_,rfl⟩
  obtain ⟨hf,hends⟩ := feasible_triangle hopt
  have hloop : ∀ e ∈ [(0,1),(1,2),(2,0)], e.1 ≠ e.2 := by decide
  obtain ⟨times,made,hmade⟩ := hf.exists_makesGraph (K := ℚ) hends Starts.first id
  let o : QueryOrder := ⟨id,id,fun _ => .refl _,fun _ => .refl _⟩
  obtain ⟨env,henv,hready,hqueried,hnum,hinstall⟩ := hmade.ready hf (fun l => .refl l) o WordStream
  obtain ⟨hgoes,_⟩ := hmade.goes hf (fun l => .refl l) henv hloop
  have hzero : 0 < env.graph.vNum := hready.graph.vertices
  obtain ⟨current,hcurrent⟩ := List.exists_mem_of_ne_nil _ (hgoes.positive 0 hzero)
  have hedge : (0,current) ∈ getEdgesWithId env.graph.toMade :=
    List.mem_flatMap.mpr ⟨0,List.mem_range.mpr hzero,List.mem_map_of_mem hcurrent⟩
  obtain ⟨j,hj⟩ := List.mem_iff_getElem?.mp hedge
  obtain ⟨hpart,hlo,hhi⟩ := hready.graph.lookup 0 current (hgoes.inside 0 hzero current hcurrent)
  rw [hnum] at hpart
  obtain ⟨smp,hsmp,_⟩ := hinstall _ hpart
  have hin : ∀ v ∈ Use.vertices [.sample 0 current,.other 0,.sample 1 current],
      env.graph.partitionBegin (env.graph.partitionId 0 current) ≤ v ∧
        v < env.graph.partitionEnd (env.graph.partitionId 0 current) := by
    intro v hv
    have hv : v ∈ [current,current] := hv
    simp only [List.mem_cons,List.not_mem_nil,or_false,or_self] at hv
    subst hv
    exact ⟨hlo,hhi⟩
  obtain ⟨transMat,hmat,cells,_,hagrees⟩ := node2vec_agrees_reference o hf (fun l => .refl l) hmade henv
    (p := 1 / 4) (q := 4) (by rw [hopt]) (by norm_num) (by norm_num) hloop hpart hsmp _ hin hj hlo hhi
    0 (n := 8) (by decide)
  refine ⟨env,smp,_,j,current,transMat,cells,?_,hmat,fun words y hy => (hagrees words y hy).1⟩
  obtain ⟨_,_,rfl⟩ := Setup.prepare_ok henv
  simp only [WalkOptions.node2vec,hopt,Option.map_some]

end FlashMob.Program
