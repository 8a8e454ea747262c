import FlashMob.Program.Parallel
import FlashMob.Sampler.Uniform
import FlashMob.Solver.Counted
import FlashMob.Solver.Origins

namespace FlashMob.Program
open FlashMob.Benchmark FlashMob.Graph FlashMob.Partition FlashMob.Sampling FlashMob.Solver
  FlashMob.Tools FlashMob.WalkManager Lib.Runs

theorem made_oneTable {D : Type} {edges : List (Nat × Nat)} {asUndirected : Bool}
    {cfg : MultiThreadConfig} {hint : GraphHint D}
    {schedule : List (Nat × Nat) → List (Nat × Nat)} {g : Loaded} {made : Made}
    (hg : load edges asUndirected = some g) (hmake : make cfg hint schedule g = some made)
    (ok : HintOk g.vNum hint) (hsock : 0 < cfg.socketNum)
    (hfits : ∀ p < made.partitionNum, Sampler.Fits made p) {q : NeighborGraph}
    (hq : Queried made q) : OneTable q := by
  have hlaid := made_laid hmake ok hsock
  have ht := made_tiles hmake ok
  obtain ⟨_,_,_,hsocket⟩ := make_sizes hmake
  obtain ⟨content,bf,rfl⟩ := Queried.exists_edges hq
  have htables : ∀ p, made.adjlists (partitionSocket made.socketNum p) = made.adjlists 0 :=
    fun p => hlaid.tables _ (partitionSocket_lt (hsocket ▸ hsock) p)
  refine ⟨fun p _ => htables p,fun p hp v hlo hhi => ?_⟩
  have hpacked := make_packed hg hmake ht hsock hp (hfits p hp).edges
  obtain ⟨_,hle,hlt⟩ := (make_degrees hg hmake ht hsock hp).2 v hlo hhi
  have hpos := hpacked.positive v hlo hhi
  rw [htables] at hle hpos
  exact ⟨hpos,Nat.lt_trans (Nat.lt_of_le_of_lt hle hlt) (by decide)⟩

section
variable {D R : Type} [Floating D] [DoubleText D] [Floating R] {opt : WalkOptions R}
  {edges : List (Nat × Nat)} {file : Option (List Char)}
  {schedule : List (Nat × Nat) → List (Nat × Nat)} {times : List (MiniBMKItem D)} {made : Made}
  {env : Setup R}

theorem MakesGraph.sampled (h : MakesGraph opt edges file schedule times made)
    (hf : Feasible opt edges) {o : QueryOrder}
    (henv : Setup.prepare opt.cfg made opt.node2vec o (opt.getWalkerNum made.vNum) opt.walkLen
      opt.memQuota = .ok env) {samplers : Nat → Sampler}
    (hsamplers : ∀ p < made.partitionNum,
      Sampler.install env.graph.toMade opt.cfg.l2CacheSize p = some (samplers p)) :
    OneTable env.graph ∧ ∀ p < made.partitionNum, ∀ v, env.graph.partitionBegin p ≤ v →
      v < env.graph.partitionEnd p → (samplers p).unread v = [] := by
  obtain ⟨hg,_,_,_,hhint,hmake⟩ := h
  have hsmall := hf.small
  obtain ⟨hv,he,_⟩ := load_sizes hf.loadable hg
  obtain ⟨hvNum,heNum,_,_⟩ := make_sizes hmake
  obtain ⟨ok,_⟩ := hint_partitions hmake hhint (indices_of_small (by omega))
  have ht := made_tiles hmake ok
  have hfits : ∀ p < made.partitionNum, Sampler.Fits made p := fun p hp =>
    fits_of_small hg hf.config.sockets hmake ht (by omega) hp
  obtain ⟨_,_,rfl⟩ := Setup.prepare_ok henv
  have hq := preparedGraph_queried (made_laid hmake ok hf.config.sockets) opt.node2vec.isSome o
  have htable := made_oneTable hg hmake ok hf.config.sockets hfits hq
  simp only at hsamplers htable ⊢
  refine ⟨htable,fun p hp v hlo hhi => ?_⟩
  obtain ⟨content,bf,hq⟩ := Queried.exists_edges hq
  rw [hq] at hsamplers hlo hhi
  exact Sampler.install_unread (hfits p hp) (hsamplers p hp) hlo hhi

end

end FlashMob.Program
