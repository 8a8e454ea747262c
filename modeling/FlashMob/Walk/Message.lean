import FlashMob.Sampler.Serves
import FlashMob.Walk.Accept

namespace FlashMob.WalkManager
open FlashMob.Graph FlashMob.Sampling

/-- One acceptance test, with what it is evaluated on. -/
structure Test (R : Type) where
  previousVertex : Nat
  currentVertex : Nat
  nextVertex : Nat
  prob : R

/-- What a walker, the sampler and the generator are after a message was walked, and the tests
that were made. -/
structure Moved (ρ R : Type) where
  nextVertex : Nat
  sampler : Sampler
  rand : ρ
  tests : List (Test R)

section
variable {ρ R : Type} [RandGen ρ] [RandGenFloat ρ R] [Floating R]

/-- The body of the loop of `walk_message`. -/
def walkMessage (g : NeighborGraph) (vertex : Nat) (sampler : Sampler) (rd : ρ) :
    Option (Moved ρ R) :=
  if sampler.returns vertex then
    let r := sampler.sample g.edges vertex rd
    some ⟨r.1,r.2.1,r.2.2,[]⟩
  else none

/-- The `do` loop of `node2vec_walk_message`, with at most `fuel` attempts. -/
def node2vecWalkMessage (wm : Node2vec R) (g : NeighborGraph) (socket previousVertex
    currentVertex : Nat) : Nat → Sampler → ρ → Option (Moved ρ R)
  | 0, _, _ => none
  | fuel+1, sampler, rd =>
    if sampler.returns currentVertex then
      let r := sampler.sample g.edges currentVertex rd
      let prob : R × ρ := RandGenFloat.genFloat wm.n2vUpperbound r.2.2
      let test := ⟨previousVertex,currentVertex,r.1,prob.1⟩
      match node2vecAccept wm g previousVertex currentVertex r.1 prob.1 socket with
      | none => none
      | some true => some ⟨r.1,r.2.1,prob.2,[test]⟩
      | some false =>
        (node2vecWalkMessage wm g socket previousVertex currentVertex fuel r.2.1 prob.2).map
          (fun m => { m with tests := test :: m.tests })
    else none

/-- The vertices that the loop samples in its first attempts, whether it has ended or goes on. -/
def node2vecAttempts (wm : Node2vec R) (g : NeighborGraph) (socket previousVertex
    currentVertex : Nat) : Nat → Sampler → ρ → List Nat
  | 0, _, _ => []
  | fuel+1, sampler, rd =>
    if sampler.returns currentVertex then
      let r := sampler.sample g.edges currentVertex rd
      let prob : R × ρ := RandGenFloat.genFloat wm.n2vUpperbound r.2.2
      match node2vecAccept wm g previousVertex currentVertex r.1 prob.1 socket with
      | some false =>
        r.1 :: node2vecAttempts wm g socket previousVertex currentVertex fuel r.2.1 prob.2
      | _ => [r.1]
    else []

end

def Served (ρ : Type) [RandGen ρ] (g : NeighborGraph) (p : Nat) (sampler : Sampler) : Prop :=
  sampler.Serves ρ g.edges (g.adjlists (partitionSocket g.socketNum p)) (g.partitionBegin p)
    (g.partitionEnd p)

def Flushes (g : NeighborGraph) : Prop := ∀ p < g.partitionNum, ∀ v, g.partitionBegin p ≤ v →
  v < g.partitionEnd p → (g.adjlists (partitionSocket g.socketNum p) v).degree + 16 ≤ 2 ^ 32

/-- What the walkers rely on: every vertex is found in one of the partitions, and a sampler that
serves a partition samples neighbours, which are vertices again. -/
structure Walkable (ρ : Type) [RandGen ρ] (g : NeighborGraph) : Prop where
  vertices : 0 < g.vNum
  few : g.partitionNum < 2 ^ 16
  lookup : ∀ s, ∀ v < g.vNum, g.partitionId s v < g.partitionNum ∧
    g.partitionBegin (g.partitionId s v) ≤ v ∧ v < g.partitionEnd (g.partitionId s v)
  samples : ∀ p < g.partitionNum, ∀ v < g.vNum, g.partitionBegin p ≤ v → v < g.partitionEnd p →
    ∀ sampler, Served ρ g p sampler → ∀ rd : ρ,
      (sampler.sample g.edges v rd).1 ∈ g.neighbors 0 v ∧
        Served ρ g p (sampler.sample g.edges v rd).2.1
  neighbor_lt : ∀ v < g.vNum, ∀ y ∈ g.neighbors 0 v, y < g.vNum

/-- What a walked message leaves: a neighbour of its vertex, and a sampler that serves on. -/
structure WellMoved {ρ R : Type} [RandGen ρ] (g : NeighborGraph) (p v : Nat) (m : Moved ρ R) :
    Prop where
  neighbor : m.nextVertex ∈ g.neighbors 0 v
  served : Served ρ g p m.sampler

section
variable {ρ R : Type} [RandGen ρ] {g : NeighborGraph} {p v : Nat}
  (h : Walkable ρ g) (hp : p < g.partitionNum) (hv : v < g.vNum) (hlo : g.partitionBegin p ≤ v)
  (hhi : v < g.partitionEnd p)
include h hp hv hlo hhi

theorem walkMessage_wellMoved {sampler : Sampler} (hs : Served ρ g p sampler) {rd : ρ}
    {m : Moved ρ R} (hm : walkMessage g v sampler rd = some m) : WellMoved g p v m := by
  obtain ⟨hmem,hnext⟩ := h.samples p hp v hv hlo hhi sampler hs rd
  rw [walkMessage] at hm
  split_ifs at hm
  cases hm
  exact ⟨hmem,hnext⟩

variable [RandGenFloat ρ R] [Floating R]

theorem node2vecWalkMessage_wellMoved {wm : Node2vec R} {socket previous fuel : Nat}
    {sampler : Sampler} (hs : Served ρ g p sampler) {rd : ρ} {m : Moved ρ R}
    (hm : node2vecWalkMessage wm g socket previous v fuel sampler rd = some m) :
    WellMoved g p v m := by
  induction fuel generalizing sampler rd m with
  | zero => cases hm
  | succ fuel ih =>
    obtain ⟨hmem,hnext⟩ := h.samples p hp v hv hlo hhi sampler hs rd
    rw [node2vecWalkMessage] at hm
    split_ifs at hm
    dsimp only at hm
    split at hm
    · cases hm
    · cases hm
      exact ⟨hmem,hnext⟩
    · obtain ⟨m',hm',rfl⟩ := Option.map_eq_some_iff.mp hm
      obtain ⟨hneighbor,hserved⟩ := ih hnext hm'
      exact ⟨hneighbor,hserved⟩

theorem mem_node2vecAttempts {wm : Node2vec R} {socket previous fuel : Nat} {sampler : Sampler}
    (hs : Served ρ g p sampler) {rd : ρ} {y : Nat}
    (hy : y ∈ node2vecAttempts wm g socket previous v fuel sampler rd) : y ∈ g.neighbors 0 v := by
  induction fuel generalizing sampler rd with
  | zero => cases hy
  | succ fuel ih =>
    obtain ⟨hmem,hnext⟩ := h.samples p hp v hv hlo hhi sampler hs rd
    rw [node2vecAttempts] at hy
    split_ifs at hy
    · dsimp only at hy
      split at hy
      · rcases List.mem_cons.mp hy with rfl | hy
        · exact hmem
        · exact ih hnext hy
      · rw [List.mem_singleton.mp hy]
        exact hmem
    · cases hy

end

theorem node2vecWalkMessage_tests {ρ R : Type} [RandGen ρ] [RandGenFloat ρ R] [Floating R]
    {wm : Node2vec R} {g : NeighborGraph} {socket previous current fuel : Nat} {sampler : Sampler}
    {rd : ρ} {m : Moved ρ R}
    (hm : node2vecWalkMessage wm g socket previous current fuel sampler rd = some m) :
    m.tests ≠ [] ∧
      ∀ test ∈ m.tests, test.previousVertex = previous ∧ test.currentVertex = current := by
  induction fuel generalizing sampler rd m with
  | zero => cases hm
  | succ fuel ih =>
    rw [node2vecWalkMessage] at hm
    split_ifs at hm
    dsimp only at hm
    split at hm
    · cases hm
    · cases hm
      exact ⟨List.cons_ne_nil _ _,fun test ht => List.mem_singleton.mp ht ▸ ⟨rfl,rfl⟩⟩
    · obtain ⟨m',hm',rfl⟩ := Option.map_eq_some_iff.mp hm
      refine ⟨List.cons_ne_nil _ _,fun test ht => ?_⟩
      rcases List.mem_cons.mp ht with rfl | ht
      · exact ⟨rfl,rfl⟩
      · exact (ih hm').2 test ht

end FlashMob.WalkManager
