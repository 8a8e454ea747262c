import FlashMob.Solver.Items

namespace FlashMob.Solver
open FlashMob.Graph FlashMob.Message FlashMob.Sampling FlashMob.WalkManager Lib.Runs

/-- The first `l` vertices of each of `n` walkers are a path from its start vertex. -/
structure Legal (g : Made) (n : Nat) (start : Nat → Nat) (walks : Nat → Nat → Nat)
    (l : Nat) : Prop where
  inside : ∀ w < n, start w < g.vNum
  starts : ∀ w < n, walks 0 w = start w
  steps : ∀ w < n, ∀ i, i + 1 < l → walks (i + 1) w ∈ g.neighbors 0 (walks i w)

section
variable {g : Made} {n l : Nat} {start : Nat → Nat} {walks walks' : Nat → Nat → Nat}
  (h : Legal g n start walks l)
include h

theorem Legal.vertex_lt (hg : ∀ v < g.vNum, ∀ y ∈ g.neighbors 0 v, y < g.vNum) {w i : Nat}
    (hw : w < n) (hi : i < l) : walks i w < g.vNum := by
  induction i with
  | zero =>
    rw [h.starts w hw]
    exact h.inside w hw
  | succ i ih => exact hg _ (ih (by omega)) _ (h.steps w hw i hi)

theorem Legal.congr (hpos : 0 < l) (hsame : ∀ w < n, ∀ i < l, walks' i w = walks i w) :
    Legal g n start walks' l := by
  refine ⟨h.inside,fun w hw => (hsame w hw 0 hpos).trans (h.starts w hw),fun w hw i hi => ?_⟩
  rw [hsame w hw (i + 1) hi,hsame w hw i (by omega)]
  exact h.steps w hw i hi

theorem Legal.extend (hnext : ∀ w < n, walks l w ∈ g.neighbors 0 (walks (l - 1) w)) :
    Legal g n start walks (l + 1) := by
  refine ⟨h.inside,h.starts,fun w hw i hi => ?_⟩
  rcases Nat.lt_or_eq_of_le (Nat.le_of_lt_succ hi) with hlt | rfl
  · exact h.steps w hw i hlt
  · exact hnext w hw

end

section
variable {R : Type}

/-- The sizes of the epochs that have ended. -/
def epochSizes (tr : List (Action R)) : List Nat :=
  tr.filterMap (fun
    | .message _ _ _ _ => none
    | .epoch epochWalkerNum _ _ => some epochWalkerNum)

@[simp] theorem epochSizes_append (tr tr' : List (Action R)) :
    epochSizes (tr ++ tr') = epochSizes tr ++ epochSizes tr' := List.filterMap_append

end

/-- What the driver loop relies on. -/
structure Ready (ρ : Type) [RandGen ρ] {R : Type} (env : Setup R) : Prop where
  valid : env.cfg.Valid
  graph : Walkable ρ env.graph
  epoch : 0 < env.maxEpochWalkerNum
  cap : env.maxEpochWalkerNum ≤ EstimateArgs.walkerCap
  len : 0 < env.walkLen
  walkers : env.walkerNum < 2 ^ 64
  /-- The cursors of the walker ranges stay below 2^32. -/
  room : WalkerManager.Roomy env.cfg env.maxEpochWalkerNum env.maxEpochWalkerNum

section
variable {ρ R : Type} [RandGen ρ] (env : Setup R)

structure Always (tr : List (Action R)) (s : FMobSolver ρ) : Prop where
  served : ∀ p < env.graph.partitionNum, Served ρ env.graph p (s.samplers p)
  parts : ∀ t < env.cfg.threadNum, (s.tasks t).partitionNum = env.graph.partitionNum
  rest : s.counters.restWalkerNum + s.counters.counted = env.walkerNum
  terminated : s.counters.terminatedWalkerNum = s.counters.counted
  sizes : (epochSizes tr).sum = s.counters.counted
  paths : ∀ n start output, Action.epoch n start output ∈ tr →
    Legal env.graph.toMade n start (fun i w => output (w * env.walkLen + i)) env.walkLen

/-- The tasks have a place for every walker of the epochs to come. -/
def Spare (s : FMobSolver ρ) : Prop :=
  ∃ n, Ranged env.cfg n s.tasks ∧ min env.maxEpochWalkerNum s.counters.restWalkerNum ≤ n

structure Epoch (s : FMobSolver ρ) : Prop where
  some : 0 < s.counters.restWalkerNum
  size : s.epochWalkerNum = min env.maxEpochWalkerNum s.counters.restWalkerNum

structure Starting (s : FMobSolver ρ) (pool : WalkerManager.Pool) : Prop where
  epoch : Epoch env s
  spare : Spare env s
  current : s.currentVertices = 0
  previous : s.previousVertices = none
  drawn : ∃ tr, Run (WalkerManager.WrapStep env.cfg env.maxEpochWalkerNum s.epochWalkerNum)
    (WalkerManager.entry s.threadStates) tr pool ∧
    ∀ w ∈ tr.map Prod.snd, s.walkerStartVertices w < env.graph.vNum

structure Copying (s : FMobSolver ρ) (todo : List Nat) : Prop where
  epoch : Epoch env s
  spare : Spare env s
  current : s.currentVertices = 0
  previous : s.previousVertices = none
  drawn : ∀ w < s.epochWalkerNum, s.walkerStartVertices w < env.graph.vNum
  copied : ∀ w < s.epochWalkerNum, w ∉ todo → s.walks 0 w = s.walkerStartVertices w

structure AtStep (s : FMobSolver ρ) (l : Nat) : Prop where
  epoch : Epoch env s
  first : 1 ≤ l
  last : l ≤ env.walkLen
  legal : Legal env.graph.toMade s.epochWalkerNum s.walkerStartVertices s.walks l
  current : s.currentVertices = l - 1
  previous : s.previousVertices = if l = 1 then none else Option.some (l - 2)

/-- A task whose messages are still the vertices of its walkers. -/
structure TaskSent (s : FMobSolver ρ) (l t : Nat) : Prop where
  sent : (s.tasks t).Sent env.graph.toGroups (s.walks (l - 1)) (s.states env l)
  messages : ∀ m ∈ (s.tasks t).range, (s.tasks t).shuffledMessages
    ((s.tasks t).slot env.graph.toGroups (s.walks (l - 1)) m) = s.walks (l - 1) m

/-- The messages of step `l` are sent to their partitions. -/
structure Shuffling (s : FMobSolver ρ) (l : Nat) (todo : List Nat) : Prop where
  step : AtStep env s l
  inside : l < env.walkLen
  ranged : Ranged env.cfg s.epochWalkerNum s.tasks
  shuffled : ∀ t < env.cfg.threadNum, t ∉ todo → TaskSent env s l t

/-- The slot of walker `m` of task `k` holds its vertex until the message is walked, and a neighbour
of the vertex afterwards. -/
structure Carries (s : FMobSolver ρ) (l : Nat) (done : List Item) (k m : Nat) : Prop where
  before : itemOf env.graph.toGroups s.tasks (s.walks (l - 1)) k m ∉ done →
    (s.tasks k).shuffledMessages ((s.tasks k).slot env.graph.toGroups (s.walks (l - 1)) m) =
      s.walks (l - 1) m
  after : itemOf env.graph.toGroups s.tasks (s.walks (l - 1)) k m ∈ done →
    (s.tasks k).shuffledMessages ((s.tasks k).slot env.graph.toGroups (s.walks (l - 1)) m) ∈
      env.graph.neighbors 0 (s.walks (l - 1) m)

structure Walking (s : FMobSolver ρ) (l : Nat) (progress : WalkManager.Progress Item) : Prop where
  step : AtStep env s l
  inside : l < env.walkLen
  ranged : Ranged env.cfg s.epochWalkerNum s.tasks
  sent : ∀ t < env.cfg.threadNum,
    (s.tasks t).Sent env.graph.toGroups (s.walks (l - 1)) (s.states env l)
  walked : ∃ tr, Run (RegionStep (walkRegion env.cfg env.graph.partitionNum s.tasks))
    WalkManager.entry tr progress ∧ ∀ t < env.cfg.threadNum, ∀ m ∈ (s.tasks t).range,
      Carries env s l ((WalkManager.walked tr).map Prod.snd) t m

structure Updating (s : FMobSolver ρ) (l : Nat) (todo : List Nat) : Prop where
  step : AtStep env s l
  inside : l < env.walkLen
  ranged : Ranged env.cfg s.epochWalkerNum s.tasks
  nodup : todo.Nodup
  below : ∀ t ∈ todo, t < env.cfg.threadNum
  pending : ∀ t < env.cfg.threadNum, t ∈ todo →
    (∃ states, (s.tasks t).Sent env.graph.toGroups (s.walks (l - 1)) states) ∧
    ∀ m ∈ (s.tasks t).range, (s.tasks t).shuffledMessages
      ((s.tasks t).slot env.graph.toGroups (s.walks (l - 1)) m) ∈
        env.graph.neighbors 0 (s.walks (l - 1) m)
  updated : ∀ t < env.cfg.threadNum, t ∉ todo → ∀ m ∈ (s.tasks t).range,
    s.walks l m ∈ env.graph.neighbors 0 (s.walks (l - 1) m)

structure Writing (s : FMobSolver ρ) (pool : WalkerManager.Pool) : Prop where
  step : AtStep env s env.walkLen
  spare : Spare env s
  written : ∃ tr, Run (WalkerManager.WrapStep env.cfg env.maxEpochWalkerNum s.epochWalkerNum)
    (WalkerManager.entry s.threadStates) tr pool ∧
    ∀ w ∈ tr.map Prod.snd, ∀ i < env.walkLen, s.output (w * env.walkLen + i) = s.walks i w

def Stage (s : FMobSolver ρ) : Phase → Prop
  | .driver => Spare env s
  | .start pool => Starting env s pool
  | .copy todo => Copying env s todo
  | .shuffle l todo => Shuffling env s l todo
  | .walk l progress => Walking env s l progress
  | .update l todo => Updating env s l todo
  | .paths pool => Writing env s pool
  | .done => s.counters.restWalkerNum = 0

/-- The invariant of the driver loop. -/
structure Holds (tr : List (Action R)) (st : State ρ) : Prop where
  always : Always env tr st.solver
  stage : Stage env st.solver st.phase

end

end FlashMob.Solver
