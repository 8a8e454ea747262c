import FlashMob.Message.Manager
import FlashMob.Solver.Epochs
import FlashMob.Solver.Prepare
import FlashMob.Walk.Message
import FlashMob.Walk.Stops
import FlashMob.Walker.Room

namespace FlashMob.Solver
open FlashMob.Graph FlashMob.Message FlashMob.Sampling FlashMob.WalkManager Lib.Runs

/-- What is fixed while `walk` runs; `node2vec` is set by `set_node2vec`. -/
structure Setup (R : Type) where
  cfg : MultiThreadConfig
  graph : NeighborGraph
  node2vec : Option (Node2vec R)
  walkerNum : Nat
  walkLen : Nat
  maxEpochWalkerNum : Nat

/-- The members of the solver. The pointers `current_vertices` and `previous_vertices` are
indices of `walks`. -/
structure FMobSolver (ρ : Type) where
  counters : Solver.Progress
  epochWalkerNum : Nat
  walkerStartVertices : Nat → Nat
  walks : Nat → Nat → Nat
  currentVertices : Nat
  previousVertices : Option Nat
  output : Nat → Nat
  threadStates : Nat × Nat → WalkerManager.ThreadState
  tasks : Tasks
  samplers : Nat → Sampler
  rands : Nat → ρ

/-- A message of partition `partition`, in a slot of the task of a thread. -/
structure Item where
  partition : Nat
  task : Nat
  slot : Nat
  deriving DecidableEq

/-- Where the driver loop stands: between the epochs, or in a parallel loop of an epoch, with what
the threads have not done yet in it. `l` is the step `l_i`. -/
inductive Phase
  | driver
  | start (pool : WalkerManager.Pool)
  | copy (todo : List Nat)
  | shuffle (l : Nat) (todo : List Nat)
  | walk (l : Nat) (progress : WalkManager.Progress Item)
  | update (l : Nat) (todo : List Nat)
  | paths (pool : WalkerManager.Pool)
  | done

structure State (ρ : Type) where
  solver : FMobSolver ρ
  phase : Phase

/-- What is recorded of a run: a walked message with the acceptance tests that were made for it, and
the arrays of an epoch that has ended. -/
inductive Action (R : Type)
  | message (l thread : Nat) (x : Item) (tests : List (Test R))
  | epoch (epochWalkerNum : Nat) (walkerStartVertices output : Nat → Nat)

def items (p k : Nat) (mt : MessageTask) : List Item :=
  (List.range' (mt.shuffledMessageBegin p)
    (mt.shuffledMessageEnd p - mt.shuffledMessageBegin p)).map (fun i => ⟨p,k,i⟩)

/-- The parallel region of `WalkManager::walk`, over the messages that were shuffled. -/
def walkRegion (cfg : MultiThreadConfig) (partitionNum : Nat) (tasks : Tasks) : Region Item where
  socketNum := cfg.socketNum
  partitionNum := partitionNum
  threadNum := cfg.threadNum
  socket := cfg.socketId
  hdvThread := fun t => cfg.socketOffset t % 2 == 1
  messages := fun p => (List.range cfg.socketNum).flatMap (fun s =>
    (List.range cfg.socketThreadNum).flatMap (fun i =>
      items p (cfg.threadAt s i) (tasks (cfg.threadAt s i))))

section
variable {ρ R : Type} [RandGen ρ] [RandGenFloat ρ R] [Floating R]

/-- The flag `node2vec_walk` of step `l`, with the constants of the test. -/
def Setup.node2vecWalk (env : Setup R) (l : Nat) : Option (Node2vec R) :=
  if l ≠ 0 then env.node2vec else none

namespace FMobSolver

/-- The call of `process` in `get_walker_start_vertices`, by a thread for a walker. -/
def drawStart (env : Setup R) (s : FMobSolver ρ) : Option (Nat × Nat) → FMobSolver ρ
  | none => s
  | some (t,w) =>
    let r := RandGen.gen env.graph.vNum (s.rands t)
    { s with
      walkerStartVertices := Function.update s.walkerStartVertices w r.1
      rands := Function.update s.rands t r.2 }

def copyStart (w : Nat) (s : FMobSolver ρ) : FMobSolver ρ :=
  { s with
    walks := Function.update s.walks s.currentVertices
      (Function.update (s.walks s.currentVertices) w (s.walkerStartVertices w)) }

/-- The states that are shuffled with the messages of step `l`: null in a static walk, and as long
as there are no previous vertices. -/
def states (env : Setup R) (l : Nat) (s : FMobSolver ρ) : Option (Nat → Nat) :=
  match env.node2vecWalk l with
  | none => none
  | some _ => s.previousVertices.map s.walks

/-- The body of the parallel loop of `MessageManager::shuffle`. -/
def shuffleTask (env : Setup R) (l t : Nat) (s : FMobSolver ρ) : FMobSolver ρ :=
  let messages := s.walks s.currentVertices
  { s with
    tasks := Function.update s.tasks t
      (((s.tasks t).prepare env.graph.toGroups messages).shuffle messages (s.states env l)) }

def walkItem (env : Setup R) (l t : Nat) (x : Item) (fuel : Nat) (s : FMobSolver ρ) :
    Option (Moved ρ R) :=
  let mt := s.tasks x.task
  match env.node2vecWalk l with
  | none =>
    walkMessage env.graph (mt.shuffledMessages x.slot) (s.samplers x.partition) (s.rands t)
  | some wm => node2vecWalkMessage wm env.graph (partitionSocket env.graph.socketNum x.partition)
      (mt.shuffledStates x.slot) (mt.shuffledMessages x.slot) fuel (s.samplers x.partition)
      (s.rands t)

def put (t : Nat) (x : Item) (m : Moved ρ R) (s : FMobSolver ρ) : FMobSolver ρ :=
  let mt := s.tasks x.task
  { s with
    tasks := Function.update s.tasks x.task
      (mt.setMessages (Function.update mt.shuffledMessages x.slot m.nextVertex))
    samplers := Function.update s.samplers x.partition m.sampler
    rands := Function.update s.rands t m.rand }

def updateTask (l t : Nat) (s : FMobSolver ρ) : FMobSolver ρ :=
  let r := (s.tasks t).update (s.walks l)
  { s with
    tasks := Function.update s.tasks t r.1
    walks := Function.update s.walks l r.2 }

def advance (l : Nat) (s : FMobSolver ρ) : FMobSolver ρ :=
  { s with previousVertices := some s.currentVertices, currentVertices := l }

def writePath (walkLen : Nat) (s : FMobSolver ρ) : Option (Nat × Nat) → FMobSolver ρ
  | none => s
  | some (_,w) =>
    { s with
      output := (List.range' 0 walkLen).foldl
        (fun output i => Function.update output (w * walkLen + i) (s.walks i w)) s.output }

end FMobSolver

/-- The loop over the steps: the begin of step `l` up to the parallel loop of `shuffle`, or what
follows the last step. -/
def enterStep (env : Setup R) (l : Nat) (s : FMobSolver ρ) : Option (State ρ) :=
  if l < env.walkLen then
    (MessageManager.clamp env.cfg s.epochWalkerNum s.tasks).map (fun tasks =>
      ⟨{ s with tasks := tasks },.shuffle l (List.range env.cfg.threadNum)⟩)
  else some ⟨s,.paths (WalkerManager.entry s.threadStates)⟩

/-- One atomic step of the solver. In the loops over tasks the threads work on tasks of their own
and read arrays that no other thread writes, so that a task is one step, in any order. -/
inductive Step (env : Setup R) : State ρ → Option (Action R) → State ρ → Prop
  | begin {s : FMobSolver ρ} (hrest : s.counters.restWalkerNum ≠ 0)
      (hcheck : u32 (min env.maxEpochWalkerNum s.counters.restWalkerNum) ≤ env.maxEpochWalkerNum) :
      Step env ⟨s,.driver⟩ none
        ⟨{ s with
            epochWalkerNum := u32 (min env.maxEpochWalkerNum s.counters.restWalkerNum)
            currentVertices := 0
            previousVertices := none },.start (WalkerManager.entry s.threadStates)⟩
  | draw {s : FMobSolver ρ} {pool pool' : WalkerManager.Pool} {o : Option (Nat × Nat)}
      (hs : WalkerManager.WrapStep env.cfg env.maxEpochWalkerNum s.epochWalkerNum pool o pool') :
      Step env ⟨s,.start pool⟩ none ⟨s.drawStart env o,.start pool'⟩
  | drawn {s : FMobSolver ρ} {pool : WalkerManager.Pool}
      (hl : WalkerManager.AllLeft env.cfg pool) :
      Step env ⟨s,.start pool⟩ none
        ⟨{ s with threadStates := pool.threadStates },.copy (List.range s.epochWalkerNum)⟩
  | copy {s : FMobSolver ρ} {w : Nat} {todo : List Nat} (hw : w ∈ todo) :
      Step env ⟨s,.copy todo⟩ none ⟨s.copyStart w,.copy (todo.erase w)⟩
  | copied {s : FMobSolver ρ} {st : State ρ} (h : enterStep env 1 s = some st) :
      Step env ⟨s,.copy []⟩ none st
  | shuffle {s : FMobSolver ρ} {l t : Nat} {todo : List Nat} (ht : t ∈ todo) :
      Step env ⟨s,.shuffle l todo⟩ none ⟨s.shuffleTask env l t,.shuffle l (todo.erase t)⟩
  | shuffled {s : FMobSolver ρ} {l : Nat} :
      Step env ⟨s,.shuffle l []⟩ none ⟨s,.walk l WalkManager.entry⟩
  | schedule {s : FMobSolver ρ} {l : Nat} {progress progress' : WalkManager.Progress Item}
      {o : Option (Event Item)}
      (hs : RegionStep (walkRegion env.cfg env.graph.partitionNum s.tasks) progress o progress')
      (ho : ∀ t x, o ≠ some (.message t x)) :
      Step env ⟨s,.walk l progress⟩ none ⟨s,.walk l progress'⟩
  | message {s : FMobSolver ρ} {l t fuel : Nat} {x : Item} {m : Moved ρ R}
      {progress progress' : WalkManager.Progress Item}
      (hs : RegionStep (walkRegion env.cfg env.graph.partitionNum s.tasks) progress
        (some (.message t x)) progress')
      (hm : s.walkItem env l t x fuel = some m) :
      Step env ⟨s,.walk l progress⟩ (some (.message l t x m.tests)) ⟨s.put t x m,.walk l progress'⟩
  | walked {s : FMobSolver ρ} {l : Nat} {progress : WalkManager.Progress Item}
      (hl : WalkManager.AllLeft (walkRegion env.cfg env.graph.partitionNum s.tasks) progress) :
      Step env ⟨s,.walk l progress⟩ none ⟨s,.update l (List.range env.cfg.threadNum)⟩
  | update {s : FMobSolver ρ} {l t : Nat} {todo : List Nat} (ht : t ∈ todo) :
      Step env ⟨s,.update l todo⟩ none ⟨s.updateTask l t,.update l (todo.erase t)⟩
  | updated {s : FMobSolver ρ} {l : Nat} {st : State ρ}
      (h : enterStep env (l + 1) (s.advance l) = some st) :
      Step env ⟨s,.update l []⟩ none st
  | write {s : FMobSolver ρ} {pool pool' : WalkerManager.Pool} {o : Option (Nat × Nat)}
      (hs : WalkerManager.WrapStep env.cfg env.maxEpochWalkerNum s.epochWalkerNum pool o pool') :
      Step env ⟨s,.paths pool⟩ none ⟨s.writePath env.walkLen o,.paths pool'⟩
  | finish {s : FMobSolver ρ} {pool : WalkerManager.Pool} {counters : Solver.Progress}
      (hl : WalkerManager.AllLeft env.cfg pool)
      (hc : walkEpoch env.maxEpochWalkerNum s.counters = some counters) :
      Step env ⟨s,.paths pool⟩ (some (.epoch s.epochWalkerNum s.walkerStartVertices s.output))
        ⟨{ s with counters := counters, threadStates := pool.threadStates },.driver⟩
  | stop {s : FMobSolver ρ} (hrest : s.counters.restWalkerNum = 0)
      (hcheck : s.counters.counted = env.walkerNum) : Step env ⟨s,.driver⟩ none ⟨s,.done⟩

/-- What `prepare` fixes for `walk`, unless the estimate ends the program. -/
def Setup.prepare (cfg : MultiThreadConfig) (g : Made) (node2vec : Option (Node2vec R))
    (o : QueryOrder) (walkerNum walkLen memQuota : Nat) : Except Fault (Setup R) :=
  let graph := preparedGraph g node2vec.isSome o
  (prepareArgs graph cfg node2vec.isSome walkerNum walkLen memQuota).estimateEpochWalker.map
    (fun maxEpochWalkerNum => ⟨cfg,graph,node2vec,walkerNum,walkLen,maxEpochWalkerNum⟩)

def prepared (env : Setup R) (samplers : Nat → Sampler) (rands : Nat → ρ) : State ρ where
  phase := .driver
  solver := {
    counters := ⟨env.walkerNum,0,0⟩
    epochWalkerNum := 0
    walkerStartVertices := fun _ => 0
    walks := fun _ _ => 0
    currentVertices := 0
    previousVertices := none
    output := fun _ => 0
    threadStates := fun _ => ⟨0,0,.tworking⟩
    tasks := MessageManager.init env.cfg env.maxEpochWalkerNum env.graph.partitionNum
    samplers := samplers
    rands := rands }

end

end FlashMob.Solver
