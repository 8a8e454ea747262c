import FlashMob.Message.Interleaved
import FlashMob.Solver.Asserts

namespace FlashMob.Solver
open FlashMob.Graph FlashMob.Message FlashMob.Partition FlashMob.Sampling FlashMob.WalkManager Lib.Runs

section
variable {ρ R : Type}

/-- A memory that holds the arrays of step `l`: the vertices of the walkers, their states if they
have any, the vertices that `update` writes, and the tasks. -/
structure InMemory (env : Setup R) (s : FMobSolver ρ) (l : Nat) (mem : Loc → Nat) : Prop where
  tasks : ∀ t < env.cfg.threadNum, Alike (s.tasks t) ((s.tasks t).inMemory t mem)
  messages : ∀ m, mem (.message m) = s.walks s.currentVertices m
  states : ∀ f, s.states env l = some f → ∀ m, mem (.state m) = f m
  targets : ∀ m, mem (.target m) = s.walks l m

def shuffleProgram (env : Setup R) (s : FMobSolver ρ) (l : Nat) (t : Fin env.cfg.threadNum) : Code :=
  (s.tasks t).prepareCode t env.graph.toGroups ++ (s.tasks t).shuffleCode t (s.states env l).isSome

def updateProgram (env : Setup R) (s : FMobSolver ρ) (t : Fin env.cfg.threadNum) : Code :=
  (s.tasks t).updateCode t

/-- The parallel regions of step `l` that move the messages, with the code of their threads and the
phases of the driver loop before and after them. -/
inductive MessageRegion (env : Setup R) (s : FMobSolver ρ) (l : Nat) :
    Phase → (Fin env.cfg.threadNum → Code) → Phase → Prop
  | shuffle : MessageRegion env s l (.shuffle l (List.range env.cfg.threadNum)) (shuffleProgram env s l)
      (.shuffle l [])
  | update : MessageRegion env s l (.update l (List.range env.cfg.threadNum)) (updateProgram env s)
      (.update l [])

/-- The arrays of step `l`, with the array `partition_ids` of all tasks. -/
def memoryOf (env : Setup R) (s : FMobSolver ρ) (l : Nat) (partitionIds : Nat → Nat) : Loc → Nat
  | .message m => s.walks s.currentVertices m
  | .state m => (s.states env l).elim 0 (fun f => f m)
  | .target m => s.walks l m
  | .partitionId m => partitionIds m
  | .shuffledBegin t p => (s.tasks t).shuffledMessageBegin p
  | .shuffledEnd t p => (s.tasks t).shuffledMessageEnd p
  | .shuffledMessage t i => (s.tasks t).shuffledMessages i
  | .shuffledState t i => (s.tasks t).shuffledStates i

/-- Tasks whose ranges are apart find their partitions in one array. -/
theorem exists_inMemory {env : Setup R} {s : FMobSolver ρ} {n : Nat}
    (h : Ranged env.cfg n s.tasks) (l : Nat) : ∃ mem, InMemory env s l mem := by
  have hids : ∀ m, ∃ p, ∀ t < env.cfg.threadNum, m ∈ (s.tasks t).range →
      p = (s.tasks t).partitionIds m := by
    intro m
    by_cases hm : ∃ t < env.cfg.threadNum, m ∈ (s.tasks t).range
    · obtain ⟨t,ht,hm⟩ := hm
      exact ⟨(s.tasks t).partitionIds m,fun t' ht' hm' => by rw [h.task_unique ht ht' hm hm']⟩
    · exact ⟨0,fun t ht hm' => absurd ⟨t,ht,hm'⟩ hm⟩
  choose ids hids using hids
  refine ⟨memoryOf env s l ids,fun t ht => ⟨rfl,fun m hm => hids m t ht hm⟩,fun _ => rfl,
    fun f hf m => ?_,fun _ => rfl⟩
  simp only [memoryOf,hf,Option.elim_some]

/-- What it means that the threads of a parallel region do the steps of the driver loop that lead to
`phase`, however their accesses to a memory are interleaved: there is no race, they come to their
ends, and leave the arrays that the steps leave. -/
structure Refines {ρ R : Type} [RandGen ρ] [RandGenFloat ρ R] [Floating R] (env : Setup R) (l : Nat)
    (prog : Fin env.cfg.threadNum → Code) (mem : Loc → Nat) (st : State ρ) (phase : Phase) :
    Prop where
  raceFree : Lib.Threads.RaceFree prog (fun _ => .zero) mem
  results : ∀ tr st', Run Lib.Threads.Step ⟨fun _ => .zero,prog,mem⟩ tr st' →
    (∀ t, st'.rest t = []) → ∃ s', Run (Step env) st [] ⟨s',phase⟩ ∧ InMemory env s' l st'.mem

theorem inMemory_congr {mt mt' : MessageTask} (h : SameRange mt mt') (t : Nat)
    (mem : Loc → Nat) : mt'.inMemory t mem = mt.inMemory t mem := by
  simp only [MessageTask.inMemory,h.socket,h.partitionNum,h.begins,h.ends]

variable [RandGen ρ] [RandGenFloat ρ R] [Floating R] {env : Setup R}

variable (env) in
/-- The tasks that are left of a loop of `shuffle` can be done one after the other. -/
theorem shuffle_run (l : Nat) {todo : List Nat} (hn : todo.Nodup) (s : FMobSolver ρ) :
    ∃ tasks, Run (Step env) ⟨s,.shuffle l todo⟩ [] ⟨{ s with tasks := tasks },.shuffle l []⟩ ∧
      ∀ t ∈ todo, tasks t = (s.shuffleTask env l t).tasks t := by
  suffices h : ∃ tasks, Run (Step env) ⟨s,.shuffle l todo⟩ []
      ⟨{ s with tasks := tasks },.shuffle l []⟩ ∧
      (∀ t ∈ todo, tasks t = (s.shuffleTask env l t).tasks t) ∧ ∀ t ∉ todo, tasks t = s.tasks t by
    obtain ⟨tasks,hrun,hdone,_⟩ := h
    exact ⟨tasks,hrun,hdone⟩
  induction todo generalizing s with
  | nil => exact ⟨s.tasks,.start,fun _ ht => absurd ht List.not_mem_nil,fun _ _ => rfl⟩
  | cons t todo ih =>
    obtain ⟨hnot,hn⟩ := List.nodup_cons.mp hn
    obtain ⟨tasks,hrun,hdone,hrest⟩ := ih hn (s.shuffleTask env l t)
    have hstep : Step env ⟨s,.shuffle l (t :: todo)⟩ none ⟨s.shuffleTask env l t,.shuffle l todo⟩ := by
      have h : Step env ⟨s,.shuffle l (t :: todo)⟩ none
          ⟨s.shuffleTask env l t,.shuffle l ((t :: todo).erase t)⟩ := .shuffle List.mem_cons_self
      rwa [List.erase_cons_head] at h
    have hother : ∀ t' ≠ t, (s.shuffleTask env l t).tasks t' = s.tasks t' :=
      fun t' hne => Function.update_of_ne hne _ _
    refine ⟨tasks,(Run.start.next hstep).trans hrun,fun t' ht' => ?_,fun t' ht' => ?_⟩
    · rcases List.mem_cons.mp ht' with rfl | ht'
      · exact hrest t' hnot
      · have hne : t' ≠ t := fun he => hnot (he ▸ ht')
        rw [hdone t' ht']
        simp only [FMobSolver.shuffleTask,Function.update_self,Function.update_of_ne hne]
        rfl
    · rw [hrest t' (fun hm => ht' (List.mem_cons_of_mem _ hm)),
        hother t' (fun he => ht' (he ▸ List.mem_cons_self))]

variable (env) in
theorem update_run (l : Nat) {todo : List Nat} (hn : todo.Nodup) (s : FMobSolver ρ)
    (hapart : ∀ t ∈ todo, ∀ t' ∈ todo, ∀ m ∈ (s.tasks t).range, m ∈ (s.tasks t').range → t = t') :
    ∃ tasks targets, Run (Step env) ⟨s,.update l todo⟩ []
        ⟨{ s with tasks := tasks, walks := Function.update s.walks l targets },.update l []⟩ ∧
      (∀ t ∈ todo, tasks t = ((s.tasks t).update (s.walks l)).1 ∧
        ∀ m ∈ (s.tasks t).range, targets m = ((s.tasks t).update (s.walks l)).2 m) ∧
      ∀ m, (∀ t ∈ todo, m ∉ (s.tasks t).range) → targets m = s.walks l m := by
  suffices h : ∃ tasks targets, Run (Step env) ⟨s,.update l todo⟩ []
        ⟨{ s with tasks := tasks, walks := Function.update s.walks l targets },.update l []⟩ ∧
      (∀ t ∈ todo, tasks t = ((s.tasks t).update (s.walks l)).1 ∧
        ∀ m ∈ (s.tasks t).range, targets m = ((s.tasks t).update (s.walks l)).2 m) ∧
      (∀ t ∉ todo, tasks t = s.tasks t) ∧
      ∀ m, (∀ t ∈ todo, m ∉ (s.tasks t).range) → targets m = s.walks l m by
    obtain ⟨tasks,targets,hrun,hdone,_,hrest⟩ := h
    exact ⟨tasks,targets,hrun,hdone,hrest⟩
  induction todo generalizing s with
  | nil =>
    refine ⟨s.tasks,s.walks l,?_,fun _ ht => absurd ht List.not_mem_nil,fun _ _ => rfl,fun _ _ => rfl⟩
    rw [Function.update_eq_self]
    exact .start
  | cons t todo ih =>
    obtain ⟨hnot,hn⟩ := List.nodup_cons.mp hn
    have hstep : Step env ⟨s,.update l (t :: todo)⟩ none ⟨s.updateTask l t,.update l todo⟩ := by
      have h : Step env ⟨s,.update l (t :: todo)⟩ none
          ⟨s.updateTask l t,.update l ((t :: todo).erase t)⟩ := .update List.mem_cons_self
      rwa [List.erase_cons_head] at h
    have hother : ∀ t' ≠ t, (s.updateTask l t).tasks t' = s.tasks t' :=
      fun t' hne => Function.update_of_ne hne _ _
    have hne : ∀ t' ∈ todo, t' ≠ t := fun t' ht' he => hnot (he ▸ ht')
    have hwalks : (s.updateTask l t).walks l = ((s.tasks t).update (s.walks l)).2 :=
      Function.update_self _ _ _
    obtain ⟨tasks,targets,hrun,hdone,hrest,hkeep⟩ := ih hn (s.updateTask l t) (by
      intro t' ht' t'' ht'' m hm hm'
      rw [hother t' (hne t' ht')] at hm
      rw [hother t'' (hne t'' ht'')] at hm'
      exact hapart t' (List.mem_cons_of_mem _ ht') t'' (List.mem_cons_of_mem _ ht'') m hm hm')
    refine ⟨tasks,targets,?_,fun t' ht' => ?_,fun t' ht' => ?_,fun m hm => ?_⟩
    · have hrun := (Run.start.next hstep).trans hrun
      have hsame : Function.update (s.updateTask l t).walks l targets =
          Function.update s.walks l targets := Function.update_idem _ _ _
      rwa [hsame] at hrun
    · rcases List.mem_cons.mp ht' with rfl | ht'
      · refine ⟨(hrest t' hnot).trans (Function.update_self _ _ _),fun m hm => ?_⟩
        rw [hkeep m (fun t'' ht'' hm' => ?_),hwalks]
        rw [hother t'' (hne t'' ht'')] at hm'
        exact hne t'' ht'' (hapart t'' (List.mem_cons_of_mem _ ht'') t' List.mem_cons_self m hm' hm)
      · have h := hdone t' ht'
        rw [hother t' (hne t' ht')] at h
        refine ⟨h.1.trans (update_fst _ _ _),fun m hm => ?_⟩
        rw [h.2 m hm]
        exact update_snd_of_mem _ _ _ hm
    · rw [hrest t' (fun hm => ht' (List.mem_cons_of_mem _ hm)),
        hother t' (fun he => ht' (he ▸ List.mem_cons_self))]
    · rw [hkeep m (fun t' ht' hm' => ?_),hwalks]
      · exact update_snd_of_notMem _ _ (hm t List.mem_cons_self)
      · rw [hother t' (hne t' ht')] at hm'
        exact hm t' (List.mem_cons_of_mem _ ht') hm'

variable {s : FMobSolver ρ} {l : Nat} {mem : Loc → Nat}

omit [RandGen ρ] [RandGenFloat ρ R] [Floating R] in
theorem AtStep.states_update (h : AtStep env s l) (targets : Nat → Nat) :
    s.states env l =
      FMobSolver.states env l { s with walks := Function.update s.walks l targets } := by
  have hfirst := h.first
  simp only [FMobSolver.states,h.previous]
  cases env.node2vecWalk l with
  | none => rfl
  | some wm =>
    split_ifs
    · rfl
    · exact congrArg some (Function.update_of_ne (by omega) _ _).symm

theorem Shuffling.refines (h : Shuffling env s l (List.range env.cfg.threadNum))
    (hmem : InMemory env s l mem) : Refines env l (shuffleProgram env s l) mem
      ⟨s,.shuffle l (List.range env.cfg.threadNum)⟩ (.shuffle l []) := by
  refine ⟨(shuffle_regions h.ranged _ _).raceFree _ _,fun tr st hr hdone => ?_⟩
  obtain ⟨halike,hframe⟩ := shuffle_results h.ranged hr hdone
  obtain ⟨tasks,hrun,htasks⟩ := shuffle_run env l List.nodup_range s
  refine ⟨_,hrun,fun t ht => ?_,fun m => (hframe m).1.trans (hmem.messages m),
    fun f hf m => (hframe m).2.1.trans (hmem.states f hf m),
    fun m => (hframe m).2.2.trans (hmem.targets m)⟩
  have hmessages : (fun m => mem (.message m)) = s.walks s.currentVertices := funext hmem.messages
  have hstates : (if (s.states env l).isSome then some (fun m => mem (.state m)) else none) =
      s.states env l := by
    cases hf : s.states env l with
    | none => rfl
    | some f => exact congrArg some (funext (hmem.states f hf))
  have halike := halike ⟨t,ht⟩
  rw [hmessages,hstates] at halike
  have htask : tasks t = ((s.tasks t).prepare env.graph.toGroups (s.walks s.currentVertices)).shuffle
      (s.walks s.currentVertices) (s.states env l) :=
    (htasks t (List.mem_range.mpr ht)).trans (Function.update_self _ _ _)
  simp only [htask]
  rw [inMemory_congr (MessageTask.shuffle_sameRange _ _ _ _)]
  exact (((hmem.tasks t ht).prepare _ _).shuffle _ _).trans halike

theorem Updating.refines (h : Updating env s l (List.range env.cfg.threadNum))
    (hmem : InMemory env s l mem) : Refines env l (updateProgram env s) mem
      ⟨s,.update l (List.range env.cfg.threadNum)⟩ (.update l []) := by
  refine ⟨(update_regions h.ranged).raceFree _ _,fun tr st hr hdone => ?_⟩
  obtain ⟨hresults,hrest,hframe⟩ := update_results h.ranged hr hdone
  have hlt : ∀ {t}, t ∈ List.range env.cfg.threadNum → t < env.cfg.threadNum := List.mem_range.mp
  obtain ⟨tasks,targets,hrun,htasks,hkept⟩ := update_run env l List.nodup_range s
    (fun t ht t' ht' m hm hm' => h.ranged.task_unique (hlt ht) (hlt ht') hm hm')
  have htargets : (fun m => mem (.target m)) = s.walks l := funext hmem.targets
  simp only [htargets] at hresults
  refine ⟨_,hrun,fun t ht => ?_,fun m => ?_,fun f hf m => ?_,fun m => ?_⟩
  · simp only [(htasks t (List.mem_range.mpr ht)).1]
    rw [inMemory_congr (MessageTask.update_sameRange _ _)]
    exact ((hmem.tasks t ht).update _).1.trans (hresults ⟨t,ht⟩).1
  · have hne : s.currentVertices ≠ l := by
      rw [h.step.current]
      have := h.step.first
      omega
    rw [(hframe m).1,hmem.messages]
    exact (congrFun (Function.update_of_ne hne _ _) m).symm
  · rw [(hframe m).2]
    refine hmem.states f ?_ m
    rw [← hf]
    exact h.step.states_update targets
  · refine Eq.trans ?_ (congrFun (Function.update_self l targets s.walks) m).symm
    by_cases hm : m < s.epochWalkerNum
    · obtain ⟨t,ht,hm⟩ := h.ranged.exists_task hm
      rw [(htasks t (List.mem_range.mpr ht)).2 m hm,(hresults ⟨t,ht⟩).2 m hm]
      exact congrFun ((hmem.tasks t ht).update _).2 m
    · rw [hrest m (Nat.not_lt.mp hm),hmem.targets,
        hkept m (fun t ht hm' => hm (h.ranged.mem_lt (hlt ht) hm'))]

theorem Holds.refines {tr : List (Action R)} {phase phase' : Phase}
    {prog : Fin env.cfg.threadNum → Code} (h : Holds env tr ⟨s,phase⟩)
    (hregion : MessageRegion env s l phase prog phase') : (∃ mem, InMemory env s l mem) ∧
      ∀ mem, InMemory env s l mem → Refines env l prog mem ⟨s,phase⟩ phase' := by
  have hstage := h.stage
  cases hregion with
  | shuffle =>
    have hshuffling : Shuffling env s l (List.range env.cfg.threadNum) := hstage
    exact ⟨exists_inMemory hshuffling.ranged l,fun mem => hshuffling.refines⟩
  | update =>
    have hupdating : Updating env s l (List.range env.cfg.threadNum) := hstage
    exact ⟨exists_inMemory hupdating.ranged l,fun mem => hupdating.refines⟩

end

end FlashMob.Solver
