import FlashMob.Sampler.Counted
import FlashMob.Solver.Machine

namespace FlashMob.WalkManager
open FlashMob.Graph FlashMob.Sampling

/-- A walked message without the count of the generator. -/
def Moved.erase {ρ R : Type} (m : Moved (Counted ρ) R) : Moved ρ R :=
  ⟨m.nextVertex,m.sampler,m.rand.rand,m.tests⟩

variable {ρ R : Type} [RandGen ρ]

theorem walkMessage_erase (g : NeighborGraph) (v : Nat) (smp : Sampler) (c : Counted ρ) :
    walkMessage (R := R) g v smp c.rand = (walkMessage g v smp c).map Moved.erase := by
  rw [walkMessage,walkMessage,smp.sample_counted]
  split_ifs <;> rfl

variable [RandGenFloat ρ R] [Floating R]

theorem node2vecWalkMessage_erase (wm : Node2vec R) (g : NeighborGraph)
    (socket previous current fuel : Nat) (smp : Sampler) (c : Counted ρ) :
    node2vecWalkMessage wm g socket previous current fuel smp c.rand =
      (node2vecWalkMessage wm g socket previous current fuel smp c).map Moved.erase := by
  induction fuel generalizing smp c with
  | zero => rfl
  | succ fuel ih =>
    rw [node2vecWalkMessage,node2vecWalkMessage,smp.sample_counted]
    split_ifs
    · obtain ⟨next,smp',rd⟩ := smp.sample g.edges current c
      have htest : RandGenFloat.genFloat wm.n2vUpperbound rd.rand =
          ((RandGenFloat.genFloat wm.n2vUpperbound rd : R × Counted ρ).1,
            (RandGenFloat.genFloat wm.n2vUpperbound rd : R × Counted ρ).2.rand) := rfl
      simp only [htest]
      split
      · rfl
      · rfl
      · rw [ih,Option.map_map,Option.map_map]
        rfl
    · rfl

end FlashMob.WalkManager

namespace FlashMob.Solver
open FlashMob.Graph FlashMob.Message FlashMob.Sampling FlashMob.WalkManager Lib.Runs

/-- The solver without the counts of its generators. -/
def FMobSolver.erase {ρ : Type} (s : FMobSolver (Counted ρ)) : FMobSolver ρ :=
  { s with rands := fun t => (s.rands t).rand }

def State.erase {ρ : Type} (st : State (Counted ρ)) : State ρ := ⟨st.solver.erase,st.phase⟩

section
variable {ρ R : Type} [RandGen ρ] {env : Setup R}

theorem drawStart_erase (s : FMobSolver (Counted ρ)) (o : Option (Nat × Nat)) :
    s.erase.drawStart env o = (s.drawStart env o).erase := by
  cases o with
  | none => rfl
  | some call =>
    simp only [FMobSolver.drawStart,FMobSolver.erase,Counted.rand_update]
    rfl

omit [RandGen ρ] in
theorem put_erase (t : Nat) (x : Item) (m : Moved (Counted ρ) R) (s : FMobSolver (Counted ρ)) :
    s.erase.put t x m.erase = (s.put t x m).erase := by
  simp only [FMobSolver.put,FMobSolver.erase,Moved.erase,Counted.rand_update]

omit [RandGen ρ] in
theorem enterStep_erase (l : Nat) (s : FMobSolver (Counted ρ)) :
    enterStep env l s.erase = (enterStep env l s).map State.erase := by
  rw [enterStep,enterStep]
  split_ifs
  · rw [Option.map_map]
    rfl
  · rfl

variable [RandGenFloat ρ R] [Floating R]

theorem walkItem_erase (l t : Nat) (x : Item) (fuel : Nat) (s : FMobSolver (Counted ρ)) :
    s.erase.walkItem env l t x fuel = (s.walkItem env l t x fuel).map Moved.erase := by
  rw [FMobSolver.walkItem,FMobSolver.walkItem]
  cases env.node2vecWalk l with
  | none => exact walkMessage_erase _ _ _ _
  | some wm => exact node2vecWalkMessage_erase _ _ _ _ _ _ _ _

/-- Every step can be made with counts. -/
theorem Step.counted {st : State (Counted ρ)} {o : Option (Action R)} {st' : State ρ}
    (hs : Step env st.erase o st') : ∃ st'' : State (Counted ρ), Step env st o st'' ∧
      st''.erase = st' := by
  obtain ⟨s,phase⟩ := st
  generalize he : (State.erase ⟨s,phase⟩ : State ρ) = erased at hs
  cases hs with
  | begin hrest hcheck =>
    cases he
    exact ⟨_,.begin hrest hcheck,rfl⟩
  | draw hs =>
    cases he
    exact ⟨_,.draw hs,congrArg (State.mk · _) (drawStart_erase s _).symm⟩
  | drawn hl =>
    cases he
    exact ⟨_,.drawn hl,rfl⟩
  | copy hw =>
    cases he
    exact ⟨_,.copy hw,rfl⟩
  | copied henter =>
    cases he
    rw [enterStep_erase] at henter
    obtain ⟨st'',hentered,rfl⟩ := Option.map_eq_some_iff.mp henter
    exact ⟨st'',.copied hentered,rfl⟩
  | shuffle ht =>
    cases he
    exact ⟨_,.shuffle ht,rfl⟩
  | shuffled =>
    cases he
    exact ⟨_,.shuffled,rfl⟩
  | schedule hs ho =>
    cases he
    exact ⟨_,.schedule hs ho,rfl⟩
  | message hs hm =>
    cases he
    rw [walkItem_erase] at hm
    obtain ⟨m,hmoved,rfl⟩ := Option.map_eq_some_iff.mp hm
    exact ⟨_,.message hs hmoved,congrArg (State.mk · _) (put_erase _ _ m s).symm⟩
  | walked hl =>
    cases he
    exact ⟨_,.walked hl,rfl⟩
  | update ht =>
    cases he
    exact ⟨_,.update ht,rfl⟩
  | @updated _ l _ henter =>
    cases he
    change enterStep env (l + 1) (s.advance l).erase = _ at henter
    rw [enterStep_erase] at henter
    obtain ⟨st'',hentered,rfl⟩ := Option.map_eq_some_iff.mp henter
    exact ⟨st'',.updated hentered,rfl⟩
  | @write _ _ _ o hs =>
    cases he
    refine ⟨_,.write hs,?_⟩
    cases o <;> rfl
  | finish hl hc =>
    cases he
    exact ⟨_,.finish hl hc,rfl⟩
  | stop hrest hcheck =>
    cases he
    exact ⟨_,.stop hrest hcheck,rfl⟩

end

end FlashMob.Solver
