import FlashMob.Sampler.Draws
import FlashMob.Solver.Legal

namespace FlashMob.Solver
open FlashMob.Graph FlashMob.Message FlashMob.Sampling FlashMob.WalkManager Lib.Prefetch Lib.Runs

/-- The vertex that the word of a draw decides: a start vertex, or a neighbour of the vertex
before. -/
def decided (g : NeighborGraph) (word : BitVec 64) : Option Nat → Nat
  | none => u32 word.toNat % g.vNum
  | some v => sampledBy g.edges (g.adjlists 0 v) word

/-- What is recorded of a run beside its trace: the ledger of all draws, those that were served, and
which of them decided the vertices of the paths. A vertex is named by its epoch, its walker and its
index in the path. -/
structure Record where
  ledger : Ledger Nat (Nat × Nat)
  served : List (Nat × Nat)
  places : Set (Nat × Nat × Nat)
  origin : Nat × Nat × Nat → Nat × Nat

namespace Record

def empty : Record := ⟨.empty,[],∅,fun _ => (0,0)⟩

def decide (r : Record) (q : Nat × Nat × Nat) (o : Nat × Nat) (l : Ledger Nat (Nat × Nat))
    (served : List (Nat × Nat)) : Record :=
  ⟨l,served,insert q r.places,Function.update r.origin q o⟩

/-- Different vertices were decided by different draws. -/
structure Sound (r : Record) : Prop where
  ledger : r.ledger.Sound r.served
  served : ∀ q ∈ r.places, r.origin q ∈ r.served
  once : Set.InjOn r.origin r.places

/-- A vertex was decided by the draw that is recorded for it, from the vertex `previous`. -/
def Decides {ρ : Type} [RandGen ρ] [WordGen ρ] (r : Record) (g : NeighborGraph) (rands : Nat → ρ)
    (q : Nat × Nat × Nat) (v : Nat) (previous : Option Nat) : Prop :=
  q ∈ r.places ∧ v = decided g (wordOf rands (r.origin q)) previous

@[simp] theorem origin_decide_self (r : Record) (q : Nat × Nat × Nat) (o : Nat × Nat)
    (l : Ledger Nat (Nat × Nat)) (served : List (Nat × Nat)) :
    (r.decide q o l served).origin q = o := Function.update_self _ _ _

theorem origin_decide_of_ne (r : Record) {q q' : Nat × Nat × Nat} (o : Nat × Nat)
    (l : Ledger Nat (Nat × Nat)) (served : List (Nat × Nat)) (h : q' ≠ q) :
    (r.decide q o l served).origin q' = r.origin q' := Function.update_of_ne h _ _

theorem sound_empty : empty.Sound :=
  ⟨Ledger.sound_empty,fun _ h => absurd h (Set.notMem_empty _),fun _ h => absurd h (Set.notMem_empty _)⟩

theorem Sound.decide {r : Record} (h : r.Sound) {o : Nat × Nat} {l : Ledger Nat (Nat × Nat)}
    {served : List (Nat × Nat)} (hl : l.Sound served) (hgrows : ∀ q ∈ r.served, q ∈ served)
    (hin : o ∈ served) (hfresh : o ∉ r.served) (q : Nat × Nat × Nat) :
    (r.decide q o l served).Sound := by
  have hother : ∀ {q'}, q' ≠ q → (r.decide q o l served).origin q' = r.origin q' :=
    fun hne => r.origin_decide_of_ne o l served hne
  have hself := r.origin_decide_self q o l served
  refine ⟨hl,fun q' hq' => ?_,fun q' hq' q'' hq'' he => ?_⟩
  · by_cases hne : q' = q
    · subst hne
      rw [hself]
      exact hin
    · rw [hother hne]
      exact hgrows _ (h.served q' ((Set.mem_insert_iff.mp hq').resolve_left hne))
  · -- The new draw was not served to any of the old vertices.
    have hold : ∀ {q'}, q' ∈ insert q r.places → q' ≠ q →
        (r.decide q o l served).origin q' ≠ o := by
      intro q' hq' hne ho
      rw [hother hne] at ho
      exact hfresh (ho ▸ h.served q' ((Set.mem_insert_iff.mp hq').resolve_left hne))
    by_cases hne : q' = q
    · subst hne
      by_contra hne'
      exact hold hq'' (Ne.symm hne') (he.symm.trans hself)
    · by_cases hne' : q'' = q
      · subst hne'
        exact absurd (he.trans hself) (hold hq' hne)
      · rw [hother hne,hother hne'] at he
        exact h.once ((Set.mem_insert_iff.mp hq').resolve_left hne)
          ((Set.mem_insert_iff.mp hq'').resolve_left hne') he

section
variable {ρ : Type} [RandGen ρ] [WordGen ρ] {r : Record} {g : NeighborGraph} {rands : Nat → ρ} {q q' : Nat × Nat × Nat}
  {o : Nat × Nat} {l : Ledger Nat (Nat × Nat)} {served : List (Nat × Nat)} {v : Nat}
  {previous : Option Nat}

theorem Decides.self (hv : v = decided g (wordOf rands o) previous) :
    (r.decide q o l served).Decides g rands q v previous := by
  refine ⟨Set.mem_insert _ _,?_⟩
  rw [hv,origin_decide_self]

theorem Decides.other (h : r.Decides g rands q' v previous) (hne : q' ≠ q) :
    (r.decide q o l served).Decides g rands q' v previous := by
  refine ⟨Set.mem_insert_of_mem _ h.1,?_⟩
  rw [h.2,origin_decide_of_ne _ _ _ _ hne]

end

end Record

def epochs {R : Type} (tr : List (Action R)) : List (Nat × (Nat → Nat) × (Nat → Nat)) :=
  tr.filterMap (fun
    | .message _ _ _ _ => none
    | .epoch epochWalkerNum walkerStartVertices output =>
      some (epochWalkerNum,walkerStartVertices,output))

@[simp] theorem epochs_append {R : Type} (tr tr' : List (Action R)) :
    epochs (tr ++ tr') = epochs tr ++ epochs tr' := List.filterMap_append

/-- The lists of all partitions are those of one table, and can be sampled. -/
structure OneTable (g : NeighborGraph) : Prop where
  tables : ∀ p < g.partitionNum, g.adjlists (partitionSocket g.socketNum p) = g.adjlists 0
  degrees : ∀ p < g.partitionNum, ∀ v, g.partitionBegin p ≤ v → v < g.partitionEnd p →
    0 < (g.adjlists 0 v).degree ∧ (g.adjlists 0 v).degree < 2 ^ 32

section
variable {ρ R : Type} [RandGen ρ] [WordGen ρ] (env : Setup R) (rands : Nat → ρ) (r : Record) (k : Nat)
  (s : FMobSolver ρ)

/-- The first `l` vertices of the walkers of epoch `k` are decided. -/
structure Decided (l : Nat) : Prop where
  starts : ∀ w < s.epochWalkerNum,
    r.Decides env.graph rands (k,w,0) (s.walkerStartVertices w) none
  steps : ∀ w < s.epochWalkerNum, ∀ i, i + 1 < l →
    r.Decides env.graph rands (k,w,i + 1) (s.walks (i + 1) w) (some (s.walks i w))

/-- What walker `m` of task `t` finds in its slot is its next vertex. -/
def Moves (l t m : Nat) : Prop :=
  r.Decides env.graph rands (k,m,l) ((s.tasks t).shuffledMessages
    ((s.tasks t).slot env.graph.toGroups (s.walks (l - 1)) m)) (some (s.walks (l - 1) m))

/-- What is decided in each phase of epoch `k`. -/
def Phase.Decides : Phase → Prop
  | .driver | .done => True
  | .start pool => ∃ tr, Run (WalkerManager.WrapStep env.cfg env.maxEpochWalkerNum s.epochWalkerNum)
      (WalkerManager.entry s.threadStates) tr pool ∧
      ∀ w ∈ tr.map Prod.snd, r.Decides env.graph rands (k,w,0) (s.walkerStartVertices w) none
  | .copy _ => Decided env rands r k s 1
  | .shuffle l _ => Decided env rands r k s l
  | .walk l progress => Decided env rands r k s l ∧
      ∃ tr, Run (RegionStep (walkRegion env.cfg env.graph.partitionNum s.tasks))
        WalkManager.entry tr progress ∧ ∀ t < env.cfg.threadNum, ∀ m ∈ (s.tasks t).range,
          itemOf env.graph.toGroups s.tasks (s.walks (l - 1)) t m ∈
            (WalkManager.walked tr).map Prod.snd → Moves env rands r k s l t m
  | .update l todo => Decided env rands r k s l ∧
      (∀ t < env.cfg.threadNum, t ∈ todo → ∀ m ∈ (s.tasks t).range, Moves env rands r k s l t m) ∧
      ∀ t < env.cfg.threadNum, t ∉ todo → ∀ m ∈ (s.tasks t).range,
        r.Decides env.graph rands (k,m,l) (s.walks l m) (some (s.walks (l - 1) m))
  | .paths _ => Decided env rands r k s env.walkLen

end

/-- The record accounts for a run: for all draws, for the vertices of the epochs that have ended,
and for those of the epoch that is under way. -/
structure Accounts {ρ R : Type} [RandGen ρ] [WordGen ρ] (env : Setup R) (rands : Nat → ρ)
    (r : Record) (tr : List (Action R)) (st : State ρ) : Prop where
  sound : r.Sound
  drawn : ∀ t, st.solver.rands t = drawnWith rands (t,r.ledger.used t)
  follows : ∀ p < env.graph.partitionNum, Sampler.Follows env.graph.edges (env.graph.adjlists 0)
    (env.graph.partitionBegin p) (env.graph.partitionEnd p) rands r.ledger p (st.solver.samplers p)
  ended : ∀ k n start output, (epochs tr)[k]? = some (n,start,output) → ∀ w < n,
    ∀ i < env.walkLen, r.Decides env.graph rands (k,w,i) (output (w * env.walkLen + i))
      (if i = 0 then none else some (output (w * env.walkLen + (i - 1))))
  phase : st.phase.Decides env rands r (epochs tr).length st.solver

section
variable {ρ R : Type} [RandGen ρ] [WordGen ρ] {env : Setup R} {rands : Nat → ρ} {r : Record}
  {k l t : Nat} {s s' : FMobSolver ρ}

theorem Decided.congr (h : Decided env rands r k s l) (hnum : s'.epochWalkerNum = s.epochWalkerNum)
    (hstart : s'.walkerStartVertices = s.walkerStartVertices)
    (hwalks : ∀ i < l, s'.walks i = s.walks i) : Decided env rands r k s' l := by
  refine ⟨fun w hw => ?_,fun w hw i hi => ?_⟩
  · rw [hstart]
    exact h.starts w (hnum ▸ hw)
  · rw [hwalks _ hi,hwalks i (by omega)]
    exact h.steps w (hnum ▸ hw) i hi

theorem Decided.decide (h : Decided env rands r k s l) (hfirst : 1 ≤ l) (w : Nat) (o : Nat × Nat)
    (ledger : Ledger Nat (Nat × Nat)) (served : List (Nat × Nat)) :
    Decided env rands (r.decide (k,w,l) o ledger served) k s l := by
  refine ⟨fun w' hw' => (h.starts w' hw').other (fun he => ?_),
    fun w' hw' i hi => (h.steps w' hw' i hi).other (fun he => ?_)⟩
  · have := congrArg (fun q => q.2.2) he
    simp only at this
    omega
  · have := congrArg (fun q => q.2.2) he
    simp only at this
    omega

theorem Decided.extend (h : Decided env rands r k s l) (hfirst : 1 ≤ l)
    (hnext : ∀ w < s.epochWalkerNum,
      r.Decides env.graph rands (k,w,l) (s.walks l w) (some (s.walks (l - 1) w))) :
    Decided env rands r k s (l + 1) := by
  refine ⟨h.starts,fun w hw i hi => ?_⟩
  rcases Nat.lt_or_eq_of_le (Nat.le_of_lt_succ hi) with hlt | rfl
  · exact h.steps w hw i hlt
  · exact hnext w hw

end

end FlashMob.Solver
