import FlashMob.Lib.Threads
import FlashMob.Message.Manager

namespace FlashMob.Message
open FlashMob.Graph FlashMob.WalkerManager Lib.Runs Lib.Threads Lib.Writes

/-- The arrays that the threads share, and those of the task of a thread. -/
inductive Loc
  | message (m : Nat)
  | state (m : Nat)
  | target (m : Nat)
  | partitionId (m : Nat)
  | shuffledBegin (t p : Nat)
  | shuffledEnd (t p : Nat)
  | shuffledMessage (t i : Nat)
  | shuffledState (t i : Nat)
  deriving DecidableEq

/-- The local variables of the loops. -/
structure Registers where
  partition : Nat
  shuffled : Nat
  message : Nat
  counter : Nat

abbrev Code := List (Instr Loc Nat Registers)

def Registers.zero : Registers := ⟨0,0,0,0⟩

def loadPartition (a : Loc) : Instr Loc Nat Registers := .load (fun _ => a) (fun r x => { r with partition := x })
def loadMessage (a : Registers → Loc) : Instr Loc Nat Registers := .load a (fun r x => { r with message := x })
def storeMessage (a : Registers → Loc) : Instr Loc Nat Registers := .store a Registers.message

/-- The two accesses of `shuffled_i = cursor[p_i]++`. -/
def bump (cursor : Nat → Loc) : Code :=
  [.load (fun r => cursor r.partition) (fun r x => { r with shuffled := x }),
    .store (fun r => cursor r.partition) (fun r => r.shuffled + 1)]

namespace MessageTask
variable (mt : MessageTask) (t : Nat)

/-- The bodies of the loops of `prepare` by the task of thread `t`. -/
def zeroBody (p : Nat) : Code := [.store (fun _ => .shuffledEnd t p) (fun _ => 0)]

def countBody (g : Groups) (m : Nat) : Code :=
  [.load (fun _ => .message m) (fun r msg => { r with partition := mt.narrowId g msg }),
    .store (fun _ => .partitionId m) Registers.partition] ++ bump (.shuffledEnd t)

def placeBody (p : Nat) : Code :=
  [.store (fun _ => .shuffledBegin t p) Registers.counter,
    .load (fun _ => .shuffledEnd t p) (fun r x => { r with counter := r.counter + x })]

def resetBody (p : Nat) : Code :=
  [loadMessage (fun _ => .shuffledBegin t p),storeMessage (fun _ => .shuffledEnd t p)]

def prepareCode (g : Groups) : Code :=
  (List.range' 0 mt.partitionNum).flatMap (zeroBody t) ++ mt.range.flatMap (countBody mt t g) ++
    (List.range' 0 mt.partitionNum).flatMap (placeBody t) ++
    (List.range' 0 mt.partitionNum).flatMap (resetBody t)

/-- The body of the loop of `shuffle`, in its two forms. -/
def sendBody (withStates : Bool) (m : Nat) : Code :=
  [loadPartition (.partitionId m)] ++ bump (.shuffledEnd t) ++
    [loadMessage (fun _ => .message m),storeMessage (fun r => .shuffledMessage t r.shuffled)] ++
    if withStates then
      [loadMessage (fun _ => .state m),storeMessage (fun r => .shuffledState t r.shuffled)]
    else []

def shuffleCode (withStates : Bool) : Code := mt.range.flatMap (sendBody t withStates)

/-- The body of the loop of `update`. -/
def backBody (m : Nat) : Code :=
  [loadPartition (.partitionId m)] ++ bump (.shuffledBegin t) ++
    [loadMessage (fun r => .shuffledMessage t r.shuffled),storeMessage (fun _ => .target m)]

def updateCode : Code := mt.range.flatMap (backBody t)

/-- The task as its arrays are in a memory. -/
def inMemory (mem : Loc → Nat) : MessageTask :=
  { mt with
    shuffledMessageBegin := fun p => mem (.shuffledBegin t p)
    shuffledMessageEnd := fun p => mem (.shuffledEnd t p)
    shuffledMessages := fun i => mem (.shuffledMessage t i)
    shuffledStates := fun i => mem (.shuffledState t i)
    partitionIds := fun m => mem (.partitionId m) }

end MessageTask

section
variable (mt : MessageTask) (t : Nat) (mem : Loc → Nat) (x : Nat)

@[simp] theorem inMemory_shuffledBegin (p : Nat) :
    mt.inMemory t (Function.update mem (.shuffledBegin t p) x) =
      { mt.inMemory t mem with
        shuffledMessageBegin := Function.update (mt.inMemory t mem).shuffledMessageBegin p x } := by
  simp only [MessageTask.inMemory,MessageTask.mk.injEq,true_and]
  refine ⟨?_,?_,?_,?_,?_⟩ <;> funext q <;> simp [Function.update_apply]

@[simp] theorem inMemory_shuffledEnd (p : Nat) :
    mt.inMemory t (Function.update mem (.shuffledEnd t p) x) =
      { mt.inMemory t mem with
        shuffledMessageEnd := Function.update (mt.inMemory t mem).shuffledMessageEnd p x } := by
  simp only [MessageTask.inMemory,MessageTask.mk.injEq,true_and]
  refine ⟨?_,?_,?_,?_,?_⟩ <;> funext q <;> simp [Function.update_apply]

@[simp] theorem inMemory_shuffledMessage (i : Nat) :
    mt.inMemory t (Function.update mem (.shuffledMessage t i) x) =
      { mt.inMemory t mem with
        shuffledMessages := Function.update (mt.inMemory t mem).shuffledMessages i x } := by
  simp only [MessageTask.inMemory,MessageTask.mk.injEq,true_and]
  refine ⟨?_,?_,?_,?_,?_⟩ <;> funext q <;> simp [Function.update_apply]

@[simp] theorem inMemory_shuffledState (i : Nat) :
    mt.inMemory t (Function.update mem (.shuffledState t i) x) =
      { mt.inMemory t mem with
        shuffledStates := Function.update (mt.inMemory t mem).shuffledStates i x } := by
  simp only [MessageTask.inMemory,MessageTask.mk.injEq,true_and]
  refine ⟨?_,?_,?_,?_,?_⟩ <;> funext q <;> simp [Function.update_apply]

@[simp] theorem inMemory_partitionId (m : Nat) :
    mt.inMemory t (Function.update mem (.partitionId m) x) =
      { mt.inMemory t mem with
        partitionIds := Function.update (mt.inMemory t mem).partitionIds m x } := by
  simp only [MessageTask.inMemory,MessageTask.mk.injEq,true_and]
  refine ⟨?_,?_,?_,?_,?_⟩ <;> funext q <;> simp [Function.update_apply]

@[simp] theorem inMemory_target (m : Nat) :
    mt.inMemory t (Function.update mem (.target m) x) = mt.inMemory t mem := by
  simp [MessageTask.inMemory]

end

/-- A task in a memory whose other arrays are as they were in `mem`. -/
structure Sees (mt : MessageTask) (t : Nat) (mem : Loc → Nat) (mem' : Loc → Nat)
    (mt' : MessageTask) : Prop where
  task : mt.inMemory t mem' = mt'
  message : ∀ m, mem' (.message m) = mem (.message m)
  state : ∀ m, mem' (.state m) = mem (.state m)

namespace Sees
variable {mt mt' : MessageTask} {t : Nat} {mem mem' : Loc → Nat} (h : Sees mt t mem mem' mt')
include h

theorem shuffledBegin (p : Nat) : mem' (.shuffledBegin t p) = mt'.shuffledMessageBegin p := by
  rw [← h.task]
  rfl

theorem shuffledEnd (p : Nat) : mem' (.shuffledEnd t p) = mt'.shuffledMessageEnd p := by
  rw [← h.task]
  rfl

theorem partitionId (m : Nat) : mem' (.partitionId m) = mt'.partitionIds m := by
  rw [← h.task]
  rfl

theorem shuffledMessage (i : Nat) : mem' (.shuffledMessage t i) = mt'.shuffledMessages i := by
  rw [← h.task]
  rfl

theorem storeBegin (p x : Nat) : Sees mt t mem (Function.update mem' (.shuffledBegin t p) x)
    { mt' with shuffledMessageBegin := Function.update mt'.shuffledMessageBegin p x } :=
  ⟨by rw [inMemory_shuffledBegin,h.task],fun m => by simp [h.message m],fun m => by simp [h.state m]⟩

theorem storeEnd (p x : Nat) : Sees mt t mem (Function.update mem' (.shuffledEnd t p) x)
    { mt' with shuffledMessageEnd := Function.update mt'.shuffledMessageEnd p x } :=
  ⟨by rw [inMemory_shuffledEnd,h.task],fun m => by simp [h.message m],fun m => by simp [h.state m]⟩

theorem storeShuffled (i x : Nat) : Sees mt t mem (Function.update mem' (.shuffledMessage t i) x)
    { mt' with shuffledMessages := Function.update mt'.shuffledMessages i x } :=
  ⟨by rw [inMemory_shuffledMessage,h.task],fun m => by simp [h.message m],
    fun m => by simp [h.state m]⟩

theorem storeState (i x : Nat) : Sees mt t mem (Function.update mem' (.shuffledState t i) x)
    { mt' with shuffledStates := Function.update mt'.shuffledStates i x } :=
  ⟨by rw [inMemory_shuffledState,h.task],fun m => by simp [h.message m],
    fun m => by simp [h.state m]⟩

theorem storePartition (m x : Nat) : Sees mt t mem (Function.update mem' (.partitionId m) x)
    { mt' with partitionIds := Function.update mt'.partitionIds m x } :=
  ⟨by rw [inMemory_partitionId,h.task],fun m => by simp [h.message m],fun m => by simp [h.state m]⟩

theorem storeTarget (m x : Nat) : Sees mt t mem (Function.update mem' (.target m) x) mt' :=
  ⟨by rw [inMemory_target,h.task],fun m => by simp [h.message m],fun m => by simp [h.state m]⟩

end Sees

open MessageTask

section
variable {mt mt' : MessageTask} {t : Nat} {mem : Loc → Nat} (st : Registers × (Loc → Nat))
  (h : Sees mt t mem st.2 mt') (n : Nat) (l : List Nat)
include h

theorem zero_loop : Sees mt t mem (exec ((List.range' 0 n).flatMap (zeroBody t)) st).2
      { mt' with
        shuffledMessageEnd := (List.range' 0 n).foldl (fun ends p => Function.update ends p 0)
          mt'.shuffledMessageEnd } ∧
    (exec ((List.range' 0 n).flatMap (zeroBody t)) st).1.counter = st.1.counter := by
  refine exec_flatMap (fun st' ends => Sees mt t mem st'.2 { mt' with shuffledMessageEnd := ends } ∧
    st'.1.counter = st.1.counter) _ (fun p _ st' ends h => ?_) st _ ⟨h,rfl⟩
  exact ⟨h.1.storeEnd p 0,h.2⟩

theorem count_loop (g : Groups) : ∃ counted, counted = l.foldl
      (fun (c : (Nat → Nat) × (Nat → Nat)) m =>
        let p := mt.narrowId g (mem (.message m))
        (Function.update c.1 p (c.1 p + 1),Function.update c.2 m p))
      (mt'.shuffledMessageEnd,mt'.partitionIds) ∧
    Sees mt t mem (exec (l.flatMap (countBody mt t g)) st).2
      { mt' with shuffledMessageEnd := counted.1, partitionIds := counted.2 } ∧
    (exec (l.flatMap (countBody mt t g)) st).1.counter = st.1.counter := by
  refine ⟨_,rfl,exec_flatMap (fun st' (c : (Nat → Nat) × (Nat → Nat)) => Sees mt t mem st'.2
    { mt' with shuffledMessageEnd := c.1, partitionIds := c.2 } ∧ st'.1.counter = st.1.counter) _
    (fun m _ st' c h => ?_) st _ ⟨h,rfl⟩⟩
  have hid := h.1.storePartition m (mt.narrowId g (mem (.message m)))
  have hend := hid.shuffledEnd (mt.narrowId g (mem (.message m)))
  have hbump := hid.storeEnd (mt.narrowId g (mem (.message m)))
    (c.1 (mt.narrowId g (mem (.message m))) + 1)
  simp only [countBody,bump,List.cons_append,List.nil_append,exec_cons,exec_nil,Instr.exec,
    h.1.message,hend]
  exact ⟨hbump,h.2⟩

theorem place_loop (hzero : st.1.counter = 0) :
    Sees mt t mem (exec ((List.range' 0 n).flatMap (placeBody t)) st).2
      { mt' with
        shuffledMessageBegin := ((List.range' 0 n).foldl (fun (b : (Nat → Nat) × Nat) p =>
          (Function.update b.1 p b.2,b.2 + mt'.shuffledMessageEnd p))
          (mt'.shuffledMessageBegin,0)).1 } := by
  refine (exec_flatMap (fun st' (b : (Nat → Nat) × Nat) => Sees mt t mem st'.2
    { mt' with shuffledMessageBegin := b.1 } ∧ st'.1.counter = b.2) _
    (fun p _ st' b h => ?_) st _ ⟨h,hzero⟩).1
  have hbegin := h.1.storeBegin p b.2
  simp only [placeBody,exec_cons,exec_nil,Instr.exec,h.2,hbegin.shuffledEnd,and_true]
  exact hbegin

theorem reset_loop : Sees mt t mem (exec ((List.range' 0 n).flatMap (resetBody t)) st).2
    { mt' with
      shuffledMessageEnd := (List.range' 0 n).foldl
        (fun ends p => Function.update ends p (mt'.shuffledMessageBegin p))
        mt'.shuffledMessageEnd } := by
  refine exec_flatMap (fun st' ends => Sees mt t mem st'.2 { mt' with shuffledMessageEnd := ends }) _
    (fun p _ st' ends h => ?_) st _ h
  have hend := h.storeEnd p (mt'.shuffledMessageBegin p)
  simp only [resetBody,loadMessage,storeMessage,exec_cons,exec_nil,Instr.exec,h.shuffledBegin]
  exact hend

theorem send_loop (withStates : Bool) (hrange : mt'.range = mt.range) :
    Sees mt t mem (exec (mt.shuffleCode t withStates) st).2
      (mt'.shuffle (fun m => mem (.message m))
        (if withStates then some (fun m => mem (.state m)) else none)) := by
  cases withStates with
  | false =>
    rw [shuffleCode,← hrange]
    refine exec_flatMap (fun st' (c : (Nat → Nat) × (Nat → Nat)) => Sees mt t mem st'.2
      { mt' with shuffledMessageEnd := c.1, shuffledMessages := c.2 }) _
      (fun m _ st' c h => ?_) st (mt'.shuffledMessageEnd,mt'.shuffledMessages) h
    have hend := h.storeEnd (mt'.partitionIds m) (c.1 (mt'.partitionIds m) + 1)
    have hsent := hend.storeShuffled (c.1 (mt'.partitionIds m)) (mem (.message m))
    simp only [sendBody,loadPartition,loadMessage,storeMessage,bump,List.cons_append,
      List.nil_append,exec_cons,exec_nil,Instr.exec,h.partitionId,h.shuffledEnd,hend.message,
      Bool.false_eq_true,if_false]
    exact hsent
  | true =>
    rw [shuffleCode,← hrange]
    refine exec_flatMap (fun st' (c : (Nat → Nat) × (Nat → Nat) × (Nat → Nat)) =>
      Sees mt t mem st'.2
        { mt' with shuffledMessageEnd := c.1, shuffledMessages := c.2.1, shuffledStates := c.2.2 }) _
      (fun m _ st' c h => ?_) st
      (mt'.shuffledMessageEnd,mt'.shuffledMessages,mt'.shuffledStates) h
    have hend := h.storeEnd (mt'.partitionIds m) (c.1 (mt'.partitionIds m) + 1)
    have hsent := hend.storeShuffled (c.1 (mt'.partitionIds m)) (mem (.message m))
    have hstate := hsent.storeState (c.1 (mt'.partitionIds m)) (mem (.state m))
    simp only [sendBody,loadPartition,loadMessage,storeMessage,bump,List.cons_append,
      List.nil_append,exec_cons,exec_nil,Instr.exec,h.partitionId,h.shuffledEnd,hend.message,
      hsent.state,if_true]
    exact hstate

theorem back_loop (hrange : mt'.range = mt.range) :
    Sees mt t mem (exec (mt.updateCode t) st).2 (mt'.update (fun m => st.2 (.target m))).1 ∧
      (fun m => (exec (mt.updateCode t) st).2 (.target m)) =
        (mt'.update (fun m => st.2 (.target m))).2 := by
  rw [updateCode,← hrange]
  refine exec_flatMap (fun st' (c : (Nat → Nat) × (Nat → Nat)) => Sees mt t mem st'.2
    { mt' with shuffledMessageBegin := c.1 } ∧ (fun m => st'.2 (.target m)) = c.2) _
    (fun m _ st' c h => ?_) st (mt'.shuffledMessageBegin,fun m => st.2 (.target m)) ⟨h,rfl⟩
  have hbegin := h.1.storeBegin (mt'.partitionIds m) (c.1 (mt'.partitionIds m) + 1)
  have hback := hbegin.storeTarget m (mt'.shuffledMessages (c.1 (mt'.partitionIds m)))
  simp only [backBody,loadPartition,loadMessage,storeMessage,bump,List.cons_append,List.nil_append,
    exec_cons,exec_nil,Instr.exec,h.1.partitionId,h.1.shuffledBegin,hbegin.shuffledMessage]
  refine ⟨hback,?_⟩
  rw [← h.2]
  funext m'
  simp [Function.update_apply]

end

section
variable (mt : MessageTask) (t : Nat) (mem : Loc → Nat)

theorem inMemory_sees : Sees mt t mem mem (mt.inMemory t mem) := ⟨rfl,fun _ => rfl,fun _ => rfl⟩

/-- `prepare` and `shuffle` as a thread runs them alone. -/
theorem shuffle_alone (g : Groups) (withStates : Bool) :
    Sees mt t mem (exec (mt.prepareCode t g ++ mt.shuffleCode t withStates) (.zero,mem)).2
      (((mt.inMemory t mem).prepare g (fun m => mem (.message m))).shuffle
        (fun m => mem (.message m)) (if withStates then some (fun m => mem (.state m)) else none)) := by
  obtain ⟨hzeroed,hcounter⟩ := zero_loop (.zero,mem) (inMemory_sees mt t mem) mt.partitionNum
  obtain ⟨counted,rfl,hcounted,hcounter'⟩ := count_loop _ hzeroed mt.range g
  have hplaced := place_loop _ hcounted mt.partitionNum (hcounter'.trans hcounter)
  have hreset := reset_loop _ hplaced mt.partitionNum
  have hprepared : Sees mt t mem (exec (mt.prepareCode t g) (.zero,mem)).2
      ((mt.inMemory t mem).prepare g (fun m => mem (.message m))) := by
    rw [MessageTask.prepareCode,exec_append,exec_append,exec_append]
    exact hreset
  rw [exec_append]
  exact send_loop _ hprepared withStates rfl

/-- `update` as a thread runs it alone. -/
theorem update_alone : Sees mt t mem (exec (mt.updateCode t) (.zero,mem)).2
      ((mt.inMemory t mem).update (fun m => mem (.target m))).1 ∧
    (fun m => (exec (mt.updateCode t) (.zero,mem)).2 (.target m)) =
      ((mt.inMemory t mem).update (fun m => mem (.target m))).2 :=
  back_loop (.zero,mem) (inMemory_sees mt t mem) rfl

end

/-- Tasks that differ in `partition_ids` at most, and not where the task uses it. -/
structure Alike (mt mt' : MessageTask) : Prop where
  same : mt' = { mt with partitionIds := mt'.partitionIds }
  ids : ∀ m ∈ mt.range, mt'.partitionIds m = mt.partitionIds m

namespace Alike
variable {mt mt' mt'' : MessageTask}

theorem exists_ids (h : Alike mt mt') : ∃ ids, mt' = { mt with partitionIds := ids } ∧
    ∀ m ∈ mt.range, ids m = mt.partitionIds m := ⟨_,h.same,h.ids⟩

theorem range (h : Alike mt mt') : mt'.range = mt.range := by
  rw [h.same]
  rfl

theorem trans (h : Alike mt mt') (h' : Alike mt' mt'') : Alike mt mt'' := by
  refine ⟨?_,fun m hm => ?_⟩
  · rw [h'.same,h.same]
  · rw [h'.ids m (h.range ▸ hm),h.ids m hm]

variable (h : Alike mt mt')
include h

theorem prepare (g : Groups) (origin : Nat → Nat) :
    Alike (mt.prepare g origin) (mt'.prepare g origin) := by
  have hids : ∀ m ∈ mt.range, (mt'.prepare g origin).partitionIds m =
      (mt.prepare g origin).partitionIds m := by
    intro m hm
    rw [prepare_partitionIds hm,prepare_partitionIds (h.range ▸ hm),h.same]
    rfl
  refine ⟨?_,hids⟩
  obtain ⟨ids,rfl,_⟩ := h.exists_ids
  have hnarrow : ∀ msg, MessageTask.narrowId g { mt with partitionIds := ids } msg =
      mt.narrowId g msg := fun _ => rfl
  have hrange : MessageTask.range { mt with partitionIds := ids } = mt.range := rfl
  unfold MessageTask.prepare
  simp only [hnarrow,hrange,Lib.Cursor.foldl_count (fun m => mt.narrowId g (origin m))
    (fun m ids => Function.update ids m (mt.narrowId g (origin m)))]

theorem shuffle (origin : Nat → Nat) (states : Option (Nat → Nat)) :
    Alike (mt.shuffle origin states) (mt'.shuffle origin states) := by
  obtain ⟨ids,rfl,hids⟩ := h.exists_ids
  have hrange : MessageTask.range { mt with partitionIds := ids } = mt.range := rfl
  cases states with
  | none =>
    refine ⟨?_,hids⟩
    simp only [MessageTask.shuffle,hrange]
    rw [List.foldl_ext _ _ _ (fun c m hm => by rw [hids m hm])]
  | some f =>
    refine ⟨?_,hids⟩
    simp only [MessageTask.shuffle,hrange]
    rw [List.foldl_ext _ _ _ (fun c m hm => by rw [hids m hm])]

theorem update (f : Nat → Nat) :
    Alike (mt.update f).1 (mt'.update f).1 ∧ (mt'.update f).2 = (mt.update f).2 := by
  obtain ⟨ids,rfl,hids⟩ := h.exists_ids
  have hrange : MessageTask.range { mt with partitionIds := ids } = mt.range := rfl
  simp only [MessageTask.update,hrange]
  rw [List.foldl_ext _ _ _ (fun c m hm => by rw [← hids m hm])]
  exact ⟨⟨rfl,hids⟩,rfl⟩

end Alike

/-- The stores of `update` to the target messages. -/
def received (mt : MessageTask) : List (Nat × Nat) :=
  (mt.range.zip (Lib.Cursor.slots mt.shuffledMessageBegin (mt.range.map mt.partitionIds))).map
    (fun q => (q.1,mt.shuffledMessages q.2))

section
variable (mt : MessageTask) (f f' : Nat → Nat)

theorem update_eq : mt.update f = ({ mt with
      shuffledMessageBegin :=
        Lib.Cursor.advance mt.shuffledMessageBegin (mt.range.map mt.partitionIds) },
    writes f (received mt)) := by
  rw [MessageTask.update]
  simp only [Lib.Cursor.foldl_claim mt.partitionIds (fun m i t => Function.update t m
    (mt.shuffledMessages i)),foldl_update,received]

theorem map_fst_received : (received mt).map Prod.fst = mt.range := by
  rw [received,List.map_map]
  exact List.map_fst_zip (by simp)

theorem update_fst : (mt.update f).1 = (mt.update f').1 := by
  rw [update_eq,update_eq]

/-- `update` stores at the walkers of the task, whatever was there. -/
theorem update_snd_of_mem {m : Nat} (hm : m ∈ mt.range) :
    (mt.update f).2 m = (mt.update f').2 m := by
  have hnodup : ((received mt).map Prod.fst).Nodup := by
    rw [map_fst_received]
    exact List.nodup_range'
  obtain ⟨⟨_,x⟩,hx,rfl⟩ := List.mem_map.mp ((map_fst_received mt).symm ▸ hm)
  rw [update_eq,update_eq]
  exact (writes_of_mem f hnodup hx).trans (writes_of_mem f' hnodup hx).symm

theorem update_snd_of_notMem {m : Nat} (hm : m ∉ mt.range) : (mt.update f).2 m = f m := by
  rw [update_eq]
  exact writes_of_notMem f ((map_fst_received mt).symm ▸ hm)

end

/-- The locations that the loops of thread `t` access. -/
def usedLocs (mt : MessageTask) (t : Nat) : Set Loc
  | .message _ | .state _ => True
  | .target m | .partitionId m => m ∈ mt.range
  | .shuffledBegin u _ | .shuffledEnd u _ | .shuffledMessage u _ | .shuffledState u _ => u = t

/-- Where `prepare` and `shuffle` store. -/
def shuffleLocs (mt : MessageTask) (t : Nat) : Set Loc
  | .message _ | .state _ | .target _ => False
  | .partitionId m => m ∈ mt.range
  | .shuffledBegin u _ | .shuffledEnd u _ | .shuffledMessage u _ | .shuffledState u _ => u = t

/-- Where `update` stores. -/
def updateLocs (mt : MessageTask) (t : Nat) : Set Loc
  | .target m => m ∈ mt.range
  | .shuffledBegin u _ => u = t
  | _ => False

section
variable {mt : MessageTask} {t : Nat} {mem mem' : Loc → Nat}

/-- A task sees of a memory what it uses. -/
theorem alike_of_used (h : ∀ a ∈ usedLocs mt t, mem' a = mem a) :
    Alike (mt.inMemory t mem) (mt.inMemory t mem') := by
  have hbegin : ∀ p, mem' (.shuffledBegin t p) = mem (.shuffledBegin t p) := fun p => h _ rfl
  have hend : ∀ p, mem' (.shuffledEnd t p) = mem (.shuffledEnd t p) := fun p => h _ rfl
  have hmessage : ∀ i, mem' (.shuffledMessage t i) = mem (.shuffledMessage t i) := fun i => h _ rfl
  have hstate : ∀ i, mem' (.shuffledState t i) = mem (.shuffledState t i) := fun i => h _ rfl
  refine ⟨?_,fun m hm => h (.partitionId m) hm⟩
  simp only [inMemory,hbegin,hend,hmessage,hstate]

end

/-- An instruction that keeps to the locations of a thread, and stores in some of them only. -/
def Inside (mt : MessageTask) (t : Nat) (writes : Set Loc) (i : Instr Loc Nat Registers) : Prop :=
  ∀ r, i.addr r ∈ usedLocs mt t ∧ (i.Stores → i.addr r ∈ writes)

section
variable {mt : MessageTask} {t : Nat} {writes : Set Loc}

theorem Inside.load {addr : Registers → Loc} {keep : Registers → Nat → Registers}
    (h : ∀ r, addr r ∈ usedLocs mt t) : Inside mt t writes (.load addr keep) :=
  fun r => ⟨h r,False.elim⟩

theorem Inside.store {addr : Registers → Loc} {value : Registers → Nat}
    (h : ∀ r, addr r ∈ usedLocs mt t) (hw : ∀ r, addr r ∈ writes) :
    Inside mt t writes (.store addr value) := fun r => ⟨h r,fun _ => hw r⟩

theorem bump_inside (cursor : Nat → Loc) (h : ∀ p, cursor p ∈ usedLocs mt t)
    (hw : ∀ p, cursor p ∈ writes) : ∀ i ∈ bump cursor, Inside mt t writes i := by
  intro i hi
  simp only [bump,List.mem_cons,List.not_mem_nil,or_false] at hi
  rcases hi with rfl | rfl
  · exact .load (fun r => h r.partition)
  · exact .store (fun r => h r.partition) (fun r => hw r.partition)

theorem prepareCode_inside (g : Groups) :
    ∀ i ∈ mt.prepareCode t g, Inside mt t (shuffleLocs mt t) i := by
  intro i hi
  simp only [prepareCode,List.mem_append,List.mem_flatMap,or_assoc] at hi
  rcases hi with ⟨p,_,hi⟩ | ⟨m,hm,hi⟩ | ⟨p,_,hi⟩ | ⟨p,_,hi⟩
  · rw [zeroBody,List.mem_singleton] at hi
    subst hi
    exact .store (fun _ => rfl) (fun _ => rfl)
  · rw [countBody,List.mem_append] at hi
    rcases hi with hi | hi
    · simp only [List.mem_cons,List.not_mem_nil,or_false] at hi
      rcases hi with rfl | rfl
      · exact .load (fun _ => trivial)
      · exact .store (fun _ => hm) (fun _ => hm)
    · exact bump_inside (.shuffledEnd t) (fun _ => rfl) (fun _ => rfl) i hi
  · simp only [placeBody,List.mem_cons,List.not_mem_nil,or_false] at hi
    rcases hi with rfl | rfl
    · exact .store (fun _ => rfl) (fun _ => rfl)
    · exact .load (fun _ => rfl)
  · simp only [resetBody,List.mem_cons,List.not_mem_nil,or_false] at hi
    rcases hi with rfl | rfl
    · exact .load (fun _ => rfl)
    · exact .store (fun _ => rfl) (fun _ => rfl)

theorem shuffleCode_inside (withStates : Bool) :
    ∀ i ∈ mt.shuffleCode t withStates, Inside mt t (shuffleLocs mt t) i := by
  intro i hi
  obtain ⟨m,hm,hi⟩ := List.mem_flatMap.mp hi
  simp only [sendBody,List.mem_append,or_assoc] at hi
  rcases hi with hi | hi | hi | hi
  · rw [List.mem_singleton] at hi
    subst hi
    exact .load (fun _ => hm)
  · exact bump_inside (.shuffledEnd t) (fun _ => rfl) (fun _ => rfl) i hi
  · simp only [List.mem_cons,List.not_mem_nil,or_false] at hi
    rcases hi with rfl | rfl
    · exact .load (fun _ => trivial)
    · exact .store (fun _ => rfl) (fun _ => rfl)
  · split_ifs at hi
    · simp only [List.mem_cons,List.not_mem_nil,or_false] at hi
      rcases hi with rfl | rfl
      · exact .load (fun _ => trivial)
      · exact .store (fun _ => rfl) (fun _ => rfl)
    · cases hi

theorem updateCode_inside : ∀ i ∈ mt.updateCode t, Inside mt t (updateLocs mt t) i := by
  intro i hi
  obtain ⟨m,hm,hi⟩ := List.mem_flatMap.mp hi
  simp only [backBody,List.mem_append,or_assoc] at hi
  rcases hi with hi | hi | hi
  · rw [List.mem_singleton] at hi
    subst hi
    exact .load (fun _ => hm)
  · exact bump_inside (.shuffledBegin t) (fun _ => rfl) (fun _ => rfl) i hi
  · simp only [List.mem_cons,List.not_mem_nil,or_false] at hi
    rcases hi with rfl | rfl
    · exact .load (fun _ => rfl)
    · exact .store (fun _ => hm) (fun _ => hm)

end

section
variable {cfg : MultiThreadConfig} {n : Nat} {tasks : Tasks} (h : Ranged cfg n tasks)
include h

/-- The ranges keep the threads apart while they shuffle. -/
theorem shuffle_regions (g : Groups) (withStates : Bool) :
    Regions (fun t : Fin cfg.threadNum =>
        (tasks t).prepareCode t g ++ (tasks t).shuffleCode t withStates)
      (fun t => usedLocs (tasks t) t) (fun t => shuffleLocs (tasks t) t) := by
  have hinside : ∀ t : Fin cfg.threadNum, ∀ i ∈
      (tasks t).prepareCode t g ++ (tasks t).shuffleCode t withStates,
      Inside (tasks t) t (shuffleLocs (tasks t) t) i := by
    intro t i hi
    rcases List.mem_append.mp hi with hi | hi
    · exact prepareCode_inside g i hi
    · exact shuffleCode_inside withStates i hi
  refine ⟨fun t i hi r => (hinside t i hi r).1,fun t i hi hs r => (hinside t i hi r).2 hs,
    fun t u hne => Set.disjoint_left.mpr (fun a ha hu => ?_)⟩
  cases a with
  | message | state | target => exact ha
  | partitionId m => exact hne (Fin.ext (h.task_unique t.isLt u.isLt ha hu))
  | _ => exact hne (Fin.ext (ha.symm.trans hu))

/-- And while they update. -/
theorem update_regions : Regions (fun t : Fin cfg.threadNum => (tasks t).updateCode t)
    (fun t => usedLocs (tasks t) t) (fun t => updateLocs (tasks t) t) := by
  refine ⟨fun t i hi r => (updateCode_inside i hi r).1,
    fun t i hi hs r => (updateCode_inside i hi r).2 hs,
    fun t u hne => Set.disjoint_left.mpr (fun a ha hu => ?_)⟩
  cases a with
  | target m => exact hne (Fin.ext (h.task_unique t.isLt u.isLt ha hu))
  | shuffledBegin => exact hne (Fin.ext (ha.symm.trans hu))
  | _ => exact ha

variable {g : Groups} {withStates : Bool} {mem : Loc → Nat}
  {tr : List (Fin cfg.threadNum)} {st : Lib.Threads.State (Fin cfg.threadNum) Loc Nat Registers}

/-- The threads that shuffle leave what their tasks leave, and the walkers as they were. -/
theorem shuffle_results (hr : Run Step ⟨fun _ => .zero,fun t : Fin cfg.threadNum =>
      (tasks t).prepareCode t g ++ (tasks t).shuffleCode t withStates,mem⟩ tr st)
    (hdone : ∀ t, st.rest t = []) :
    (∀ t : Fin cfg.threadNum, Alike
      ((((tasks t).inMemory t mem).prepare g (fun m => mem (.message m))).shuffle
        (fun m => mem (.message m)) (if withStates then some (fun m => mem (.state m)) else none))
      ((tasks t).inMemory t st.mem)) ∧
    ∀ m, st.mem (.message m) = mem (.message m) ∧ st.mem (.state m) = mem (.state m) ∧
      st.mem (.target m) = mem (.target m) := by
  obtain ⟨hused,hframe⟩ := run_results (shuffle_regions h g withStates) hr hdone
  refine ⟨fun t => ?_,fun m => ⟨hframe _ (fun _ => id),hframe _ (fun _ => id),hframe _ (fun _ => id)⟩⟩
  rw [← (shuffle_alone (tasks t) t mem g withStates).task]
  exact alike_of_used (hused t)

/-- The threads that update leave what their tasks leave, each in its part of the target. -/
theorem update_results (hr : Run Step ⟨fun _ => .zero,fun t : Fin cfg.threadNum =>
      (tasks t).updateCode t,mem⟩ tr st) (hdone : ∀ t, st.rest t = []) :
    (∀ t : Fin cfg.threadNum,
      Alike (((tasks t).inMemory t mem).update (fun m => mem (.target m))).1
        ((tasks t).inMemory t st.mem) ∧
      ∀ m ∈ (tasks t).range, st.mem (.target m) =
        (((tasks t).inMemory t mem).update (fun m => mem (.target m))).2 m) ∧
    (∀ m, n ≤ m → st.mem (.target m) = mem (.target m)) ∧
    ∀ m, st.mem (.message m) = mem (.message m) ∧ st.mem (.state m) = mem (.state m) := by
  obtain ⟨hused,hframe⟩ := run_results (update_regions h) hr hdone
  refine ⟨fun t => ?_,fun m hm => hframe _ (fun t ht => ?_),
    fun m => ⟨hframe _ (fun _ => id),hframe _ (fun _ => id)⟩⟩
  · obtain ⟨hsees,htargets⟩ := update_alone (tasks t) t mem
    refine ⟨?_,fun m hm => ?_⟩
    · rw [← hsees.task]
      exact alike_of_used (hused t)
    · rw [hused t (.target m) hm]
      exact congrFun htargets m
  · exact Nat.not_lt.mpr hm (h.mem_lt t.isLt ht)

end

end FlashMob.Message
