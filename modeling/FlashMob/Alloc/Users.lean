import FlashMob.Alloc.Counter

namespace FlashMob.Alloc
open FlashMob.Graph FlashMob.Sampling FlashMob.Solver Lib.Rounding

def sizeofPointer : Nat := 8
def sizeofWalkerId : Nat := 4
/-- A pointer, four numbers of 32 bits and five more pointers. -/
def sizeofMessageTask : Nat := 64

/-- `al_alloc` and `al_alloc_new` with the segment that they return. -/
def Memory.alAllocNew (size blockLength : Nat) (m : Memory) : Option (Memory × Segment) :=
  (m.alAlloc size blockLength).map (fun m' => (m',m.segment m' size blockLength))

/-- What `MessageManager::init` reads for a socket. -/
structure MessageInit where
  socketThreads : Nat
  partitionNum : Nat
  isNode2vec : Bool
  threadWalkerBegin : Nat → Nat
  threadWalkerEnd : Nat → Nat

/-- The arrays of a `MessageTask`, and where the task itself is. -/
structure TaskArrays where
  task : Segment
  shuffledMessageBegin : Segment
  shuffledMessageEnd : Segment
  shuffledMessages : Segment
  shuffledStates : Option Segment

def TaskArrays.segments (arrays : TaskArrays) : List Segment :=
  arrays.task :: arrays.shuffledMessageBegin :: arrays.shuffledMessageEnd ::
    arrays.shuffledMessages :: arrays.shuffledStates.toList

namespace MessageInit

def countTask (a : MessageInit) (mc : MemoryCounter) (t : Nat) : MemoryCounter :=
  let mc := mc.alAlloc sizeofMessageTask 1
  let mc := mc.alAlloc sizeofWalkerId a.partitionNum
  let mc := mc.alAlloc sizeofWalkerId a.partitionNum
  let originMessageBegin := a.threadWalkerBegin t
  let originMessageEnd := a.threadWalkerEnd t
  let mc := mc.alAlloc sizeofVertexId (u32Sub originMessageEnd originMessageBegin)
  let mc := if a.isNode2vec then
    mc.alAlloc sizeofVertexId (u32Sub originMessageEnd originMessageBegin) else mc
  mc.align

/-- The counter that a socket's memory is made from. -/
def counter (a : MessageInit) : MemoryCounter :=
  (List.range a.socketThreads).foldl a.countTask
    (MemoryCounter.new.alAlloc sizeofPointer a.socketThreads)

def allocTask (a : MessageInit) (t : Nat) (m : Memory) : Option (Memory × TaskArrays) := do
  let (m,task) ← m.alAllocNew sizeofMessageTask 1
  let originMessageBegin := a.threadWalkerBegin t
  let originMessageEnd := a.threadWalkerEnd t
  let (m,shuffledMessageBegin) ← m.alAllocNew sizeofWalkerId a.partitionNum
  let (m,shuffledMessageEnd) ← m.alAllocNew sizeofWalkerId a.partitionNum
  let (m,shuffledMessages) ←
    m.alAllocNew sizeofVertexId (u32Sub originMessageEnd originMessageBegin)
  let (m,shuffledStates) ← if a.isNode2vec then
      (m.alAllocNew sizeofVertexId (u32Sub originMessageEnd originMessageBegin)).map
        (fun r => (r.1,some r.2))
    else some (m,none)
  let m ← m.align
  some (m,⟨task,shuffledMessageBegin,shuffledMessageEnd,shuffledMessages,shuffledStates⟩)

def allocTasks (a : MessageInit) : List Nat → Memory → Option (Memory × List TaskArrays)
  | [], m => some (m,[])
  | t :: ts, m => do
    let (m,arrays) ← a.allocTask t m
    let (m,rest) ← a.allocTasks ts m
    some (m,arrays :: rest)

/-- The array `mtasks[s_i]` and the arrays of the tasks. -/
def alloc (a : MessageInit) (m : Memory) : Option (Memory × Segment × List TaskArrays) := do
  let (m,mtasks) ← m.alAllocNew sizeofPointer a.socketThreads
  let (m,tasks) ← a.allocTasks (List.range a.socketThreads) m
  some (m,mtasks,tasks)

/-- The requests that both passes make for a thread. -/
def taskRequests (a : MessageInit) (t : Nat) : List Request :=
  let messageNum := u32Sub (a.threadWalkerEnd t) (a.threadWalkerBegin t)
  [.alAlloc sizeofMessageTask 1,.alAlloc sizeofWalkerId a.partitionNum,
    .alAlloc sizeofWalkerId a.partitionNum,.alAlloc sizeofVertexId messageNum] ++
  (if a.isNode2vec then [.alAlloc sizeofVertexId messageNum] else []) ++ [.align]

def requests (a : MessageInit) : List Request :=
  .alAlloc sizeofPointer a.socketThreads :: (List.range a.socketThreads).flatMap a.taskRequests

end MessageInit

/-- `ExclusiveBufferSampler::init` as a user of memory. -/
def bufferCounter (s : ExclusiveBufferSampler) : MemoryCounter :=
  let mcounter := MemoryCounter.new.alAlloc sizeofEdgeBufferHeader (u32Sub s.vertexEnd s.vertexBegin)
  let mcounter := mcounter.alAlloc sizeofVertexId (u64 s.bufferUnitNum)
  mcounter.align

def bufferAlloc (s : ExclusiveBufferSampler) (m : Memory) :
    Option (Memory × Segment × Segment) := do
  let (m,headers) ← m.alAllocNew sizeofEdgeBufferHeader (u32Sub s.vertexEnd s.vertexBegin)
  let (m,units) ← m.alAllocNew sizeofVertexId (u64 s.bufferUnitNum)
  let m ← m.align
  some (m,headers,units)

def bufferRequests (s : ExclusiveBufferSampler) : List Request :=
  [.alAlloc sizeofEdgeBufferHeader (u32Sub s.vertexEnd s.vertexBegin),
    .alAlloc sizeofVertexId (u64 s.bufferUnitNum),.align]

theorem Memory.serve_append (m : Memory) (rs rs' : List Request) :
    m.serve (rs ++ rs') = (m.serve rs).bind (fun first =>
      (first.1.serve rs').map (fun rest => (rest.1,first.2 ++ rest.2))) := by
  induction rs generalizing m with
  | nil =>
    rw [List.nil_append,Memory.serve,Option.bind_some]
    exact Option.map_id'.symm
  | cons r rs ih =>
    rw [List.cons_append,Memory.serve,Memory.serve]
    cases h : m.ask r with
    | none => rfl
    | some first =>
      rw [Option.bind_some,Option.bind_some,ih]
      cases h' : first.1.serve rs with
      | none => rfl
      | some second =>
        simp only [Option.bind_some,Option.map_some,Option.map_map]
        congr 1
        funext rest
        simp only [Function.comp_apply,List.append_assoc]

/-- An array asked for alone. -/
theorem Memory.ask_alAlloc (m : Memory) (size blockLength : Nat) :
    m.ask (.alAlloc size blockLength) =
      (m.alAllocNew size blockLength).map (fun r => (r.1,[r.2])) := by
  rw [Memory.alAllocNew,Option.map_map]
  rfl

theorem Memory.serve_alAlloc (m : Memory) (size blockLength : Nat) (rs : List Request) :
    m.serve (.alAlloc size blockLength :: rs) = (m.alAllocNew size blockLength).bind (fun r =>
      (r.1.serve rs).map (fun rest => (rest.1,r.2 :: rest.2))) := by
  rw [Memory.serve,Memory.ask_alAlloc,Option.bind_map]
  rfl

theorem Memory.serve_align (m : Memory) : m.serve [.align] = m.align.map (fun m' => (m',[])) := by
  rw [Memory.serve,Memory.ask,Option.bind_map]
  cases m.align <;> rfl

namespace MessageInit
variable (a : MessageInit)

theorem countTask_eq (mc : MemoryCounter) (t : Nat) :
    a.countTask mc t = (a.taskRequests t).foldl MemoryCounter.receive mc := by
  cases h : a.isNode2vec <;> simp only [countTask,taskRequests,h] <;> rfl

theorem counter_eq : a.counter = count a.requests := by
  rw [count,requests,List.foldl_cons,List.foldl_flatMap,counter]
  congr 1
  funext mc t
  exact a.countTask_eq mc t

theorem serve_taskRequests (t : Nat) (m : Memory) : m.serve (a.taskRequests t) =
    (a.allocTask t m).map (fun r => (r.1,r.2.segments)) := by
  cases h : a.isNode2vec
  · simp only [taskRequests,allocTask,h,List.cons_append,List.nil_append,Bool.false_eq_true,if_false,
      Memory.serve_alAlloc,Memory.serve_align,Option.map_eq_bind,Option.bind_eq_bind,
      Option.bind_assoc,Option.bind_some,Function.comp_apply]
    rfl
  · simp only [taskRequests,allocTask,h,List.cons_append,List.nil_append,if_true,
      Memory.serve_alAlloc,Memory.serve_align,Option.map_eq_bind,Option.bind_eq_bind,
      Option.bind_assoc,Option.bind_some,Function.comp_apply]
    rfl

theorem serve_tasksRequests (ts : List Nat) (m : Memory) : m.serve (ts.flatMap a.taskRequests) =
    (a.allocTasks ts m).map (fun r => (r.1,r.2.flatMap TaskArrays.segments)) := by
  induction ts generalizing m with
  | nil => rfl
  | cons t ts ih =>
    simp only [List.flatMap_cons,Memory.serve_append,serve_taskRequests,ih,allocTasks,
      Option.map_eq_bind,Option.bind_eq_bind,Option.bind_assoc,Option.bind_some,
      Function.comp_apply]

/-- The arrays come from serving the requests. -/
theorem serve_requests (m : Memory) : m.serve a.requests =
    (a.alloc m).map (fun r => (r.1,r.2.1 :: r.2.2.flatMap TaskArrays.segments)) := by
  simp only [requests,Memory.serve_alAlloc,serve_tasksRequests,alloc,Option.map_eq_bind,
    Option.bind_eq_bind,Option.bind_assoc,Option.bind_some,Function.comp_apply]

theorem requests_ne (size len : Nat) : ∀ r ∈ a.requests, r ≠ .naAlloc size len := by
  intro r hr
  rcases List.mem_cons.mp hr with rfl | hr
  · exact Request.noConfusion
  · obtain ⟨t,_,hr⟩ := List.mem_flatMap.mp hr
    rintro rfl
    cases h : a.isNode2vec <;> simp [taskRequests,h] at hr

/-- The messages of a thread. -/
def messageNum (t : Nat) : Nat := u32Sub (a.threadWalkerEnd t) (a.threadWalkerBegin t)

theorem sum_taskRequests (t : Nat) :
    ((a.taskRequests t).map (fun r => r.bytes + memoryDataAlignment)).sum ≤
      8 * a.messageNum t + (8 * a.partitionNum + 448) := by
  have hline : memoryDataAlignment = 64 := rfl
  have htask : sizeofMessageTask = 64 := rfl
  have hwalker : sizeofWalkerId = 4 := rfl
  have hvertex : sizeofVertexId = 4 := rfl
  obtain ⟨n,hn⟩ : ∃ n, u32Sub (a.threadWalkerEnd t) (a.threadWalkerBegin t) = n := ⟨_,rfl⟩
  have hnum : a.messageNum t = n := hn
  rw [hnum]
  cases h : a.isNode2vec
  · simp only [taskRequests,hn,h,Request.bytes,hline,htask,hwalker,hvertex,Bool.false_eq_true,
      if_false,List.append_nil,List.cons_append,List.nil_append,List.map_cons,List.map_nil,
      List.sum_cons,List.sum_nil]
    omega
  · simp only [taskRequests,hn,h,Request.bytes,hline,htask,hwalker,hvertex,if_true,
      List.cons_append,List.nil_append,List.map_cons,List.map_nil,List.sum_cons,List.sum_nil]
    omega

theorem sum_tasksRequests (ts : List Nat) :
    ((ts.flatMap a.taskRequests).map (fun r => r.bytes + memoryDataAlignment)).sum ≤
      8 * (ts.map a.messageNum).sum + ts.length * (8 * a.partitionNum + 448) := by
  induction ts with
  | nil => exact Nat.zero_le _
  | cons t ts ih =>
    have hfirst := a.sum_taskRequests t
    rw [List.flatMap_cons,List.map_append,List.sum_append,List.map_cons,List.sum_cons,
      List.length_cons,Nat.add_mul]
    omega

/-- The arrays of at most 2^16 partitions and fewer than 2^32 walkers can be counted. -/
theorem exactSize_lt (hthreads : a.socketThreads < 2 ^ 31) (hpartitions : a.partitionNum ≤ 2 ^ 16)
    (hwalkers : ((List.range a.socketThreads).map a.messageNum).sum < 2 ^ 32) :
    exactSize a.requests < 2 ^ 64 := by
  have hall : exactSize a.requests ≤
      0 + (a.requests.map (fun r => r.bytes + memoryDataAlignment)).sum := foldl_exact_le 0 a.requests
  have htasks := a.sum_tasksRequests (List.range a.socketThreads)
  have hproduct : a.socketThreads * (8 * a.partitionNum + 448) ≤
      2 ^ 31 * (8 * 2 ^ 16 + 448) :=
    Nat.mul_le_mul (Nat.le_of_lt hthreads) (by omega)
  have hpointers : (Request.alAlloc sizeofPointer a.socketThreads).bytes + memoryDataAlignment =
      8 * a.socketThreads + 64 := rfl
  rw [List.length_range] at htasks
  rw [requests,List.map_cons,List.sum_cons,hpointers,← requests] at hall
  omega

end MessageInit

theorem bufferCounter_eq (s : ExclusiveBufferSampler) :
    bufferCounter s = count (bufferRequests s) := rfl

theorem serve_bufferRequests (s : ExclusiveBufferSampler) (m : Memory) :
    m.serve (bufferRequests s) = (bufferAlloc s m).map (fun r => (r.1,[r.2.1,r.2.2])) := by
  simp only [bufferRequests,bufferAlloc,Memory.serve_alAlloc,Memory.serve_align,
    Option.map_eq_bind,Option.bind_eq_bind,Option.bind_assoc,Option.bind_some,Function.comp_apply]

/-- Counting and allocating agree on the sequences whose rounded sizes add up to less than 2^64.
The message arrays and the sampler's buffers are counted and asked for by one sequence each, and
that of the message arrays adds up to less for all sizes that the program has. -/
theorem counting_and_allocating_agree_iff (available : Nat → Bool) :
    (∀ rs, (count rs).aligned = true →
      ((count rs).dataSize ≠ 0 → available (count rs).dataSize = true) →
      (Agrees available rs ↔ exactSize rs < 2 ^ 64)) ∧
    (∀ a : MessageInit, a.counter = count a.requests ∧ a.counter.aligned = true ∧
      (∀ m : Memory, m.serve a.requests =
        (a.alloc m).map (fun r => (r.1,r.2.1 :: r.2.2.flatMap TaskArrays.segments))) ∧
      (a.socketThreads < 2 ^ 31 → a.partitionNum ≤ 2 ^ 16 →
        ((List.range a.socketThreads).map a.messageNum).sum < 2 ^ 32 →
        exactSize a.requests < 2 ^ 64)) ∧
    ∀ s : ExclusiveBufferSampler, bufferCounter s = count (bufferRequests s) ∧
      (bufferCounter s).aligned = true ∧
      ∀ m : Memory, m.serve (bufferRequests s) =
        (bufferAlloc s m).map (fun r => (r.1,[r.2.1,r.2.2])) := by
  refine ⟨fun rs haligned havailable => agrees_iff haligned havailable,fun a => ?_,fun s => ?_⟩
  · refine ⟨a.counter_eq,?_,a.serve_requests,a.exactSize_lt⟩
    rw [a.counter_eq]
    exact count_aligned (fun r hr size len => a.requests_ne size len r hr)
  · exact ⟨bufferCounter_eq s,rfl,serve_bufferRequests s⟩

/-- An array of ten walkers' ids, and one that does not fill its last line; and the message arrays
of a thread with eight walkers and two partitions. -/
theorem counting_and_allocating_agree_two :
    Agrees (fun n => n = 128) [.alAlloc 4 10,.naAlloc 4 5,.align] ∧
    exactSize (MessageInit.requests ⟨1,2,true,fun _ => 0,fun _ => 8⟩) < 2 ^ 64 := by
  obtain ⟨hagrees,hmessages,-⟩ := counting_and_allocating_agree_iff (fun n => n = 128)
  obtain ⟨-,-,-,hsize⟩ := hmessages ⟨1,2,true,fun _ => 0,fun _ => 8⟩
  exact ⟨(hagrees _ rfl (fun _ => rfl)).mpr (by decide),hsize (by decide) (by decide) (by decide)⟩

/-- Pointers for 2^61 items need 2^64 bytes, which are counted as none. -/
theorem counting_and_allocating_disagree :
    (count [.alAlloc 8 (2 ^ 61)]).aligned = true ∧ ¬Agrees (fun _ => true) [.alAlloc 8 (2 ^ 61)] :=
  ⟨rfl,fun h => absurd ((agrees_iff rfl (fun _ => rfl)).mp h) (by decide)⟩

end FlashMob.Alloc
