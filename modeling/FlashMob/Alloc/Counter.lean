import FlashMob.Solver.Memory

namespace FlashMob.Alloc
open FlashMob.Solver Lib.Rounding

/-- What a counter or a memory is asked for: room for `block_length` items of a size, with or
without rounding up behind it, or rounding up alone. -/
inductive Request
  | naAlloc (size blockLength : Nat)
  | alAlloc (size blockLength : Nat)
  | align
  deriving DecidableEq, Repr

structure MemoryCounter where
  dataSize : Nat
  aligned : Bool
  deriving DecidableEq, Repr

namespace MemoryCounter

def new : MemoryCounter := ⟨0,true⟩

def naAlloc (size blockLength : Nat) (c : MemoryCounter) : MemoryCounter :=
  ⟨u64 (c.dataSize + u64 (size * blockLength)),false⟩

def align (c : MemoryCounter) : MemoryCounter := ⟨getAlignedSize c.dataSize,true⟩

def alAlloc (size blockLength : Nat) (c : MemoryCounter) : MemoryCounter :=
  (c.naAlloc size blockLength).align

def receive (c : MemoryCounter) : Request → MemoryCounter
  | .naAlloc size blockLength => c.naAlloc size blockLength
  | .alAlloc size blockLength => c.alAlloc size blockLength
  | .align => c.align

end MemoryCounter

/-- The counter that has received a sequence of requests. -/
def count (rs : List Request) : MemoryCounter := rs.foldl MemoryCounter.receive .new

/-- A segment that a memory returns: from an offset in the block to where the counter stands
afterwards, with the bytes asked for and whether the counter was aligned before. -/
structure Segment where
  start : Nat
  stop : Nat
  requested : Nat
  fromAligned : Bool
  deriving DecidableEq, Repr

/-- A `Memory`; `hasData` says that `data` is not null. -/
structure Memory where
  hasData : Bool
  dataSize : Nat
  mcounter : MemoryCounter
  deriving DecidableEq, Repr

namespace Memory

/-- The constructor, with its checks. The system has memory of the sizes in `available`. -/
def create (available : Nat → Bool) (preCounter : MemoryCounter) : Option Memory :=
  if preCounter.aligned then
    if preCounter.dataSize ≠ 0 then
      if available preCounter.dataSize then some ⟨true,preCounter.dataSize,.new⟩ else none
    else some ⟨false,preCounter.dataSize,.new⟩
  else none

/-- The `CHECK` behind every move of the counter. -/
def moveTo (m : Memory) (c : MemoryCounter) : Option Memory :=
  if c.dataSize ≤ m.dataSize then some { m with mcounter := c } else none

def naAlloc (size blockLength : Nat) (m : Memory) : Option Memory :=
  m.moveTo (m.mcounter.naAlloc size blockLength)

def align (m : Memory) : Option Memory := m.moveTo m.mcounter.align

/-- `al_alloc` aligns after `na_alloc`, with a check of its own. -/
def alAlloc (size blockLength : Nat) (m : Memory) : Option Memory :=
  (m.naAlloc size blockLength).bind align

/-- The segment between two positions of the counter. -/
def segment (m m' : Memory) (size blockLength : Nat) : Segment :=
  ⟨m.mcounter.dataSize,m'.mcounter.dataSize,size * blockLength,m.mcounter.aligned⟩

def ask (m : Memory) : Request → Option (Memory × List Segment)
  | .naAlloc size blockLength =>
    (m.naAlloc size blockLength).map (fun m' => (m',[m.segment m' size blockLength]))
  | .alAlloc size blockLength =>
    (m.alAlloc size blockLength).map (fun m' => (m',[m.segment m' size blockLength]))
  | .align => m.align.map (fun m' => (m',[]))

/-- Requests one after the other, with the segments they return. -/
def serve (m : Memory) : List Request → Option (Memory × List Segment)
  | [] => some (m,[])
  | r :: rs =>
    (m.ask r).bind (fun first =>
      (first.1.serve rs).map (fun rest => (rest.1,first.2 ++ rest.2)))

/-- The check of the destructor. -/
def destroyed (m : Memory) : Bool := !m.hasData || m.mcounter.dataSize == m.dataSize

end Memory

/-- How segments should lie in a block. -/
structure Placed (dataSize : Nat) (segments : List Segment) : Prop where
  disjoint : segments.Pairwise (fun a b => a.stop ≤ b.start)
  inside : ∀ s ∈ segments, s.stop ≤ dataSize
  long : ∀ s ∈ segments, s.start + s.requested ≤ s.stop
  aligned : ∀ s ∈ segments, s.fromAligned = true → memoryDataAlignment ∣ s.start

/-- A memory made from the counter of a sequence serves the sequence, with all checks passed. -/
def Agrees (available : Nat → Bool) (rs : List Request) : Prop :=
  ∃ m m' segments, Memory.create available (count rs) = some m ∧
    m.serve rs = some (m',segments) ∧ m'.destroyed = true ∧ Placed m.dataSize segments

/-- The bytes up to the end of a request that begins behind `n` bytes, as numbers without limit. -/
def Request.exact (n : Nat) : Request → Nat
  | .naAlloc size blockLength => n + size * blockLength
  | .alAlloc size blockLength => roundUp memoryDataAlignment (n + size * blockLength)
  | .align => roundUp memoryDataAlignment n

def exactSize (rs : List Request) : Nat := rs.foldl Request.exact 0

section
variable {n : Nat} {r : Request} {rs : List Request}

/-- Rounding up and wrapping commute, since lines divide the range of sizes. -/
theorem getAlignedSize_u64 (n : Nat) :
    getAlignedSize (u64 n) = u64 (roundUp memoryDataAlignment n) := by
  have halign : memoryDataAlignment = 64 := rfl
  rw [getAlignedSize,roundUp,Nat.ceilDiv_eq_add_pred_div,halign]
  rcases Nat.eq_zero_or_pos (u64 n % 64) with h | h
  · rw [if_neg (by omega)]
    simp only [u64] at h ⊢
    omega
  · rw [if_pos (by omega)]
    simp only [u64] at h ⊢
    omega

theorem Request.le_exact (n : Nat) (r : Request) : n ≤ r.exact n := by
  cases r with
  | naAlloc size blockLength => exact Nat.le_add_right _ _
  | alAlloc size blockLength =>
    exact Nat.le_trans (Nat.le_add_right _ _) (le_roundUp (by decide) _)
  | align => exact le_roundUp (by decide) _

/-- What a request is for, without rounding. -/
def Request.bytes : Request → Nat
  | .naAlloc size blockLength | .alAlloc size blockLength => size * blockLength
  | .align => 0

theorem Request.exact_lt (n : Nat) (r : Request) :
    r.exact n < n + (r.bytes + memoryDataAlignment) := by
  have hround := fun m => roundUp_lt (show 0 < memoryDataAlignment by decide) m
  have hline : 0 < memoryDataAlignment := by decide
  cases r with
  | naAlloc size blockLength =>
    change n + size * blockLength < n + (size * blockLength + memoryDataAlignment)
    omega
  | alAlloc size blockLength =>
    have := hround (n + size * blockLength)
    rwa [Nat.add_assoc] at this
  | align =>
    have := hround n
    change _ < n + (0 + memoryDataAlignment)
    rwa [Nat.zero_add]

theorem foldl_exact_le (n : Nat) (rs : List Request) : rs.foldl Request.exact n ≤
    n + (rs.map (fun r => r.bytes + memoryDataAlignment)).sum := by
  induction rs generalizing n with
  | nil => exact Nat.le_refl n
  | cons r rs ih =>
    have hfirst := r.exact_lt n
    have hrest := ih (r.exact n)
    rw [List.foldl_cons,List.map_cons,List.sum_cons]
    omega

theorem le_foldl_exact (n : Nat) (rs : List Request) : n ≤ rs.foldl Request.exact n := by
  induction rs generalizing n with
  | nil => exact Nat.le_refl n
  | cons r rs ih => exact Nat.le_trans (r.le_exact n) (ih _)

/-- The counter is the exact one, wrapped. -/
theorem receive_dataSize {c : MemoryCounter} (h : c.dataSize = u64 n) (r : Request) :
    (c.receive r).dataSize = u64 (r.exact n) := by
  have hna : ∀ size blockLength, u64 (u64 n + u64 (size * blockLength)) =
      u64 (n + size * blockLength) := by
    intro size blockLength
    simp only [u64]
    omega
  cases r with
  | naAlloc size blockLength =>
    change u64 (c.dataSize + u64 (size * blockLength)) = _
    rw [h,hna]
    rfl
  | alAlloc size blockLength =>
    change getAlignedSize (u64 (c.dataSize + u64 (size * blockLength))) = _
    rw [h,hna,getAlignedSize_u64]
    rfl
  | align =>
    change getAlignedSize c.dataSize = _
    rw [h,getAlignedSize_u64]
    rfl

theorem count_dataSize (rs : List Request) : (count rs).dataSize = u64 (exactSize rs) := by
  have h : ∀ (c : MemoryCounter) n, c.dataSize = u64 n →
      (rs.foldl MemoryCounter.receive c).dataSize = u64 (rs.foldl Request.exact n) := by
    induction rs with
    | nil => exact fun c n h => h
    | cons r rs ih => exact fun c n h => ih _ _ (receive_dataSize h r)
  exact h .new 0 rfl

theorem receive_exact {c : MemoryCounter} (h : r.exact c.dataSize < 2 ^ 64) :
    (c.receive r).dataSize = r.exact c.dataSize := by
  have hc := r.le_exact c.dataSize
  rw [receive_dataSize (u64_of_lt (Nat.lt_of_le_of_lt hc h)).symm,u64_of_lt h]

theorem dvd_getAlignedSize (size : Nat) : memoryDataAlignment ∣ getAlignedSize size := by
  have halign : memoryDataAlignment = 64 := rfl
  rw [getAlignedSize,halign]
  split_ifs with h
  · simp only [u64]
    omega
  · omega

/-- An aligned counter stands at a multiple. -/
def MemoryCounter.Sound (c : MemoryCounter) : Prop :=
  c.aligned = true → memoryDataAlignment ∣ c.dataSize

theorem MemoryCounter.Sound.receive {c : MemoryCounter} (r : Request) : (c.receive r).Sound := by
  cases r with
  | naAlloc size blockLength => exact fun h => absurd h Bool.false_ne_true
  | alAlloc size blockLength => exact fun _ => dvd_getAlignedSize _
  | align => exact fun _ => dvd_getAlignedSize _

/-- A sequence without `na_alloc` ends aligned. -/
theorem count_aligned {rs : List Request} (h : ∀ r ∈ rs, ∀ size len, r ≠ .naAlloc size len) :
    (count rs).aligned = true := by
  induction rs using List.reverseRecOn with
  | nil => rfl
  | append_singleton rs r ih =>
    rw [count,List.foldl_append]
    cases r with
    | naAlloc size len => exact absurd rfl (h _ (by simp) size len)
    | alAlloc size len => rfl
    | align => rfl

theorem count_sound (rs : List Request) : (count rs).Sound := by
  induction rs using List.reverseRecOn with
  | nil => exact fun _ => Nat.dvd_zero _
  | append_singleton rs r ih =>
    rw [count,List.foldl_append]
    exact .receive r

namespace Memory
variable {m m' : Memory} {segments : List Segment}

theorem moveTo_eq_some {c : MemoryCounter} :
    m.moveTo c = some m' ↔ c.dataSize ≤ m.dataSize ∧ m' = { m with mcounter := c } := by
  rw [moveTo]
  split_ifs with h
  · rw [Option.some.injEq,eq_comm,and_iff_right h]
  · constructor
    · intro h'
      cases h'
    · exact fun h' => absurd h'.1 h

/-- A request that fits is served behind what was served before. -/
theorem ask_fits (hsize : m.dataSize < 2 ^ 64) (hs : m.mcounter.Sound)
    (h : r.exact m.mcounter.dataSize ≤ m.dataSize) :
    ∃ segments, m.ask r = some ({ m with mcounter := m.mcounter.receive r },segments) ∧
      segments.Pairwise (fun a b => a.stop ≤ b.start) ∧ ∀ s ∈ segments, s.start = m.mcounter.dataSize ∧
        s.stop = r.exact m.mcounter.dataSize ∧ s.start + s.requested ≤ s.stop ∧
        (s.fromAligned = true → memoryDataAlignment ∣ s.start) := by
  have hreceive : (m.mcounter.receive r).dataSize = r.exact m.mcounter.dataSize :=
    receive_exact (Nat.lt_of_le_of_lt h hsize)
  have hmove : m.moveTo (m.mcounter.receive r) =
      some { m with mcounter := m.mcounter.receive r } :=
    moveTo_eq_some.mpr ⟨hreceive ▸ h,rfl⟩
  cases r with
  | naAlloc size blockLength =>
    refine ⟨_,congrArg (Option.map _) hmove,List.pairwise_singleton _ _,fun s hm => ?_⟩
    rw [List.mem_singleton.mp hm]
    exact ⟨rfl,hreceive,Nat.le_of_eq hreceive.symm,hs⟩
  | alAlloc size blockLength =>
    have hround := le_roundUp (show 0 < memoryDataAlignment by decide)
      (m.mcounter.dataSize + size * blockLength)
    have hfirst : (Request.naAlloc size blockLength).exact m.mcounter.dataSize ≤ m.dataSize :=
      Nat.le_trans hround h
    have hna : m.naAlloc size blockLength =
        some { m with mcounter := m.mcounter.naAlloc size blockLength } :=
      moveTo_eq_some.mpr ⟨(receive_exact (Nat.lt_of_le_of_lt hfirst hsize)).trans_le hfirst,rfl⟩
    have hal : m.alAlloc size blockLength =
        some { m with mcounter := m.mcounter.alAlloc size blockLength } := by
      rw [alAlloc,hna]
      exact hmove
    refine ⟨_,congrArg (Option.map _) hal,List.pairwise_singleton _ _,fun s hm => ?_⟩
    rw [List.mem_singleton.mp hm]
    exact ⟨rfl,hreceive,Nat.le_trans hround (Nat.le_of_eq hreceive.symm),hs⟩
  | align => exact ⟨_,congrArg (Option.map _) hmove,List.Pairwise.nil,fun s hm => by cases hm⟩

/-- Requests that fit together are all served, one behind the other. -/
theorem serve_fits (hsize : m.dataSize < 2 ^ 64) (hs : m.mcounter.Sound)
    (h : rs.foldl Request.exact m.mcounter.dataSize ≤ m.dataSize) :
    ∃ c segments, m.serve rs = some ({ m with mcounter := c },segments) ∧
      c.dataSize = rs.foldl Request.exact m.mcounter.dataSize ∧ Placed m.dataSize segments ∧
      ∀ s ∈ segments, m.mcounter.dataSize ≤ s.start := by
  induction rs generalizing m with
  | nil =>
    refine ⟨m.mcounter,[],rfl,rfl,⟨.nil,?_,?_,?_⟩,?_⟩ <;> exact fun s hm => by cases hm
  | cons r rs ih =>
    have hfirst : r.exact m.mcounter.dataSize ≤ m.dataSize :=
      Nat.le_trans (le_foldl_exact _ rs) h
    obtain ⟨first,hask,hapart,hspec⟩ := ask_fits hsize hs hfirst
    have hreceive : (m.mcounter.receive r).dataSize = r.exact m.mcounter.dataSize :=
      receive_exact (Nat.lt_of_le_of_lt hfirst hsize)
    obtain ⟨c,rest,hserve,hc,hplaced,hbehind⟩ :=
      ih (m := { m with mcounter := m.mcounter.receive r }) hsize (.receive r)
        (by rw [hreceive]; exact h)
    have hbehind' : ∀ s ∈ rest, r.exact m.mcounter.dataSize ≤ s.start := fun s hm =>
      hreceive ▸ hbehind s hm
    refine ⟨c,first ++ rest,?_,?_,⟨?_,?_,?_,?_⟩,?_⟩
    · rw [serve,hask,Option.bind_some,hserve]
      rfl
    · rw [hc,hreceive]
      rfl
    · refine List.pairwise_append.mpr ⟨hapart,hplaced.disjoint,fun a ha b hb => ?_⟩
      rw [(hspec a ha).2.1]
      exact hbehind' b hb
    · refine List.forall_mem_append.mpr ⟨fun s hm => ?_,hplaced.inside⟩
      rw [(hspec s hm).2.1]
      exact hfirst
    · exact List.forall_mem_append.mpr ⟨fun s hm => (hspec s hm).2.2.1,hplaced.long⟩
    · exact List.forall_mem_append.mpr ⟨fun s hm => (hspec s hm).2.2.2,hplaced.aligned⟩
    · refine List.forall_mem_append.mpr ⟨fun s hm => Nat.le_of_eq (hspec s hm).1.symm,?_⟩
      exact fun s hm => Nat.le_trans (r.le_exact _) (hbehind' s hm)

/-- A request that is served with a segment of the length asked for was counted without wrapping. -/
theorem exact_of_ask (hsize : m.dataSize < 2 ^ 64) (hdvd : memoryDataAlignment ∣ m.dataSize)
    (hn : m.mcounter.dataSize ≤ m.dataSize) (h : m.ask r = some (m',segments))
    (hlong : ∀ s ∈ segments, s.start + s.requested ≤ s.stop) :
    m'.dataSize = m.dataSize ∧ m'.mcounter.dataSize = r.exact m.mcounter.dataSize ∧
      r.exact m.mcounter.dataSize ≤ m.dataSize := by
  have hline : 0 < memoryDataAlignment := by decide
  cases r with
  | naAlloc size blockLength =>
    obtain ⟨m₁,hm₁,he⟩ := Option.map_eq_some_iff.mp h
    cases he
    obtain ⟨hcheck,rfl⟩ := moveTo_eq_some.mp hm₁
    have hroom : m.mcounter.dataSize + size * blockLength ≤
        (m.mcounter.naAlloc size blockLength).dataSize := hlong _ (List.mem_singleton_self _)
    have hfit : (Request.naAlloc size blockLength).exact m.mcounter.dataSize ≤ m.dataSize :=
      Nat.le_trans hroom hcheck
    exact ⟨rfl,receive_exact (r := .naAlloc size blockLength) (Nat.lt_of_le_of_lt hfit hsize),hfit⟩
  | alAlloc size blockLength =>
    obtain ⟨m₂,hm₂,he⟩ := Option.map_eq_some_iff.mp h
    cases he
    obtain ⟨m₁,hm₁,halign⟩ := Option.bind_eq_some_iff.mp hm₂
    obtain ⟨hcheck₁,rfl⟩ := moveTo_eq_some.mp hm₁
    obtain ⟨hcheck₂,rfl⟩ := moveTo_eq_some.mp halign
    have hroom : m.mcounter.dataSize + size * blockLength ≤
        (m.mcounter.alAlloc size blockLength).dataSize := hlong _ (List.mem_singleton_self _)
    have hfit : (Request.alAlloc size blockLength).exact m.mcounter.dataSize ≤ m.dataSize :=
      roundUp_le hline hdvd (Nat.le_trans hroom hcheck₂)
    exact ⟨rfl,receive_exact (r := .alAlloc size blockLength) (Nat.lt_of_le_of_lt hfit hsize),hfit⟩
  | align =>
    obtain ⟨m₁,hm₁,he⟩ := Option.map_eq_some_iff.mp h
    cases he
    obtain ⟨_,rfl⟩ := moveTo_eq_some.mp hm₁
    have hfit : Request.align.exact m.mcounter.dataSize ≤ m.dataSize := roundUp_le hline hdvd hn
    exact ⟨rfl,receive_exact (r := .align) (Nat.lt_of_le_of_lt hfit hsize),hfit⟩

theorem exact_of_serve (hsize : m.dataSize < 2 ^ 64) (hdvd : memoryDataAlignment ∣ m.dataSize)
    (hn : m.mcounter.dataSize ≤ m.dataSize) (h : m.serve rs = some (m',segments))
    (hlong : ∀ s ∈ segments, s.start + s.requested ≤ s.stop) :
    rs.foldl Request.exact m.mcounter.dataSize ≤ m.dataSize := by
  induction rs generalizing m m' segments with
  | nil => exact hn
  | cons r rs ih =>
    obtain ⟨⟨m₁,first⟩,hask,h⟩ := Option.bind_eq_some_iff.mp h
    obtain ⟨⟨m₂,rest⟩,hserve,he⟩ := Option.map_eq_some_iff.mp h
    cases he
    obtain ⟨hsame,hexact,hfit⟩ := exact_of_ask hsize hdvd hn hask
      (fun s hm => hlong s (List.mem_append_left _ hm))
    rw [← hsame] at hsize hdvd hfit
    rw [List.foldl_cons,← hsame,← hexact]
    exact ih hsize hdvd (hexact ▸ hfit) hserve (fun s hm => hlong s (List.mem_append_right _ hm))

end Memory

/-- Counting and allocating agree on a sequence exactly when its bytes, with what is rounded up,
are less than 64 bits can count. -/
theorem agrees_iff {available : Nat → Bool} (haligned : (count rs).aligned = true)
    (havailable : (count rs).dataSize ≠ 0 → available (count rs).dataSize = true) :
    Agrees available rs ↔ exactSize rs < 2 ^ 64 := by
  have hcount := count_dataSize rs
  have hlt : (count rs).dataSize < 2 ^ 64 := hcount ▸ u64_lt _
  obtain ⟨m,hcreate,hsize,hcounter⟩ : ∃ m, Memory.create available (count rs) = some m ∧
      m.dataSize = (count rs).dataSize ∧ m.mcounter = .new := by
    rw [Memory.create,if_pos haligned]
    split_ifs with hne hav
    · exact ⟨_,rfl,rfl,rfl⟩
    · exact absurd (havailable hne) hav
    · exact ⟨_,rfl,rfl,rfl⟩
  have hstart : m.mcounter.dataSize = 0 := by rw [hcounter]; rfl
  constructor
  · rintro ⟨m₀,m',segments,hm₀,hserve,_,hplaced⟩
    obtain rfl := Option.some.inj (hcreate.symm.trans hm₀)
    have hdvd : memoryDataAlignment ∣ m.dataSize := hsize ▸ count_sound rs haligned
    have hle := Memory.exact_of_serve (hsize ▸ hlt) hdvd (hstart ▸ Nat.zero_le _) hserve hplaced.long
    rw [hstart] at hle
    exact Nat.lt_of_le_of_lt hle (hsize ▸ hlt)
  · intro hfit
    have hexact : m.dataSize = exactSize rs := by rw [hsize,hcount,u64_of_lt hfit]
    have hroom : rs.foldl Request.exact m.mcounter.dataSize ≤ m.dataSize := by
      rw [hstart,hexact]
      exact Nat.le_refl _
    obtain ⟨c,segments,hserve,hc,hplaced,_⟩ := Memory.serve_fits (hsize ▸ hlt)
      (hcounter ▸ fun _ => Nat.dvd_zero _) hroom
    refine ⟨m,_,segments,hcreate,hserve,?_,hplaced⟩
    rw [hstart] at hc
    have : c.dataSize = m.dataSize := hc.trans hexact.symm
    simp [Memory.destroyed,this]

end

end FlashMob.Alloc
