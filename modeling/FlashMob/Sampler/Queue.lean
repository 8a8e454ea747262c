import FlashMob.Graph.Deal
import FlashMob.Sampler.Buffer
import FlashMob.Sampler.Direct

namespace FlashMob.Sampling
open FlashMob.Graph Lib.Tiling

namespace ExclusiveBufferSampler

/-- The values of a buffer that have not been returned yet. -/
def unread (s : ExclusiveBufferSampler) (i : Nat) : List Nat :=
  (List.range' (s.headers i).head ((s.headers i).end - (s.headers i).head)).map s.units

/-- The segment of the buffer that belongs to a vertex. -/
def segment (s : ExclusiveBufferSampler) (v : Nat) : Nat × Nat :=
  ((s.headers (v - s.vertexBegin)).end - s.getEdgeBufferLength v,
    (s.headers (v - s.vertexBegin)).end)

theorem unread_eq_nil {s : ExclusiveBufferSampler} {i : Nat}
    (h : (s.headers i).head ≤ (s.headers i).end) :
    s.unread i = [] ↔ (s.headers i).head = (s.headers i).end := by
  rw [unread,List.map_eq_nil_iff,List.range'_eq_nil_iff]
  omega

namespace Buffered
variable {content : Slot → Nat} {adj : Nat → AdjList} {b e : Nat} {s : ExclusiveBufferSampler}
  (h : Buffered content adj b e s) {v : Nat} (hlo : b ≤ v) (hhi : v < e)
include h hlo hhi

theorem segment_eq :
    s.segment v = (bufferBegin adj b (v - b),bufferBegin adj b (v - b + 1)) := by
  have hseg := segment hlo adj
  have hlen : s.getEdgeBufferLength v = edgeBufferLength (adj v).degree := by
    rw [getEdgeBufferLength,h.adjlists]
  rw [ExclusiveBufferSampler.segment,h.vertexBegin,h.ends v hlo hhi,hlen,hseg,Nat.add_sub_cancel]

end Buffered

/-- The buffers after the first unread value of one of them has been taken. -/
def advance (s : ExclusiveBufferSampler) (i : Nat) : ExclusiveBufferSampler :=
  { s with headers := Function.update s.headers i ⟨(s.headers i).head + 1, (s.headers i).end⟩ }

theorem unread_advance {s : ExclusiveBufferSampler} {i : Nat}
    (hlt : (s.headers i).head < (s.headers i).end) :
    s.unread i = s.units (s.headers i).head :: (s.advance i).unread i := by
  rw [unread,unread]
  simp only [advance,Function.update_self]
  rw [show (s.headers i).end - (s.headers i).head =
    (s.headers i).end - ((s.headers i).head + 1) + 1 by omega,List.range'_succ,List.map_cons]

theorem headers_advance {s : ExclusiveBufferSampler} {i j : Nat} (hne : j ≠ i) :
    (s.advance i).headers j = s.headers j := Function.update_of_ne hne _ _

/-- What `sample` does to the buffers: it takes the first unread value of the vertex, after a
refill of the segment if there is none. -/
structure Sampled {ρ : Type} [RandGen ρ] (content : Slot → Nat) (s : ExclusiveBufferSampler)
    (v : Nat) (rd : ρ) : Prop where
  /-- The test for a refill is that for unread values. -/
  refill_iff : (s.headers (v - s.vertexBegin)).head = (s.headers (v - s.vertexBegin)).end ↔
    s.unread (v - s.vertexBegin) = []
  next : (s.sample content v rd).1 :: (s.sample content v rd).2.1.unread (v - s.vertexBegin) =
    if s.unread (v - s.vertexBegin) = [] then
      (draws content (s.adjlists v) rd (s.getEdgeBufferLength v)).1
    else s.unread (v - s.vertexBegin)
  refilled : s.unread (v - s.vertexBegin) = [] →
    (List.range' (s.segment v).1 (s.getEdgeBufferLength v)).map (s.sample content v rd).2.1.units =
      (draws content (s.adjlists v) rd (s.getEdgeBufferLength v)).1
  kept : s.unread (v - s.vertexBegin) ≠ [] → (s.sample content v rd).2.1.units = s.units
  /-- Nothing but the header and the segment of the vertex changes. -/
  units : ∀ j, ¬ ((s.segment v).1 ≤ j ∧ j < (s.segment v).2) →
    (s.sample content v rd).2.1.units j = s.units j
  headers : ∀ i, i ≠ v - s.vertexBegin → (s.sample content v rd).2.1.headers i = s.headers i
  frame : (s.sample content v rd).2.1.adjlists = s.adjlists ∧
    (s.sample content v rd).2.1.vertexBegin = s.vertexBegin ∧
    (s.sample content v rd).2.1.vertexEnd = s.vertexEnd ∧
    (s.sample content v rd).2.1.bufferUnitNum = s.bufferUnitNum

namespace Buffered
variable {content : Slot → Nat} {adj : Nat → AdjList} {b e : Nat} {s : ExclusiveBufferSampler}
  (h : Buffered content adj b e s) {v : Nat} (hlo : b ≤ v) (hhi : v < e) {ρ : Type} [RandGen ρ]
include h hlo hhi

theorem sample_kept (hne : (s.headers (v - b)).head ≠ (s.headers (v - b)).end) (rd : ρ) :
    s.sample content v rd = (s.units (s.headers (v - b)).head,s.advance (v - b),rd) := by
  have hhead := h.heads v hlo hhi
  have hfit := h.segment_lt hlo hhi
  have hend := h.ends v hlo hhi
  rw [sample,advance]
  simp only [h.index hlo hhi,if_neg hne]
  rw [u32_of_lt (by omega)]

theorem sample_refilled (hdegree : (adj v).degree < 2 ^ 32)
    (hempty : (s.headers (v - b)).head = (s.headers (v - b)).end) (rd : ρ) :
    ∃ units rd', (List.range' (bufferBegin adj b (v - b)) (edgeBufferLength (adj v).degree)).map
          units = (draws content (adj v) rd (edgeBufferLength (adj v).degree)).1 ∧
      (∀ j, ¬ (bufferBegin adj b (v - b) ≤ j ∧ j < bufferBegin adj b (v - b + 1)) →
        units j = s.units j) ∧
      s.sample content v rd = (units (bufferBegin adj b (v - b)),{ s with
        units := units
        headers := Function.update s.headers (v - b)
          ⟨bufferBegin adj b (v - b) + 1,bufferBegin adj b (v - b + 1)⟩ },rd') := by
  have hfit := h.segment_lt hlo hhi
  have hsum := segment hlo adj
  have hpos := edgeBufferLength_pos hdegree
  obtain ⟨units,hfill,hvalues,hother⟩ := h.fill_spec hlo hhi rd hempty
  refine ⟨units,(s.fill content v rd).2,hvalues,hother,?_⟩
  rw [sample]
  simp only [h.index hlo hhi,if_pos hempty,hfill,Function.update_self,Function.update_idem]
  rw [u32_of_lt (by omega)]

theorem sampled (hdegree : (adj v).degree < 2 ^ 32) (rd : ρ) : Sampled content s v rd := by
  have hhead := h.heads v hlo hhi
  have hseg := h.segment_eq hlo hhi
  have hsum := segment hlo adj
  have hlen : s.getEdgeBufferLength v = edgeBufferLength (adj v).degree := by
    rw [getEdgeBufferLength,h.adjlists]
  have hnil := unread_eq_nil hhead.2
  by_cases hempty : (s.headers (v - b)).head = (s.headers (v - b)).end
  · obtain ⟨units,rd',hvalues,hother,hsample⟩ := h.sample_refilled hlo hhi hdegree hempty rd
    refine ⟨?_,?_,?_,?_,?_,?_,?_⟩
    · rw [h.vertexBegin]
      exact hnil.symm
    · have hpos := edgeBufferLength_pos hdegree
      rw [hsample,h.vertexBegin,if_pos (hnil.mpr hempty),h.adjlists,hlen,← hvalues,unread]
      simp only [Function.update_self]
      rw [hsum,← Nat.sub_add_cancel hpos,List.range'_succ,List.map_cons]
      congr 3
      omega
    · intro _
      rw [hsample,hseg,hlen,h.adjlists]
      exact hvalues
    · intro hne
      rw [h.vertexBegin] at hne
      exact absurd (hnil.mpr hempty) hne
    · intro j hj
      rw [hseg] at hj
      rw [hsample]
      exact hother j hj
    · intro i hi
      rw [h.vertexBegin] at hi
      rw [hsample]
      exact Function.update_of_ne hi _ _
    · rw [hsample]
      exact ⟨rfl,rfl,rfl,rfl⟩
  · have hsample := h.sample_kept hlo hhi hempty rd
    have hne : s.unread (v - b) ≠ [] := fun he => hempty (hnil.mp he)
    have hpop := unread_advance (s := s) (i := v - b) (by omega)
    refine ⟨?_,?_,?_,?_,?_,?_,?_⟩
    · rw [h.vertexBegin]
      exact hnil.symm
    · rw [hsample,h.vertexBegin,if_neg hne]
      exact hpop.symm
    · intro he
      rw [h.vertexBegin] at he
      exact absurd he hne
    · intro _
      rw [hsample]
      rfl
    · intro j _
      rw [hsample]
      rfl
    · intro i hi
      rw [h.vertexBegin] at hi
      rw [hsample]
      exact headers_advance hi
    · rw [hsample]
      exact ⟨rfl,rfl,rfl,rfl⟩

end Buffered

theorem Buffered.unread_other {content : Slot → Nat} {adj : Nat → AdjList} {b e : Nat}
    {s s' : ExclusiveBufferSampler} (h : Buffered content adj b e s) {v w : Nat} (hlo : b ≤ v)
    (hhi : v < e) (hlo' : b ≤ w) (hhi' : w < e) (hne : w ≠ v)
    (hunits : ∀ j, ¬ ((s.segment v).1 ≤ j ∧ j < (s.segment v).2) → s'.units j = s.units j)
    (hheaders : ∀ i, i ≠ v - b → s'.headers i = s.headers i) :
    s'.unread (w - b) = s.unread (w - b) := by
  have hheads := h.heads w hlo' hhi'
  have hend := h.ends w hlo' hhi'
  have hsep := segment_ne hlo adj hlo' hne
  rw [h.segment_eq hlo hhi] at hunits
  rw [unread,unread,hheaders (w - b) (by omega)]
  apply List.map_congr_left
  intro j hj
  have := List.mem_range'_1.mp hj
  exact hunits j (by dsimp only; omega)

/-- The loop of `clear` moves every head to its end. -/
theorem clear_loop (headers : Nat → EdgeBufferHeader) (b n : Nat) (hbound : b + n ≤ 2 ^ 32)
    (i : Nat) :
    (List.range' b n).foldl (fun headers v =>
      let vIdx := u32Sub v b
      Function.update headers vIdx ⟨(headers vIdx).end, (headers vIdx).end⟩) headers i =
      if i < n then ⟨(headers i).end,(headers i).end⟩ else headers i := by
  induction n with
  | zero => rfl
  | succ n ih =>
    have hprev := ih (by omega)
    have hidx : u32Sub (b + n) b = n := by
      rw [u32Sub_of_le (Nat.le_add_right _ _) (by omega),Nat.add_sub_cancel_left]
    rw [List.range'_1_concat,List.foldl_append,List.foldl_cons,List.foldl_nil]
    simp only [hidx]
    by_cases hi : i = n
    · subst hi
      rw [if_neg (Nat.lt_irrefl i)] at hprev
      rw [Function.update_self,hprev,if_pos (Nat.lt_succ_self i)]
    · rw [Function.update_of_ne hi,hprev]
      split_ifs <;> first | rfl | omega

theorem Buffered.clear {content : Slot → Nat} {adj : Nat → AdjList} {b e : Nat}
    {s : ExclusiveBufferSampler} (h : Buffered content adj b e s) (hend : s.vertexEnd = e) :
    Buffered content adj b e s.clear ∧
      ∀ v, b ≤ v → v < e → s.clear.unread (v - b) = [] := by
  have hheader : ∀ v, b ≤ v → v < e → s.clear.headers (v - b) =
      ⟨(s.headers (v - b)).end,(s.headers (v - b)).end⟩ := by
    intro v hlo hhi
    have hbound := h.bound
    have hloop := clear_loop s.headers b (e - b) (by omega) (v - b)
    rw [if_pos (by omega)] at hloop
    rw [ExclusiveBufferSampler.clear,hend,h.vertexBegin]
    exact hloop
  refine ⟨⟨h.adjlists,h.vertexBegin,h.bound,h.fits,?_,?_,?_⟩,?_⟩
  · intro v hlo hhi
    rw [hheader v hlo hhi]
    exact h.ends v hlo hhi
  · intro v hlo hhi
    have hheads := h.heads v hlo hhi
    rw [hheader v hlo hhi]
    exact ⟨Nat.le_trans hheads.1 hheads.2,Nat.le_refl _⟩
  · intro v hlo hhi j hj hj'
    rw [hheader v hlo hhi] at hj hj'
    exact absurd hj' (Nat.not_lt.mpr hj)
  · intro v hlo hhi
    rw [unread_eq_nil (by rw [hheader v hlo hhi]),hheader v hlo hhi]

/-- The lists of the vertices from `b` to `e` can be sampled, and their buffers have less than 2^32
units. -/
structure Bufferable (adj : Nat → AdjList) (b e : Nat) : Prop where
  bound : e < 2 ^ 32
  degrees : ∀ v, b ≤ v → v < e → 0 < (adj v).degree ∧ (adj v).degree < 2 ^ 32
  total : bufferBegin adj b (e - b) < 2 ^ 32

/-- A call on the sampler; `sample` with the state of the caller's generator. -/
inductive Call (ρ : Type)
  | sample (v : Nat) (rd : ρ)
  | clear

def sampledVertices {ρ : Type} (calls : List (Call ρ)) : List Nat :=
  calls.filterMap (fun
    | .sample v _ => some v
    | .clear => none)

/-- The sampler after some calls, and for each vertex what `fill` has drawn and what has left
the buffer: `true` marks what was returned, `false` what a `clear` discarded. -/
structure History where
  sampler : ExclusiveBufferSampler
  drawn : Nat → List Nat
  fates : Nat → List (Nat × Bool)

def History.returned (hist : History) (v : Nat) : List Nat :=
  ((hist.fates v).filter (fun f => f.2)).map Prod.fst

section
variable {ρ : Type} [RandGen ρ] (content : Slot → Nat)

def History.sample (hist : History) (v : Nat) (rd : ρ) : History :=
  let s := hist.sampler
  let h := s.headers (v - s.vertexBegin)
  let r := s.sample content v rd
  { sampler := r.2.1
    drawn :=
      if h.head = h.end then
        Function.update hist.drawn v (hist.drawn v ++
          (draws content (s.adjlists v) rd (s.getEdgeBufferLength v)).1)
      else hist.drawn
    fates := Function.update hist.fates v (hist.fates v ++ [(r.1, true)]) }

def History.clear (hist : History) : History :=
  { hist with
    sampler := hist.sampler.clear
    fates := fun v => hist.fates v ++
      (hist.sampler.unread (v - hist.sampler.vertexBegin)).map (fun x => (x, false)) }

/-- What a call leaves, if it returns. -/
def call (hist : History) : Call ρ → Option History
  | .sample v rd => if hist.sampler.returns v then some (hist.sample content v rd) else none
  | .clear => some hist.clear

/-- The calls one after the other, if all of them return. -/
def run (s : ExclusiveBufferSampler) (calls : List (Call ρ)) : Option History :=
  calls.foldlM (call content) ⟨s,fun _ => [],fun _ => []⟩

theorem run_append (s : ExclusiveBufferSampler) (calls : List (Call ρ)) (c : Call ρ) :
    run content s (calls ++ [c]) = (run content s calls).bind (fun hist => call content hist c) := by
  rw [run,List.foldlM_append]
  simp only [List.foldlM_cons,List.foldlM_nil,bind_pure]
  rfl

end

section
variable {content : Slot → Nat} {adj : Nat → AdjList} {b e : Nat} {hist : History} {v : Nat}

/-- The invariant of the calls. -/
structure Running (content : Slot → Nat) (adj : Nat → AdjList) (b e : Nat) (hist : History) :
    Prop where
  buffered : Buffered content adj b e hist.sampler
  vertexEnd : hist.sampler.vertexEnd = e
  unitNum : hist.sampler.bufferUnitNum = bufferBegin adj b (e - b)
  consumed : ∀ v, b ≤ v → v < e → hist.drawn v =
    (hist.fates v).map Prod.fst ++ hist.sampler.unread (v - b)
  neighbors : ∀ v, b ≤ v → v < e → ∀ x ∈ hist.drawn v, x ∈ readList content (adj v)

theorem init_running (content : Slot → Nat) (hp : Bufferable adj b e) :
    Running content adj b e ⟨init b e adj,fun _ => [],fun _ => []⟩ := by
  refine ⟨init_buffered content hp.bound hp.total,rfl,rfl,fun v hlo hhi => ?_,
    fun v _ _ x hx => absurd hx List.not_mem_nil⟩
  have hend : ((init b e adj).headers (v - b)).head = ((init b e adj).headers (v - b)).end := by
    have hheader := (initHeaders_eq hp.total).2 (v - b) (by omega)
    simp only [init,hheader]
  exact ((unread_eq_nil (Nat.le_of_eq hend)).mpr hend).symm

theorem Running.sample {ρ : Type} [RandGen ρ] (hp : Bufferable adj b e)
    (h : Running content adj b e hist) (hlo : b ≤ v) (hhi : v < e) (rd : ρ) :
    Running content adj b e (hist.sample content v rd) := by
  have hdegrees := hp.degrees v hlo hhi
  have hb := h.buffered.vertexBegin
  have hs := h.buffered.sampled hlo hhi hdegrees.2 rd
  have hnext := hs.next
  have hrefill := hs.refill_iff
  have hheaders := hs.headers
  rw [hb] at hnext hrefill hheaders
  refine ⟨(h.buffered.sample_buffered hlo hhi hdegrees.1 hdegrees.2 rd).2,
    hs.frame.2.2.1.trans h.vertexEnd,hs.frame.2.2.2.trans h.unitNum,?_,?_⟩
  · intro w hlo' hhi'
    have hconsumed := h.consumed w hlo' hhi'
    simp only [History.sample,hb]
    by_cases hw : w = v
    · subst hw
      rw [Function.update_self,List.map_append,List.append_assoc,List.map_singleton,
        List.singleton_append,hnext]
      by_cases hempty : hist.sampler.unread (w - b) = []
      · rw [if_pos (hrefill.mpr hempty),if_pos hempty,Function.update_self,hconsumed,hempty,
          List.append_nil]
      · rw [if_neg (fun hc => hempty (hrefill.mp hc)),if_neg hempty,hconsumed]
    · rw [Function.update_of_ne hw,
        h.buffered.unread_other hlo hhi hlo' hhi' hw hs.units hheaders]
      split_ifs
      · rw [Function.update_of_ne hw,hconsumed]
      · exact hconsumed
  · intro w hlo' hhi' x hx
    have hold := h.neighbors w hlo' hhi' x
    simp only [History.sample,hb] at hx
    split_ifs at hx
    · by_cases hw : w = v
      · subst hw
        rw [Function.update_self] at hx
        rcases List.mem_append.mp hx with hx | hx
        · exact hold hx
        · rw [h.buffered.adjlists] at hx
          exact mem_draws content hdegrees.1 hx
      · rw [Function.update_of_ne hw] at hx
        exact hold hx
    · exact hold hx

theorem Running.clear (h : Running content adj b e hist) :
    Running content adj b e hist.clear := by
  obtain ⟨hbuffered,hempty⟩ := h.buffered.clear h.vertexEnd
  refine ⟨hbuffered,h.vertexEnd,h.unitNum,?_,h.neighbors⟩
  intro v hlo hhi
  simp only [History.clear,h.buffered.vertexBegin]
  rw [hempty v hlo hhi,h.consumed v hlo hhi,List.map_append,List.map_map,List.append_nil]
  congr 1
  exact (List.map_id _).symm

theorem Running.returns_iff (h : Running content adj b e hist) (hlo : b ≤ v) (hhi : v < e) :
    hist.sampler.returns v = true ↔
      hist.sampler.unread (v - b) ≠ [] ∨ (adj v).degree + 16 ≤ 2 ^ 32 := by
  rw [returns,h.buffered.index hlo hhi,h.buffered.adjlists,Bool.or_eq_true,flushEnds_iff,
    Bool.not_eq_true',decide_eq_false_iff_not,ne_eq,unread_eq_nil (h.buffered.heads v hlo hhi).2]

variable {ρ : Type} [RandGen ρ] (hp : Bufferable adj b e)
include hp

/-- What all calls leave, when they return: the vertices that were sampled can be flushed, for the
first call for a vertex fills its buffer. -/
theorem run_running {calls : List (Call ρ)} (hin : ∀ v ∈ sampledVertices calls, b ≤ v ∧ v < e)
    (hr : run content (init b e adj) calls = some hist) : Running content adj b e hist ∧
      (∀ v ∈ sampledVertices calls, (adj v).degree + 16 ≤ 2 ^ 32) ∧
      ∀ v, b ≤ v → v < e → v ∉ sampledVertices calls → hist.sampler.unread (v - b) = [] := by
  induction calls using List.reverseRecOn generalizing hist with
  | nil =>
    obtain rfl := Option.some.inj hr
    have h := init_running content hp
    refine ⟨h,fun v hv => absurd hv List.not_mem_nil,fun v hlo hhi _ => ?_⟩
    exact (List.append_eq_nil_iff.mp (h.consumed v hlo hhi).symm).2
  | append_singleton calls c ih =>
    rw [run_append] at hr
    obtain ⟨hist,hbefore,hcall⟩ := Option.bind_eq_some_iff.mp hr
    have hsub : ∀ v ∈ sampledVertices calls, v ∈ sampledVertices (calls ++ [c]) := fun v hv => by
      rw [sampledVertices,List.filterMap_append]
      exact List.mem_append_left _ hv
    obtain ⟨h,hflushed,hempty⟩ := ih (fun v hv => hin v (hsub v hv)) hbefore
    cases c with
    | sample w rd =>
      have hvertices : sampledVertices (calls ++ [.sample w rd]) = sampledVertices calls ++ [w] :=
        List.filterMap_append
      rw [hvertices] at hin ⊢
      obtain ⟨hlo,hhi⟩ := hin w (List.mem_append_right _ (List.mem_singleton_self w))
      rw [call] at hcall
      split_ifs at hcall with hreturns
      obtain rfl := Option.some.inj hcall
      refine ⟨h.sample hp hlo hhi rd,fun v hv => ?_,fun v hlo' hhi' hv => ?_⟩
      · by_cases hbefore : v ∈ sampledVertices calls
        · exact hflushed v hbefore
        · obtain rfl := List.mem_singleton.mp ((List.mem_append.mp hv).resolve_left hbefore)
          exact ((h.returns_iff hlo hhi).mp hreturns).resolve_left
            (fun hne => hne (hempty v hlo hhi hbefore))
      · obtain ⟨hbefore,hne⟩ := not_or.mp (fun h => hv (List.mem_append.mpr h))
        have hs := h.buffered.sampled hlo hhi (hp.degrees w hlo hhi).2 rd
        have hheaders := hs.headers
        rw [h.buffered.vertexBegin] at hheaders
        have hother := h.buffered.unread_other hlo hhi hlo' hhi'
          (fun he => hne (List.mem_singleton.mpr he)) hs.units hheaders
        exact hother.trans (hempty v hlo' hhi' hbefore)
    | clear =>
      have hvertices : sampledVertices (calls ++ [.clear]) = sampledVertices calls :=
        List.filterMap_append.trans (List.append_nil _)
      rw [hvertices]
      obtain rfl := Option.some.inj hcall
      exact ⟨h.clear,hflushed,fun v hlo' hhi' _ => (h.buffered.clear h.vertexEnd).2 v hlo' hhi'⟩

theorem exists_run {calls : List (Call ρ)} (hin : ∀ v ∈ sampledVertices calls, b ≤ v ∧ v < e)
    (hflush : ∀ v ∈ sampledVertices calls, (adj v).degree + 16 ≤ 2 ^ 32) :
    ∃ hist, run content (init b e adj) calls = some hist := by
  induction calls using List.reverseRecOn with
  | nil => exact ⟨_,rfl⟩
  | append_singleton calls c ih =>
    have hsub : ∀ v ∈ sampledVertices calls, v ∈ sampledVertices (calls ++ [c]) := fun v hv => by
      rw [sampledVertices,List.filterMap_append]
      exact List.mem_append_left _ hv
    obtain ⟨hist,hbefore⟩ := ih (fun v hv => hin v (hsub v hv)) (fun v hv => hflush v (hsub v hv))
    obtain ⟨h,_⟩ := run_running hp (fun v hv => hin v (hsub v hv)) hbefore
    rw [run_append,hbefore,Option.bind_some]
    cases c with
    | sample w rd =>
      have hw : w ∈ sampledVertices (calls ++ [.sample w rd]) := by
        rw [sampledVertices,List.filterMap_append]
        exact List.mem_append_right _ List.mem_cons_self
      obtain ⟨hlo,hhi⟩ := hin w hw
      exact ⟨_,if_pos ((h.returns_iff hlo hhi).mpr (.inr (hflush w hw)))⟩
    | clear => exact ⟨_,rfl⟩

end

/-- What holds of the buffers of `s` after calls. -/
structure InOrder (content : Slot → Nat) (s : ExclusiveBufferSampler) (hist : History) : Prop where
  tiles : Tiles 0 ((vertices (s.vertexBegin,s.vertexEnd)).map hist.sampler.segment) s.bufferUnitNum
  heads : ∀ v, s.vertexBegin ≤ v → v < s.vertexEnd → (hist.sampler.segment v).1 ≤
      (hist.sampler.headers (v - s.vertexBegin)).head ∧
    (hist.sampler.headers (v - s.vertexBegin)).head ≤ (hist.sampler.segment v).2
  /-- What was drawn has left the buffer in this order, but for what is still unread. -/
  consumed : ∀ v, s.vertexBegin ≤ v → v < s.vertexEnd → hist.drawn v =
    (hist.fates v).map Prod.fst ++ hist.sampler.unread (v - s.vertexBegin)
  neighbors : ∀ v, s.vertexBegin ≤ v → v < s.vertexEnd → ∀ x ∈ hist.returned v,
    x ∈ readList content (s.adjlists v)

theorem Running.inOrder {content : Slot → Nat} {adj : Nat → AdjList} {b e : Nat} {hist : History}
    (h : Running content adj b e hist) : InOrder content (init b e adj) hist := by
  have hb := h.buffered.vertexBegin
  refine ⟨?_,?_,h.consumed,?_⟩
  · have htiles := tiles_map_range (f := bufferBegin adj b)
      (fun k => bufferBegin_mono adj b (Nat.le_succ k)) (e - b)
    change Tiles 0 ((vertices (b,e)).map hist.sampler.segment) (bufferBegin adj b (e - b))
    rw [vertices,List.range'_eq_map_range,List.map_map]
    have hmap : (List.range (e - b)).map (hist.sampler.segment ∘ fun k => b + k) =
        (List.range (e - b)).map (fun k => (bufferBegin adj b k,bufferBegin adj b (k+1))) := by
      apply List.map_congr_left
      intro k hk
      have hlt := List.mem_range.mp hk
      rw [Function.comp_apply,h.buffered.segment_eq (Nat.le_add_right _ _) (by omega),
        Nat.add_sub_cancel_left]
    rw [hmap]
    exact htiles
  · intro v hlo hhi
    have hheads := h.buffered.heads v hlo hhi
    rw [h.buffered.segment_eq hlo hhi]
    exact ⟨hheads.1,h.buffered.ends v hlo hhi ▸ hheads.2⟩
  · intro v hlo hhi x hx
    obtain ⟨f,hf,rfl⟩ := List.mem_map.mp hx
    refine h.neighbors v hlo hhi f.1 ?_
    rw [h.consumed v hlo hhi]
    exact List.mem_append_left _ (List.mem_map_of_mem (List.mem_of_mem_filter hf))

section
variable {D : Type} {edges : List (Nat × Nat)} {asUndirected : Bool} {cfg : MultiThreadConfig}
  {hint : GraphHint D} {schedule : List (Nat × Nat) → List (Nat × Nat)} {g : Loaded} {made : Made}
  {p l2CacheSize : Nat} {s : ExclusiveBufferSampler}

theorem install_exclusive (h : Sampler.install made l2CacheSize p = some (.exclusive s)) :
    s = init (made.partitionBegin p) (made.partitionEnd p)
      (made.adjlists (partitionSocket made.socketNum p)) := by
  rw [Sampler.install] at h
  split at h
  · exact (Sampler.exclusive.inj (Option.some.inj h)).symm
  · cases h
  · obtain ⟨_,_,hsimilar⟩ := Option.map_eq_some_iff.mp h
    cases hsimilar
  · cases h

/-- The lists of a partition of a graph that was made can be sampled. -/
theorem install_bufferable (hload : load edges asUndirected = some g)
    (hmake : make cfg hint schedule g = some made) (ht : Tiles 0 made.partitions made.vNum)
    (hsock : 0 < cfg.socketNum) (hp : p < made.partitionNum)
    (hinstall : Sampler.install made l2CacheSize p = some (.exclusive s))
    (htotal : s.bufferUnitNum < 2 ^ 32) :
    Bufferable s.adjlists s.vertexBegin s.vertexEnd := by
  obtain rfl := install_exclusive hinstall
  obtain ⟨hbound,hdegrees⟩ := make_degrees hload hmake ht hsock hp
  have hranked := make_ranked hload hmake ht hsock hp
  refine ⟨hbound,fun v hlo hhi => ⟨hranked.positive v hlo hhi,?_⟩,htotal⟩
  obtain ⟨_,hle,hlt⟩ := hdegrees v hlo hhi
  exact Nat.lt_trans (Nat.lt_of_le_of_lt hle hlt) (by decide)

/-- Any calls on an installed sampler return and leave its buffers in order, and so does the next
call of `sample` that returns, if and only if the vertices that are sampled do not have more edges
than a counter of cache lines can pass. -/
theorem buffer_consumed_in_order_iff {ρ : Type} [RandGen ρ]
    (hload : load edges asUndirected = some g) (hmake : make cfg hint schedule g = some made)
    (ht : Tiles 0 made.partitions made.vNum) (hsock : 0 < cfg.socketNum)
    (hp : p < made.partitionNum)
    (hinstall : Sampler.install made l2CacheSize p = some (.exclusive s))
    (htotal : s.bufferUnitNum < 2 ^ 32) (content : Slot → Nat) (calls : List (Call ρ))
    (hin : ∀ v ∈ sampledVertices calls, s.vertexBegin ≤ v ∧ v < s.vertexEnd) :
    (∃ hist, run content s calls = some hist ∧ InOrder content s hist ∧
      ∀ v, s.vertexBegin ≤ v → v < s.vertexEnd → ∀ rd : ρ, Sampled content hist.sampler v rd) ↔
    ∀ v ∈ sampledVertices calls, (s.adjlists v).degree + 16 ≤ 2 ^ 32 := by
  have hpart := install_bufferable hload hmake ht hsock hp hinstall htotal
  have hs : s = init s.vertexBegin s.vertexEnd s.adjlists := by
    rw [install_exclusive hinstall]
    rfl
  constructor
  · rintro ⟨hist,hr,_⟩
    rw [hs] at hr
    exact (run_running hpart hin hr).2.1
  · intro hflush
    obtain ⟨hist,hr⟩ : ∃ hist, run content (init s.vertexBegin s.vertexEnd s.adjlists) calls =
      some hist := exists_run hpart hin hflush
    have h := (run_running hpart hin hr).1
    rw [← hs] at hr
    refine ⟨hist,hr,hs ▸ h.inOrder,fun v hlo hhi rd => ?_⟩
    exact h.buffered.sampled hlo hhi (hpart.degrees v hlo hhi).2 rd

end

/-- The middle one of three vertices is sampled twice, with one refill, and again after a `clear`. -/
theorem buffer_consumed_in_order_path :
    let hint : GraphHint Unit := ⟨2,1,[⟨0,3,2,1,(),(),0⟩],[.classExclusiveBufferSampler]⟩
    let calls : List (Call XorRandGen) :=
      [.sample 0 ⟨1⟩,.sample 1 ⟨2⟩,.sample 0 ⟨3⟩,.clear,.sample 0 ⟨4⟩]
    ∃ g made s hist, load [(7,3),(3,5)] true = some g ∧ make ⟨1,1,0⟩ hint id g = some made ∧
      Sampler.install made 0 0 = some (.exclusive s) ∧ run made.edges s calls = some hist ∧
      InOrder made.edges s hist ∧
      (∀ v < 3, ∀ rd : XorRandGen, Sampled made.edges hist.sampler v rd) ∧
      (hist.fates 0).map Prod.snd = [true,true,false,false,false,false,false,false,true] := by
  intro hint calls
  obtain ⟨g,hload⟩ : ∃ g, load [(7,3),(3,5)] true = some g := ⟨_,rfl⟩
  obtain ⟨made,hmake⟩ : ∃ made, make ⟨1,1,0⟩ hint id g = some made := Option.isSome_iff_exists.mp
    (by rw [← Option.bind_some g (make ⟨1,1,0⟩ hint id),← hload]; decide +kernel)
  let sampler : Made → ExclusiveBufferSampler := fun made => init (made.partitionBegin 0)
    (made.partitionEnd 0) (made.adjlists (partitionSocket made.socketNum 0))
  have hparts : ((load [(7,3),(3,5)] true).bind (make ⟨1,1,0⟩ hint id)).map (fun made =>
      (made.partitions,made.vNum,Sampler.chosen made 0 0)) =
        some ([(0,3)],3,.classExclusiveBufferSampler) := by decide +kernel
  have hsizes : ((load [(7,3),(3,5)] true).bind (make ⟨1,1,0⟩ hint id)).map (fun made =>
      ((sampler made).bufferUnitNum,(sampler made).vertexBegin,(sampler made).vertexEnd,
        [0,1].map (fun v => ((sampler made).adjlists v).degree))) = some (24,0,3,[2,1]) := by
    decide +kernel
  have hfates : ((load [(7,3),(3,5)] true).bind (make ⟨1,1,0⟩ hint id)).map (fun made =>
      (run made.edges (sampler made) calls).map (fun hist => (hist.fates 0).map Prod.snd)) =
        some (some [true,true,false,false,false,false,false,false,true]) := by decide +kernel
  rw [hload,Option.bind_some,hmake] at hparts hsizes hfates
  simp only [Option.map_some,Option.some.injEq,Prod.mk.injEq,List.map_cons,List.map_nil,
    List.cons.injEq] at hparts hsizes hfates
  obtain ⟨hparts,hvNum,hchosen⟩ := hparts
  obtain ⟨htotal,hbegin,hend,hmiddle,hfirst,_⟩ := hsizes
  have hinstall : Sampler.install made 0 0 = some (.exclusive (sampler made)) := by
    rw [Sampler.install,hchosen]
  generalize sampler made = s at *
  have hvertices : ∀ v ∈ sampledVertices calls, v = 0 ∨ v = 1 := by decide
  obtain ⟨hist,hr,horder,hsampled⟩ := (buffer_consumed_in_order_iff hload hmake
    (by rw [hparts,hvNum]; exact ⟨rfl,by decide,rfl⟩) (by decide)
    (by rw [Made.partitionNum,hparts]; decide) hinstall (by omega) made.edges calls
    (fun v hv => by have := hvertices v hv; omega)).mpr (fun v hv => by
      rcases hvertices v hv with rfl | rfl <;> omega)
  rw [hr] at hfates
  exact ⟨g,made,s,hist,hload,hmake,hinstall,hr,horder,
    fun v hv rd => hsampled v (by omega) (by omega) rd,Option.some.inj hfates⟩

/-- With 2^32 - 15 edges between two vertices the counter of the cache lines begins anew, so that
the first sample does not return. -/
theorem buffer_not_consumed :
    let hint : GraphHint Unit := ⟨1,1,[⟨0,2,0,2,(),(),0⟩],
      [.classExclusiveBufferSampler,.classExclusiveBufferSampler]⟩
    ∃ g made s, load (parallelMatching 1 (2 ^ 32 - 15)) true = some g ∧
      make ⟨1,1,0⟩ hint id g = some made ∧ Sampler.install made 0 0 = some (.exclusive s) ∧
      s.bufferUnitNum < 2 ^ 32 ∧ s.vertexBegin ≤ 0 ∧ 0 < s.vertexEnd ∧
      (∀ fuel, flush (s.adjlists 0).degree fuel 0 = none) ∧
      ∀ (content : Slot → Nat) (rd : XorRandGen), ¬∃ hist, run content s [.sample 0 rd] = some hist := by
  intro hint
  obtain ⟨g,hload,hv,hdegrees⟩ := load_parallelMatching (n := 1) (m := 2 ^ 32 - 15) (by decide)
    (by decide) (by decide)
  have hrows : partitionRows g.vNum hint = some [[(0,1),(1,2)]] := by
    rw [hv]
    rfl
  have ht : Tiles 0 [[(0,1),(1,2)]].flatten g.vNum := by
    rw [hv]
    exact ⟨rfl,by decide,rfl,by decide,rfl⟩
  obtain ⟨k,units,hmake,_⟩ : ∃ k units, make ⟨1,1,0⟩ hint id g = some _ ∧ _ :=
    make_isSome id hrows ht (by decide) (by simp)
  obtain ⟨made,hmade⟩ : ∃ made, made = assemble ⟨1,1,0⟩ hint id g [[(0,1),(1,2)]].flatten k units :=
    ⟨_,rfl⟩
  have hparts : made.partitions = [(0,1),(1,2)] := by rw [hmade]; rfl
  have hchosen : Sampler.chosen made 0 0 = .classExclusiveBufferSampler := by rw [hmade]; rfl
  rw [← hmade] at hmake
  obtain ⟨hnum,_⟩ := make_sizes hmake
  have hinstall : Sampler.install made 0 0 = some (.exclusive (init (made.partitionBegin 0)
      (made.partitionEnd 0) (made.adjlists (partitionSocket made.socketNum 0)))) := by
    rw [Sampler.install,hchosen]
  have hbegin : made.partitionBegin 0 = 0 := by rw [Made.partitionBegin,hparts]; rfl
  have hend : made.partitionEnd 0 = 1 := by rw [Made.partitionEnd,hparts]; rfl
  have hdegree : (made.adjlists (partitionSocket made.socketNum 0) 0).degree = 2 ^ 32 - 15 := by
    obtain ⟨w,hw,hdegree⟩ := make_unit_degree hmake (by rw [hparts,hnum]; exact ht) (by decide)
      (p := 0) (x := 0) (by omega)
    rw [hdegree,hdegrees w hw]
  have htotal : bufferBegin (made.adjlists (partitionSocket made.socketNum 0)) 0 1 < 2 ^ 32 := by
    rw [bufferBegin_succ,hdegree]
    change 0 + edgeBufferLength (2 ^ 32 - 15) < 2 ^ 32
    decide
  rw [hbegin,hend] at hinstall
  refine ⟨g,made,_,hload,hmake,hinstall,htotal,Nat.le_refl 0,Nat.one_pos,fun fuel => ?_,
    fun content rd => ?_⟩
  · exact flush_endless (by rw [init,hdegree]; decide) fuel 0 (by decide)
  · rintro ⟨hist,hr⟩
    have hpart := install_bufferable hload hmake (by rw [hparts,hnum]; exact ht) (by decide)
      (by rw [Made.partitionNum,hparts]; decide) hinstall htotal
    have hflushed := (run_running hpart (fun v hv => by
      obtain rfl := List.mem_singleton.mp hv
      exact ⟨Nat.le_refl 0,Nat.one_pos⟩) hr).2.1 0 (List.mem_singleton_self 0)
    rw [init,hdegree] at hflushed
    exact absurd hflushed (by decide)

end ExclusiveBufferSampler

end FlashMob.Sampling
