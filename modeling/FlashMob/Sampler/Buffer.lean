import FlashMob.Graph.Query
import FlashMob.Sampler.Samplers

namespace FlashMob.Sampling
open FlashMob.Graph

/-- Where the buffer of the `n`th vertex behind `b` begins. -/
def bufferBegin (adj : Nat → AdjList) (b n : Nat) : Nat :=
  ((List.range' b n).map (fun v => edgeBufferLength (adj v).degree)).sum

theorem bufferBegin_succ (adj : Nat → AdjList) (b n : Nat) :
    bufferBegin adj b (n+1) = bufferBegin adj b n + edgeBufferLength (adj (b + n)).degree := by
  rw [bufferBegin,List.range'_1_concat,List.map_append,List.sum_append]
  simp [bufferBegin]

theorem bufferBegin_mono (adj : Nat → AdjList) (b : Nat) {m n : Nat} (h : m ≤ n) :
    bufferBegin adj b m ≤ bufferBegin adj b n := by
  induction h with
  | refl => exact Nat.le_refl _
  | step _ ih => exact Nat.le_trans ih (bufferBegin_succ adj b _ ▸ Nat.le_add_right _ _)

theorem edgeBufferLength_pos {degree : Nat} (h : degree < 2 ^ 32) : 0 < edgeBufferLength degree := by
  rw [edgeBufferLength]
  generalize hlen : (if degree < 8 then 8 else degree) = len
  have hbounds : 8 ≤ len ∧ len < 2 ^ 32 := by
    rw [← hlen]
    split_ifs <;> omega
  split_ifs with hpow
  · -- The largest number is not a power of two.
    have hne : len ≠ 2 ^ 32 - 1 := by
      rintro rfl
      exact absurd hpow.2 (by decide)
    rw [u32_of_lt (by omega)]
    omega
  · omega

theorem edgeBufferLength_lt {degree : Nat} (h : degree < 2 ^ 32) :
    edgeBufferLength degree < 2 ^ 32 := by
  have hlen : (if degree < 8 then 8 else degree) < 2 ^ 32 := by split_ifs <;> omega
  rw [edgeBufferLength]
  generalize (if degree < 8 then 8 else degree) = len at hlen
  split_ifs
  · exact u32_lt _
  · exact hlen

theorem mem_readList {ρ : Type} [RandGen ρ] (content : Slot → Nat) {adj : AdjList}
    (h : 0 < adj.degree) (rd : ρ) :
    content (adj.begin.1, adj.begin.2 + (RandGen.gen adj.degree rd).1) ∈ readList content adj :=
  List.mem_map.mpr ⟨_,List.mem_range.mpr (RandGen.gen_lt _ rd h),rfl⟩

/-- The next `n` neighbours that a generator draws from an adjacency list. -/
def draws {ρ : Type} [RandGen ρ] (content : Slot → Nat) (adj : AdjList) (rd : ρ) :
    Nat → List Nat × ρ
  | 0 => ([],rd)
  | n+1 =>
    let st := draws content adj rd n
    let r := RandGen.gen adj.degree st.2
    (st.1 ++ [content (adj.begin.1, adj.begin.2 + r.1)], r.2)

section
variable {ρ : Type} [RandGen ρ] (content : Slot → Nat) {adj : AdjList}

theorem draws_head (rd : ρ) (n : Nat) : (draws content adj rd (n + 1)).1.head? =
    some (content (adj.begin.1, adj.begin.2 + (RandGen.gen adj.degree rd).1)) := by
  induction n with
  | zero => rfl
  | succ n ih =>
    rw [draws,List.head?_append,ih]
    rfl

theorem mem_draws (hpos : 0 < adj.degree) {rd : ρ} {n x : Nat}
    (hx : x ∈ (draws content adj rd n).1) : x ∈ readList content adj := by
  induction n with
  | zero => simp [draws] at hx
  | succ n ih =>
    rcases List.mem_append.mp hx with h | h
    · exact ih h
    · rw [List.mem_singleton.mp h]
      exact mem_readList content hpos _

end

namespace ExclusiveBufferSampler

theorem initHeaders_eq {adj : Nat → AdjList} {b n : Nat} (h : bufferBegin adj b n < 2 ^ 32) :
    (initHeaders adj b n).2 = bufferBegin adj b n ∧
      ∀ i < n, (initHeaders adj b n).1 i = ⟨bufferBegin adj b (i+1),bufferBegin adj b (i+1)⟩ := by
  induction n with
  | zero => exact ⟨rfl,fun i hi => absurd hi (Nat.not_lt_zero i)⟩
  | succ n ih =>
    obtain ⟨hnext,hheaders⟩ := ih (Nat.lt_of_le_of_lt (bufferBegin_mono adj b (Nat.le_succ n)) h)
    have hstep : initHeaders adj b (n+1) =
        (Function.update (initHeaders adj b n).1 n
          ⟨bufferBegin adj b (n+1),bufferBegin adj b (n+1)⟩,bufferBegin adj b (n+1)) := by
      rw [initHeaders,List.range_succ,List.foldl_append,List.foldl_cons,List.foldl_nil,
        ← initHeaders,hnext,Nat.add_comm n b,← bufferBegin_succ,u32_of_lt h]
    rw [hstep]
    refine ⟨rfl,fun i hi => ?_⟩
    rcases Nat.lt_or_eq_of_le (Nat.le_of_lt_succ hi) with hlt | rfl
    · exact (Function.update_of_ne (Nat.ne_of_lt hlt) _ _).trans (hheaders i hlt)
    · exact Function.update_self _ _ _

/-- Each vertex has a segment of its own, and what is left in it was drawn from its list. -/
structure Buffered (content : Slot → Nat) (adj : Nat → AdjList) (b e : Nat)
    (s : ExclusiveBufferSampler) : Prop where
  adjlists : s.adjlists = adj
  vertexBegin : s.vertexBegin = b
  bound : e < 2 ^ 32
  fits : bufferBegin adj b (e - b) < 2 ^ 32
  ends : ∀ v, b ≤ v → v < e → (s.headers (v - b)).end = bufferBegin adj b (v - b + 1)
  heads : ∀ v, b ≤ v → v < e → bufferBegin adj b (v - b) ≤ (s.headers (v - b)).head ∧
    (s.headers (v - b)).head ≤ (s.headers (v - b)).end
  drawn : ∀ v, b ≤ v → v < e → ∀ j, (s.headers (v - b)).head ≤ j → j < (s.headers (v - b)).end →
    s.units j ∈ readList content (adj v)

theorem init_buffered (content : Slot → Nat) {adj : Nat → AdjList} {b e : Nat} (he : e < 2 ^ 32)
    (h : bufferBegin adj b (e - b) < 2 ^ 32) : Buffered content adj b e (init b e adj) := by
  obtain ⟨_,hheaders⟩ := initHeaders_eq h
  have hheader : ∀ v, b ≤ v → v < e → (init b e adj).headers (v - b) =
      ⟨bufferBegin adj b (v - b + 1),bufferBegin adj b (v - b + 1)⟩ :=
    fun v hlo hhi => hheaders (v - b) (by omega)
  refine ⟨rfl,rfl,he,h,?_,?_,?_⟩
  · intro v hlo hhi
    rw [hheader v hlo hhi]
  · intro v hlo hhi
    rw [hheader v hlo hhi]
    exact ⟨bufferBegin_mono adj b (Nat.le_succ _),Nat.le_refl _⟩
  · intro v hlo hhi j hj hj'
    rw [hheader v hlo hhi] at hj hj'
    exact absurd hj' (Nat.not_lt.mpr hj)

/-- `fill` by the place and the number of the units it draws. -/
theorem fill_eq {ρ : Type} [RandGen ρ] {content : Slot → Nat} {s : ExclusiveBufferSampler}
    {v i start n : Nat} (hi : u32Sub v s.vertexBegin = i)
    (hstart : u32Sub (s.headers i).end (s.getEdgeBufferLength v) = start)
    (hn : u32Sub (s.headers i).head start = n) (rd : ρ) :
    s.fill content v rd =
      let filled := (List.range n).foldl (fun (st : (Nat → Nat) × ρ) i =>
        let r := RandGen.gen (s.adjlists v).degree st.2
        (Function.update st.1 (start + i)
          (content ((s.adjlists v).begin.1, (s.adjlists v).begin.2 + r.1)), r.2)) (s.units,rd)
      ({ s with
        units := filled.1
        headers := Function.update s.headers i ⟨start,(s.headers i).end⟩ }, filled.2) := by
  subst hi hstart hn
  rfl

/-- The loop of `fill` stores what the generator draws. -/
theorem fill_draws {ρ : Type} [RandGen ρ] (content : Slot → Nat) (adj : AdjList) (start n : Nat)
    (units : Nat → Nat) (rd : ρ) :
    let filled := (List.range n).foldl (fun (st : (Nat → Nat) × ρ) i =>
      let r := RandGen.gen adj.degree st.2
      (Function.update st.1 (start + i) (content (adj.begin.1, adj.begin.2 + r.1)), r.2))
      (units,rd)
    filled.2 = (draws content adj rd n).2 ∧
      (List.range' start n).map filled.1 = (draws content adj rd n).1 ∧
      ∀ j, ¬ (start ≤ j ∧ j < start + n) → filled.1 j = units j := by
  induction n with
  | zero => exact ⟨rfl,rfl,fun _ _ => rfl⟩
  | succ n ih =>
    obtain ⟨hgen,hvalues,hother⟩ := ih
    simp only [List.range_succ,List.foldl_append,List.foldl_cons,List.foldl_nil]
    rw [hgen]
    refine ⟨rfl,?_,fun j hj => ?_⟩
    · rw [List.range'_1_concat,List.map_append,draws,List.map_singleton,Function.update_self]
      congr 1
      rw [← hvalues]
      apply List.map_congr_left
      intro j hj
      have := List.mem_range'_1.mp hj
      exact Function.update_of_ne (by omega) _ _
    · rw [Function.update_of_ne (by omega)]
      exact hother j (by omega)

namespace Buffered
variable {content : Slot → Nat} {adj : Nat → AdjList} {b e : Nat} {s : ExclusiveBufferSampler}
  (h : Buffered content adj b e s) {v : Nat} (hlo : b ≤ v) (hhi : v < e)
include h hlo hhi

theorem index : u32Sub v s.vertexBegin = v - b := by
  rw [h.vertexBegin]
  exact u32Sub_of_le hlo (Nat.lt_trans hhi h.bound)

omit h hhi in
theorem segment (adj : Nat → AdjList) : bufferBegin adj b (v - b + 1) =
    bufferBegin adj b (v - b) + edgeBufferLength (adj v).degree := by
  rw [bufferBegin_succ,Nat.add_sub_cancel' hlo]

theorem segment_lt : bufferBegin adj b (v - b + 1) < 2 ^ 32 :=
  Nat.lt_of_le_of_lt (bufferBegin_mono adj b (by omega)) h.fits

omit h hhi in
/-- The segments of two vertices do not meet. -/
theorem segment_ne (adj : Nat → AdjList) {w : Nat} (hw : b ≤ w) (hne : w ≠ v) :
    bufferBegin adj b (w - b + 1) ≤ bufferBegin adj b (v - b) ∨
      bufferBegin adj b (v - b + 1) ≤ bufferBegin adj b (w - b) := by
  rcases Nat.lt_or_gt_of_ne hne with hlt | hgt
  · exact Or.inl (bufferBegin_mono adj b (by omega))
  · exact Or.inr (bufferBegin_mono adj b (by omega))

/-- A change of one header and of units inside its segment. -/
theorem modify (units : Nat → Nat) (header : EdgeBufferHeader)
    (hend : header.end = bufferBegin adj b (v - b + 1))
    (hhead : bufferBegin adj b (v - b) ≤ header.head ∧ header.head ≤ header.end)
    (hdrawn : ∀ j, header.head ≤ j → j < header.end → units j ∈ readList content (adj v))
    (hother : ∀ j, ¬ (bufferBegin adj b (v - b) ≤ j ∧ j < bufferBegin adj b (v - b + 1)) →
      units j = s.units j) :
    Buffered content adj b e
      { s with units := units, headers := Function.update s.headers (v - b) header } := by
  have hheader : ∀ w, b ≤ w → w ≠ v →
      Function.update s.headers (v - b) header (w - b) = s.headers (w - b) :=
    fun w hw hne => Function.update_of_ne (by omega) _ _
  refine ⟨h.adjlists,h.vertexBegin,h.bound,h.fits,?_,?_,?_⟩
  · intro w hw hwe
    dsimp only
    by_cases hne : w = v
    · subst hne
      rwa [Function.update_self]
    · rw [hheader w hw hne]
      exact h.ends w hw hwe
  · intro w hw hwe
    dsimp only
    by_cases hne : w = v
    · subst hne
      rwa [Function.update_self]
    · rw [hheader w hw hne]
      exact h.heads w hw hwe
  · intro w hw hwe j
    dsimp only
    by_cases hne : w = v
    · subst hne
      rw [Function.update_self]
      exact hdrawn j
    · rw [hheader w hw hne]
      intro hj hj'
      have hheads := h.heads w hw hwe
      have hends := h.ends w hw hwe
      have hsep := segment_ne hlo adj hw hne
      rw [hother j (by omega)]
      exact h.drawn w hw hwe j hj hj'

/-- The segment that `fill` computes for an empty buffer is that of the vertex. -/
theorem refill_place (hempty : (s.headers (v - b)).head = (s.headers (v - b)).end) :
    u32Sub (s.headers (v - b)).end (s.getEdgeBufferLength v) = bufferBegin adj b (v - b) ∧
      u32Sub (s.headers (v - b)).head (bufferBegin adj b (v - b)) =
        edgeBufferLength (adj v).degree := by
  have hseg := segment hlo adj
  have hlt := h.segment_lt hlo hhi
  have hend := h.ends v hlo hhi
  have hlen : s.getEdgeBufferLength v = edgeBufferLength (adj v).degree := by
    rw [getEdgeBufferLength,h.adjlists]
  rw [hempty,hend,hlen,u32Sub_of_le (by omega) hlt,u32Sub_of_le (by omega) hlt]
  omega

variable {ρ : Type} [RandGen ρ]

/-- `fill` replaces the segment of an empty buffer by drawn values. -/
theorem fill_spec (rd : ρ) (hempty : (s.headers (v - b)).head = (s.headers (v - b)).end) :
    ∃ units, (s.fill content v rd).1 = { s with
        units := units
        headers := Function.update s.headers (v - b)
          ⟨bufferBegin adj b (v - b),bufferBegin adj b (v - b + 1)⟩ } ∧
      (List.range' (bufferBegin adj b (v - b)) (edgeBufferLength (adj v).degree)).map units =
        (draws content (adj v) rd (edgeBufferLength (adj v).degree)).1 ∧
      ∀ j, ¬ (bufferBegin adj b (v - b) ≤ j ∧ j < bufferBegin adj b (v - b + 1)) →
        units j = s.units j := by
  obtain ⟨hstart,hnum⟩ := h.refill_place hlo hhi hempty
  have hend := h.ends v hlo hhi
  have hseg := segment hlo adj
  obtain rfl := h.adjlists
  obtain ⟨_,hvalues,hother⟩ := fill_draws content (s.adjlists v) (bufferBegin s.adjlists b (v - b))
    (edgeBufferLength (s.adjlists v).degree) s.units rd
  rw [fill_eq (h.index hlo hhi) hstart hnum,hend]
  exact ⟨_,rfl,hvalues,fun j hj => hother j (by omega)⟩

variable (hpos : 0 < (adj v).degree) (hdegree : (adj v).degree < 2 ^ 32)
include hpos

/-- A refill rewrites the whole segment of the vertex. -/
theorem fill_buffered (rd : ρ) (hempty : (s.headers (v - b)).head = (s.headers (v - b)).end) :
    Buffered content adj b e (s.fill content v rd).1 ∧
      (s.fill content v rd).1.headers (v - b) =
        ⟨bufferBegin adj b (v - b),bufferBegin adj b (v - b + 1)⟩ := by
  have hseg := segment hlo adj
  obtain ⟨units,hfill,hvalues,hother⟩ := h.fill_spec hlo hhi rd hempty
  rw [hfill]
  refine ⟨?_,Function.update_self _ _ _⟩
  refine h.modify hlo hhi units _ rfl ⟨Nat.le_refl _,?_⟩ (fun j hj hj' => ?_) hother
  · dsimp only
    omega
  · refine mem_draws content hpos (hvalues ▸ List.mem_map_of_mem ?_)
    dsimp only at hj hj'
    exact List.mem_range'_1.mpr (by omega)

include hdegree

/-- `sample` returns a neighbour, and what it leaves in the buffers are neighbours. -/
theorem sample_buffered (rd : ρ) : (s.sample content v rd).1 ∈ readList content (adj v) ∧
    Buffered content adj b e (s.sample content v rd).2.1 := by
  -- After the refill, if there is one, a unit is left.
  have hready : ∃ s' rd', (if (s.headers (v - b)).head = (s.headers (v - b)).end then
        s.fill content v rd else (s,rd)) = (s',rd') ∧ Buffered content adj b e s' ∧
      (s'.headers (v - b)).head < (s'.headers (v - b)).end := by
    split_ifs with hempty
    · obtain ⟨hfill,hheader⟩ := h.fill_buffered hlo hhi hpos rd hempty
      refine ⟨(s.fill content v rd).1,(s.fill content v rd).2,Prod.mk.eta.symm,hfill,?_⟩
      have hseg := segment hlo adj
      have hlen := edgeBufferLength_pos hdegree
      rw [hheader]
      dsimp only
      omega
    · exact ⟨s,rd,rfl,h,Nat.lt_of_le_of_ne (h.heads v hlo hhi).2 hempty⟩
  obtain ⟨s',rd',hs',hb,hlt⟩ := hready
  have hend := hb.ends v hlo hhi
  have hhead := hb.heads v hlo hhi
  have hfit := h.segment_lt hlo hhi
  rw [sample]
  simp only [h.index hlo hhi,hs']
  refine ⟨hb.drawn v hlo hhi _ (Nat.le_refl _) hlt,?_⟩
  rw [u32_of_lt (show (s'.headers (v - b)).head + 1 < 2 ^ 32 by omega)]
  refine hb.modify hlo hhi s'.units ⟨(s'.headers (v - b)).head + 1,(s'.headers (v - b)).end⟩
    hend ?_ ?_ (fun _ _ => rfl)
  · dsimp only
    omega
  · intro j hj hj'
    exact hb.drawn v hlo hhi j (Nat.le_of_succ_le hj) hj'

end Buffered

end ExclusiveBufferSampler

end FlashMob.Sampling
