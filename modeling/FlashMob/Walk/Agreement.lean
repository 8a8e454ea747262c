import FlashMob.Walk.Reference
import FlashMob.Walk.Transitions

namespace FlashMob.WalkManager
open FlashMob.Graph FlashMob.Reference FlashMob.Sampling Lib.Rejection Lib.Remainders

/-- How many words lead to an outcome that is listed `count` times. -/
theorem ncard_bounds {outcomes : List Nat} {f : BitVec 64 → Nat}
    (h : NearlyUniform (1 / 2 ^ 32) outcomes f) (hpos : 0 < outcomes.length) (y : Nat) :
    Set.ncard { word | f word = y } * outcomes.length ≤
        outcomes.count y * 2 ^ 32 * (2 ^ 32 + outcomes.length) ∧
      outcomes.count y * 2 ^ 32 * 2 ^ 32 ≤ Set.ncard { word | f word = y } * outcomes.length +
        outcomes.count y * 2 ^ 32 * outcomes.length := by
  have hd : (0 : ℚ) < outcomes.length := Nat.cast_pos.mpr hpos
  have hcard : Nat.card (BitVec 64) = 2 ^ 64 :=
    card_words (fun _ _ h => BitVec.eq_of_toNat_eq h) Sampling.exists_word
  have hy := h y
  rw [share,hcard,abs_le] at hy
  push_cast at hy
  generalize Set.ncard { word | f word = y } = n at *
  generalize outcomes.count y = m at *
  generalize outcomes.length = d at *
  obtain ⟨hlow,hhigh⟩ := hy
  have hlow' : (m : ℚ) * 2 ^ 32 * 2 ^ 32 ≤ n * d + m * 2 ^ 32 * d := by
    have := mul_le_mul_of_nonneg_right hlow (show (0 : ℚ) ≤ 2 ^ 64 * d by positivity)
    field_simp at this
    linarith
  have hhigh' : (n : ℚ) * d ≤ m * 2 ^ 32 * (2 ^ 32 + d) := by
    have := mul_le_mul_of_nonneg_right hhigh (show (0 : ℚ) ≤ 2 ^ 64 * d by positivity)
    field_simp at this
    linarith
  exact ⟨by exact_mod_cast hhigh',by exact_mod_cast hlow'⟩

section
variable {K : Type} [Field K] [LinearOrder K] [FloorSemiring K]

theorem le_acceptBound (p q : K) (neighbors : List Nat) (u y : Nat) :
    (setNode2vec p q).n2vLowerbound ≤ acceptBound p q neighbors u y := by
  simp only [setNode2vec,Floating.exact_stdMin,Floating.exact_ofNat,Floating.exact_div,Nat.cast_one,
    acceptBound]
  split_ifs
  · exact min_le_of_right_le (min_le_left _ _)
  · exact min_le_left _ _
  · exact min_le_of_right_le (min_le_right _ _)

/-- The factor by which the shares of the walks can differ from those of the reference: indices come
from 32 bits, and tests from 16 bits. -/
def agreement (p q : K) (degree : Nat) : K :=
  let wm := setNode2vec p q
  ((2 ^ 32 + degree : Nat) : K) * (1 + wm.n2vUpperbound / ((65535 : Nat) * wm.n2vLowerbound)) /
    ((2 ^ 32 : Nat) - degree)

variable [IsStrictOrderedRing K] {p q : K}

theorem ncard_bounds_cast {outcomes : List Nat} {f : BitVec 64 → Nat}
    (h : NearlyUniform (1 / 2 ^ 32) outcomes f) (hpos : 0 < outcomes.length) (y : Nat) :
    (outcomes.count y : K) * 2 ^ 32 * (2 ^ 32 - outcomes.length) / outcomes.length ≤
        Set.ncard { word | f word = y } ∧
      (Set.ncard { word | f word = y } : K) ≤
        outcomes.count y * 2 ^ 32 * (2 ^ 32 + outcomes.length) / outcomes.length := by
  have hd : (0 : K) < outcomes.length := Nat.cast_pos.mpr hpos
  obtain ⟨hhigh,hlow⟩ := ncard_bounds h hpos y
  have hhigh := Nat.cast_le (α := K).mpr hhigh
  have hlow := Nat.cast_le (α := K).mpr hlow
  push_cast at hhigh hlow
  constructor
  · rw [div_le_iff₀ hd]
    linarith
  · rw [le_div_iff₀ hd]
    linarith

section
variable (hp : 0 < p) (hq : 0 < q)
include hp hq

theorem n2vLowerbound_pos : 0 < (setNode2vec p q).n2vLowerbound := by
  simp only [setNode2vec,Floating.exact_stdMin,Floating.exact_ofNat,Floating.exact_div,Nat.cast_one]
  exact lt_min one_pos (lt_min (one_div_pos.mpr hp) (one_div_pos.mpr hq))

theorem tests_bounds (neighbors : List Nat) (u y : Nat) :
    let wm := setNode2vec p q
    let bound := acceptBound p q neighbors u y
    65535 / wm.n2vUpperbound * bound ≤ ((⌊65535 * bound / wm.n2vUpperbound⌋₊ + 1 : Nat) : K) ∧
      ((⌊65535 * bound / wm.n2vUpperbound⌋₊ + 1 : Nat) : K) ≤
        65535 / wm.n2vUpperbound * (1 + wm.n2vUpperbound / (65535 * wm.n2vLowerbound)) * bound := by
  intro wm bound
  have hlow : 0 < wm.n2vLowerbound := n2vLowerbound_pos hp hq
  have hle : wm.n2vLowerbound ≤ bound := le_acceptBound p q neighbors u y
  have hbound : 0 < bound := acceptBound_pos hp hq neighbors u y
  have hupper : 0 < wm.n2vUpperbound := n2vUpperbound_pos hp hq
  have hscale : 65535 * bound / wm.n2vUpperbound = 65535 / wm.n2vUpperbound * bound := by ring
  push_cast
  rw [hscale]
  constructor
  · exact (Nat.lt_floor_add_one _).le
  · have hfloor := Nat.floor_le (show 0 ≤ 65535 / wm.n2vUpperbound * bound by positivity)
    have hone : 1 ≤ bound / wm.n2vLowerbound := (one_le_div hlow).mpr hle
    have hsplit : 65535 / wm.n2vUpperbound * (1 + wm.n2vUpperbound / (65535 * wm.n2vLowerbound)) *
        bound = 65535 / wm.n2vUpperbound * bound + bound / wm.n2vLowerbound := by
      field_simp
    rw [hsplit]
    exact add_le_add hfloor hone

end

section
variable {g : NeighborGraph} {adj : AdjList} {neighbors : List Nat} {socket previous v n t : Nat}
  {smp : Sampler} {us : List Use} {cells : Fin n → (Nat × Nat) × (Nat × Nat)} {outcomes : List Nat}

omit [IsStrictOrderedRing K] in
theorem TransitionLaw.mem_outcomes
    (h : TransitionLaw p q g adj neighbors socket previous v n t smp us cells)
    (huniform : NearlyUniform (1 / 2 ^ 32) outcomes (sampledBy g.edges adj))
    (hpos : 0 < outcomes.length) (words : Nat × Nat → BitVec 64) {x : Fin n → BitVec 64 × BitVec 64}
    {z : Nat} (hz : walkedTo (setNode2vec p q) g socket previous v n t smp us (assign words cells x) =
      some z) : z ∈ outcomes := by
  obtain ⟨times,_,hcount⟩ := h.accepted
  by_contra hout
  have hwords := (ncard_bounds huniform hpos z).1
  rw [List.count_eq_zero.mpr hout,Nat.zero_mul,Nat.zero_mul,Nat.le_zero,Nat.mul_eq_zero] at hwords
  have hempty := hcount words z
  rw [hwords.resolve_right hpos.ne',Nat.zero_mul,Nat.zero_mul,
    Set.ncard_eq_zero (Set.toFinite _)] at hempty
  exact Set.eq_empty_iff_forall_notMem.mp hempty x hz

variable (hp : 0 < p) (hq : 0 < q)
include hp hq

/-- How often the loop ends at a vertex, between two multiples of its weight. -/
theorem TransitionLaw.bounds
    (h : TransitionLaw p q g adj neighbors socket previous v n t smp us cells) (hn : 0 < n)
    (huniform : NearlyUniform (1 / 2 ^ 32) outcomes (sampledBy g.edges adj))
    (hpos : 0 < outcomes.length) (words : Nat × Nat → BitVec 64) :
    let wm := setNode2vec p q
    let walked := fun x => walkedTo wm g socket previous v n t smp us (assign words cells x)
    let weight := fun z => (outcomes.count z : K) * acceptBound p q neighbors previous z
    let spread := 1 + wm.n2vUpperbound / (65535 * wm.n2vLowerbound)
    ∃ scale : K, 0 < scale ∧ ∀ z,
      scale * (2 ^ 32 - outcomes.length) * weight z ≤ (Set.ncard { x | walked x = some z } : K) ∧
      (Set.ncard { x | walked x = some z } : K) ≤
        scale * (2 ^ 32 + outcomes.length) * spread * weight z := by
  intro wm walked weight spread
  obtain ⟨times,htimes,hcount⟩ := h.accepted
  have htimes : (0 : K) < times := Nat.cast_pos.mpr (htimes hn)
  have hd : (0 : K) < outcomes.length := Nat.cast_pos.mpr hpos
  have hlower : 0 < wm.n2vLowerbound := n2vLowerbound_pos hp hq
  have hupper : 0 < wm.n2vUpperbound := n2vUpperbound_pos hp hq
  have hbound := fun z => (acceptBound_pos hp hq neighbors previous z).le
  refine ⟨2 ^ 48 * times * (65535 / wm.n2vUpperbound) * 2 ^ 32 / outcomes.length,by positivity,
    fun z => ?_⟩
  obtain ⟨hwords,hwords'⟩ := ncard_bounds_cast (K := K) huniform hpos z
  obtain ⟨htests,htests'⟩ := tests_bounds hp hq neighbors previous z
  have hcast := congrArg (Nat.cast (R := K)) (hcount words z)
  generalize Set.ncard { word | sampledBy g.edges adj word = z } = wordNum at hcast hwords hwords'
  generalize ⌊65535 * acceptBound p q neighbors previous z / (setNode2vec p q).n2vUpperbound⌋₊ + 1 =
    testNum at hcast htests htests'
  have hcast : (Set.ncard { x | walked x = some z } : K) = 2 ^ 48 * times * (wordNum * testNum) := by
    refine hcast.trans ?_
    push_cast
    ring
  have hz := hbound z
  rw [hcast]
  constructor
  · calc _ = 2 ^ 48 * (times : K) *
          (outcomes.count z * 2 ^ 32 * (2 ^ 32 - outcomes.length) / outcomes.length *
            (65535 / wm.n2vUpperbound * acceptBound p q neighbors previous z)) := by
          simp only [weight]
          ring
      _ ≤ _ := mul_le_mul_of_nonneg_left
          (mul_le_mul hwords htests (by positivity) (Nat.cast_nonneg _)) (by positivity)
  · calc _ ≤ 2 ^ 48 * (times : K) *
          (outcomes.count z * 2 ^ 32 * (2 ^ 32 + outcomes.length) / outcomes.length *
            (65535 / wm.n2vUpperbound * spread * acceptBound p q neighbors previous z)) :=
          mul_le_mul_of_nonneg_left
            (mul_le_mul hwords' htests' (Nat.cast_nonneg _) (by positivity)) (by positivity)
      _ = _ := by
          simp only [weight]
          ring

/-- The vertices at which the loop ends have the shares of their weights, up to the factor. -/
theorem TransitionLaw.agrees
    (h : TransitionLaw p q g adj neighbors socket previous v n t smp us cells) (hn : 0 < n)
    (huniform : NearlyUniform (1 / 2 ^ 32) outcomes (sampledBy g.edges adj))
    (hpos : 0 < outcomes.length) (hlt : outcomes.length < 2 ^ 32) {s : Finset Nat}
    (hs : ∀ z ∈ outcomes, z ∈ s) (words : Nat × Nat → BitVec 64) {y : Nat} (hy : y ∈ s) :
    let walked := fun x => walkedTo (setNode2vec p q) g socket previous v n t smp us
      (assign words cells x)
    let weight := fun z => (outcomes.count z : K) * acceptBound p q neighbors previous z
    (Set.ncard { x | walked x = some y } : K) ≤ agreement p q outcomes.length *
        (weight y / (∑ z ∈ s, weight z) * Set.ncard { x | (walked x).isSome = true }) ∧
      weight y / (∑ z ∈ s, weight z) * Set.ncard { x | (walked x).isSome = true } ≤
        agreement p q outcomes.length * Set.ncard { x | walked x = some y } := by
  intro walked weight
  obtain ⟨scale,hscale,hbounds⟩ := h.bounds hp hq hn huniform hpos words
  have hlower := n2vLowerbound_pos hp hq
  have hupper := n2vUpperbound_pos hp hq
  have hd : (0 : K) < 2 ^ 32 - outcomes.length := by
    have : (outcomes.length : K) < ((2 ^ 32 : Nat) : K) := Nat.cast_lt.mpr hlt
    push_cast at this
    linarith
  have hnonneg : ∀ z, 0 ≤ weight z := fun z =>
    mul_nonneg (Nat.cast_nonneg _) (acceptBound_pos hp hq neighbors previous z).le
  have hsum : 0 < ∑ z ∈ s, weight z := by
    obtain ⟨z,hz⟩ := List.exists_mem_of_length_pos hpos
    refine Finset.sum_pos' (fun z _ => hnonneg z) ⟨z,hs z hz,?_⟩
    exact mul_pos (Nat.cast_pos.mpr (List.count_pos_iff.mpr hz))
      (acceptBound_pos hp hq neighbors previous z)
  have hwhole : (Set.ncard { x | (walked x).isSome = true } : K) =
      ∑ z ∈ s, (Set.ncard { x | walked x = some z } : K) := by
    rw [ncard_isSome walked (fun x z hz => hs z (h.mem_outcomes huniform hpos words hz)),Nat.cast_sum]
  -- The factor is the quotient of the two multiples.
  have hfactor : agreement p q outcomes.length = scale * (2 ^ 32 + outcomes.length) *
      (1 + (setNode2vec p q).n2vUpperbound / (65535 * (setNode2vec p q).n2vLowerbound)) /
        (scale * (2 ^ 32 - outcomes.length)) := by
    rw [mul_assoc scale,mul_div_mul_left _ _ hscale.ne',agreement]
    norm_num
  rw [hwhole,hfactor]
  exact share_close (mul_pos hscale hd) (by positivity) (fun z _ => hbounds z) (fun z _ => hnonneg z)
    hsum hy

end

end

end FlashMob.WalkManager
