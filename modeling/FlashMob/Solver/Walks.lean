import FlashMob.Lib.Runs
import FlashMob.Types

namespace FlashMob.Solver
open Lib.Runs

/-- A call of `init_walks`, with the `max_epoch_walker_num` in force and the arrays that its
iterations get from `alloc_walker_array`, which are never null. -/
structure InitWalks (α : Type) where
  numWalker : Nat
  walkLen : Int
  maxEpochWalkerNum : Nat
  alloc : Nat → α

namespace InitWalks
variable {α : Type}

/-- `init_walks` on the vector `walks`, whose null entries are `none`. The iterations of the
parallel loop store to different entries, so their order does not matter. -/
def run (c : InitWalks α) (walks : List (Option α)) : Option (List (Option α)) :=
  if c.numWalker ≤ c.maxEpochWalkerNum then
    if (walks.length : Int) < c.walkLen then
      let oldNum : Int := walks.length
      let newNum := c.walkLen - oldNum
      let resized := walks ++ List.replicate (c.walkLen.toNat - walks.length) none
      some ((List.range' walks.length (newNum - oldNum).toNat).foldl
        (fun walks i => walks.set i (some (c.alloc i))) resized)
    else some walks
  else none

/-- The effect of a call whose check passes. -/
def Call (walks : List (Option α)) (c : InitWalks α) (walks' : List (Option α)) : Prop :=
  c.run walks = some walks'

def longest (cs : List (InitWalks α)) : Nat := (cs.map (fun c => c.walkLen.toNat)).foldl max 0

/-- The arrays after a call: one for every step asked for so far, and the earlier ones kept. -/
structure Grown (asked : Nat) (walks walks' : List (Option α)) : Prop where
  size : walks'.length = asked
  allocated : ∀ i < walks'.length, ∃ array, walks'[i]? = some (some array)
  unchanged : ∀ i < walks.length, walks'[i]? = walks[i]?

theorem longest_nil : longest ([] : List (InitWalks α)) = 0 := rfl

theorem longest_concat (cs : List (InitWalks α)) (c : InitWalks α) :
    longest (cs ++ [c]) = max (longest cs) c.walkLen.toNat := by
  rw [longest,longest,List.map_append,List.foldl_append]
  rfl

section
variable (f : Nat → α) (walks : List (Option α)) (first n : Nat)

theorem length_stored : ((List.range' first n).foldl
    (fun walks i => walks.set i (some (f i))) walks).length = walks.length := by
  induction n with
  | zero => rfl
  | succ n ih =>
    rw [List.range'_1_concat,List.foldl_append,List.foldl_cons,List.foldl_nil,List.length_set,ih]

theorem getElem?_stored (i : Nat) : ((List.range' first n).foldl
    (fun walks i => walks.set i (some (f i))) walks)[i]? =
      if first ≤ i ∧ i < first + n ∧ i < walks.length then some (some (f i)) else walks[i]? := by
  induction n with
  | zero => rw [if_neg (by omega)]; rfl
  | succ n ih =>
    rw [List.range'_1_concat,List.foldl_append,List.foldl_cons,List.foldl_nil,List.getElem?_set,
      length_stored,ih]
    rcases Nat.lt_trichotomy i (first + n) with h | rfl | h <;> grind

end

section
variable {c : InitWalks α} {walks walks' : List (Option α)} (h : c.run walks = some walks')
include h

theorem length_of_run : walks'.length = max walks.length c.walkLen.toNat := by
  unfold run at h
  split_ifs at h with hcheck hgrow
  · simp only [Option.some.injEq] at h
    rw [← h,length_stored,List.length_append,List.length_replicate]
    omega
  · simp only [Option.some.injEq] at h
    rw [← h]
    omega

/-- The loop begins at the old length and ends at the difference of the two lengths. -/
theorem getElem?_of_run {i : Nat} (hi : i < walks'.length) :
    walks'[i]? = if i < walks.length then walks[i]?
      else if i < c.walkLen.toNat - walks.length then some (some (c.alloc i)) else some none := by
  have hlen := length_of_run h
  unfold run at h
  split_ifs at h with hcheck hgrow
  · simp only [Option.some.injEq] at h
    rw [← h,getElem?_stored,List.length_append,List.length_replicate]
    rcases Nat.lt_or_ge i walks.length with hold | hnew
    · rw [if_neg (by omega),if_pos hold,List.getElem?_append_left hold]
    · rw [if_neg (Nat.not_lt.mpr hnew)]
      by_cases hstored : i < c.walkLen.toNat - walks.length
      · rw [if_pos (by omega),if_pos hstored]
      · rw [if_neg (by omega),if_neg hstored,List.getElem?_append_right hnew,
          List.getElem?_replicate_of_lt (by omega)]
  · simp only [Option.some.injEq] at h
    rw [← h,if_pos (by omega)]

end

theorem length_of_exec {cs : List (InitWalks α)} {walks : List (Option α)}
    (h : Exec Call [] cs walks) : walks.length = longest cs := by
  refine h.invariant (fun cs walks => walks.length = longest cs) rfl ?_
  intro cs walks c walks' hlen hcall
  rw [length_of_run hcall,hlen,longest_concat]

/-- No entry is null. -/
def Allocated (walks : List (Option α)) : Prop :=
  ∀ i < walks.length, ∃ array, walks[i]? = some (some array)

theorem grown_iff {c : InitWalks α} {walks walks' : List (Option α)}
    (h : c.run walks = some walks') (hall : Allocated walks) :
    Grown (max walks.length c.walkLen.toNat) walks walks' ↔
      ((walks.length : Int) < c.walkLen → walks.length = 0) := by
  have hlen := length_of_run h
  constructor
  · intro hgrown hless
    by_contra hne
    obtain ⟨array,harray⟩ := hgrown.allocated (c.walkLen.toNat - 1) (by omega)
    rw [getElem?_of_run h (by omega),if_neg (by omega),if_neg (by omega)] at harray
    cases harray
  · intro hcond
    refine ⟨hlen,?_,?_⟩
    · intro i hi
      rw [getElem?_of_run h hi]
      split_ifs with hold hnew
      · exact hall i hold
      · exact ⟨_,rfl⟩
      · omega
    · intro i hi
      rw [getElem?_of_run h (by omega),if_pos hi]

section
variable {cs : List (InitWalks α)}

theorem allocated_nil {walks : List (Option α)} (h : Exec Call [] [] walks) : Allocated walks := by
  have hlen := length_of_exec h
  intro i hi
  rw [hlen,longest_nil] at hi
  cases hi

theorem allocated_of_grown
    (hgrown : ∀ before c walks walks', before ++ [c] <+: cs → Exec Call [] before walks →
      c.run walks = some walks' → Grown (longest (before ++ [c])) walks walks')
    {before : List (InitWalks α)} (hp : before <+: cs) {walks : List (Option α)}
    (h : Exec Call [] before walks) : Allocated walks := by
  rcases before.eq_nil_or_concat' with rfl | ⟨earlier,c,rfl⟩
  · exact allocated_nil h
  · obtain ⟨old,hold,hcall⟩ := h.last
    exact (hgrown earlier c old walks hp hold hcall).allocated

theorem allocated_of_lengths (hcond : ∀ before c, before ++ [c] <+: cs →
      (longest before : Int) < c.walkLen → longest before = 0)
    {before : List (InitWalks α)} (hp : before <+: cs) {walks : List (Option α)}
    (h : Exec Call [] before walks) : Allocated walks := by
  induction h with
  | start => exact allocated_nil .start
  | next hbefore hcall ih =>
    have hlen := length_of_exec hbefore
    refine ((grown_iff hcall (ih ((List.prefix_append _ _).trans hp))).mpr ?_).allocated
    rw [hlen]
    exact hcond _ _ hp

end

/-- Every step's array is allocated, and the earlier ones are kept, after each of a sequence of
calls exactly when no call asks for more than the calls before it did, unless these asked for
nothing. -/
theorem walks_grown_iff {cs : List (InitWalks α)} {last : List (Option α)}
    (h : Exec Call [] cs last) :
    (∀ before c walks walks', before ++ [c] <+: cs → Exec Call [] before walks →
        c.run walks = some walks' → Grown (longest (before ++ [c])) walks walks') ↔
      ∀ before c, before ++ [c] <+: cs →
        (longest before : Int) < c.walkLen → longest before = 0 := by
  constructor
  · intro hgrown before c hp
    obtain ⟨walks',hrun⟩ := h.of_prefix hp
    obtain ⟨walks,hbefore,hcall⟩ := hrun.last
    have hlen := length_of_exec hbefore
    have hall := allocated_of_grown hgrown ((List.prefix_append _ _).trans hp) hbefore
    have hone := hgrown before c walks walks' hp hbefore hcall
    rw [longest_concat,← hlen] at hone
    rw [← hlen]
    exact (grown_iff hcall hall).mp hone
  · intro hcond before c walks walks' hp hbefore hcall
    have hlen := length_of_exec hbefore
    have hall := allocated_of_lengths hcond ((List.prefix_append _ _).trans hp) hbefore
    rw [longest_concat,← hlen]
    refine (grown_iff hcall hall).mpr ?_
    rw [hlen]
    exact hcond before c hp

theorem walks_grown_two_two :
    let c : InitWalks Nat := ⟨10,2,20,id⟩
    ∀ before c' walks walks', before ++ [c'] <+: [c,c] → Exec Call [] before walks →
      c'.run walks = some walks' → Grown (longest (before ++ [c'])) walks walks' := by
  intro c
  have hfirst : Exec Call [] ([] ++ [c]) [some 0,some 1] := Exec.start.next rfl
  have hrun : Exec Call [] ([c] ++ [c]) [some 0,some 1] := hfirst.next rfl
  refine (walks_grown_iff hrun).mpr (fun before c' hp hless => ?_)
  rcases before with _ | ⟨c₁,_ | ⟨c₂,before⟩⟩
  · rfl
  · obtain ⟨rfl,rfl⟩ : c₁ = c ∧ c' = c := by simpa using hp
    exact absurd hless (by decide)
  · have := hp.length_le
    simp at this

/-- A walk of two steps and then one of three: the third array is never allocated. -/
theorem walks_not_grown :
    let first : InitWalks Nat := ⟨10,2,20,id⟩
    let second : InitWalks Nat := ⟨10,3,20,id⟩
    ¬∀ before c walks walks', before ++ [c] <+: [first,second] → Exec Call [] before walks →
      c.run walks = some walks' → Grown (longest (before ++ [c])) walks walks' := by
  intro first second h
  have hrun : Exec Call [] ([] ++ [first]) [some 0,some 1] := Exec.start.next rfl
  have hgrown := h [first] second [some 0,some 1] [some 0,some 1,none] (List.prefix_refl _) hrun rfl
  obtain ⟨array,harray⟩ := hgrown.allocated 2 (by decide)
  cases harray

end InitWalks

end FlashMob.Solver
