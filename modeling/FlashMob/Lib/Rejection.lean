import Mathlib.Algebra.Order.BigOperators.Ring.Finset
import Mathlib.Algebra.Order.Field.Basic
import Mathlib.Data.Fin.Tuple.Basic
import Mathlib.Data.Set.Card
import Mathlib.Data.Set.Finite.Lattice
import Mathlib.Logic.Function.Basic
import Mathlib.Tactic.FieldSimp
import Mathlib.Tactic.Ring

namespace FlashMob.Lib.Rejection

section
variable {α β : Type}

/-- The outcome of the first attempt that has one. -/
def first (f : α → Option β) {n : Nat} (x : Fin n → α) : Option β := (List.ofFn x).findSome? f

theorem first_zero (f : α → Option β) (x : Fin 0 → α) : first f x = none := by
  rw [first,List.ofFn_zero,List.findSome?_nil]

theorem first_cons (f : α → Option β) {n : Nat} (a : α) (x : Fin n → α) :
    first f (Fin.cons a x : Fin (n + 1) → α) = (f a).or (first f x) := by
  rw [first,List.ofFn_cons,List.findSome?_cons,first]
  cases f a <;> rfl

/-- The attempts that begin in `s` and go on in `t`. -/
def consSet {n : Nat} (s : Set α) (t : Set (Fin n → α)) : Set (Fin (n + 1) → α) :=
  { x | x 0 ∈ s ∧ (fun i : Fin n => x i.succ) ∈ t }

theorem ncard_consSet {n : Nat} (s : Set α) (t : Set (Fin n → α)) :
    (consSet s t).ncard = s.ncard * t.ncard := by
  rw [← Set.ncard_prod]
  have himage : consSet s t =
      Set.image (fun q : α × (Fin n → α) => (Fin.cons q.1 q.2 : Fin (n + 1) → α)) (s ×ˢ t) := by
    ext x
    constructor
    · rintro ⟨hs,ht⟩
      exact ⟨(x 0,fun i => x i.succ),⟨hs,ht⟩,Fin.cons_self_tail x⟩
    · rintro ⟨⟨a,y⟩,⟨hs,ht⟩,rfl⟩
      exact ⟨hs,ht⟩
  rw [himage]
  refine Set.ncard_image_of_injective _ (fun q q' h => ?_)
  obtain ⟨ha,hx⟩ := Fin.cons_injective2 h
  exact Prod.ext ha hx

theorem first_tail (f : α → Option β) {n : Nat} (x : Fin (n + 1) → α) :
    first f x = (f (x 0)).or (first f (fun i : Fin n => x i.succ)) := by
  rw [← first_cons f (x 0)]
  exact congrArg (first f) (Fin.cons_self_tail x).symm

/-- Of `n` attempts one has an outcome: the `rejected` come before it, and any attempts after it. -/
def around (all rejected : Nat) : Nat → Nat
  | 0 => 0
  | n+1 => all ^ n + rejected * around all rejected n

theorem around_pos {all n : Nat} (hall : 0 < all) (hn : 0 < n) (rejected : Nat) :
    0 < around all rejected n := by
  cases n with
  | zero => cases hn
  | succ n => exact Nat.add_pos_left (Nat.pow_pos hall) _

variable (f : α → Option β)

/-- Without an outcome all attempts were rejected. -/
theorem ncard_rejected (n : Nat) : Set.ncard { x : Fin n → α | first f x = none } =
    Set.ncard { a | f a = none } ^ n := by
  induction n with
  | zero =>
    have hall : { x : Fin 0 → α | first f x = none } = Set.univ :=
      Set.eq_univ_of_forall (fun x => first_zero f x)
    rw [hall,Set.ncard_univ,pow_zero,Nat.card_unique]
  | succ n ih =>
    have hset : { x : Fin (n + 1) → α | first f x = none } =
        consSet { a | f a = none } { x | first f x = none } := by
      ext x
      simp only [Set.mem_ofPred_eq,consSet,first_tail,Option.or_eq_none_iff]
    rw [hset,ncard_consSet,ih,pow_succ']

/-- The outcomes of up to `n` attempts are spread as those of one attempt. -/
theorem ncard_first [Finite α] (y : β) (n : Nat) :
    Set.ncard { x : Fin n → α | first f x = some y } =
      Set.ncard { a | f a = some y } * around (Nat.card α) (Set.ncard { a | f a = none }) n := by
  induction n with
  | zero =>
    have hnone : { x : Fin 0 → α | first f x = some y } = ∅ := by
      refine Set.eq_empty_of_forall_notMem (fun x hx => ?_)
      exact Option.some_ne_none y (hx.symm.trans (first_zero f x))
    rw [hnone,Set.ncard_empty,around,Nat.mul_zero]
  | succ n ih =>
    -- The first attempt has the outcome, or it is rejected and one of the others has it.
    have hset : { x : Fin (n + 1) → α | first f x = some y } =
        consSet { a | f a = some y } Set.univ ∪
          consSet { a | f a = none } { x | first f x = some y } := by
      ext x
      simp only [Set.mem_union,Set.mem_ofPred_eq,consSet,first_tail,Option.or_eq_some_iff,
        Set.mem_univ,and_true]
    have hdisjoint : Disjoint (consSet (n := n) { a | f a = some y } Set.univ)
        (consSet { a | f a = none } { x | first f x = some y }) := by
      rw [Set.disjoint_left]
      rintro x ⟨hsome,_⟩ ⟨hnone,_⟩
      exact Option.some_ne_none y (hsome.symm.trans hnone)
    rw [hset,Set.ncard_union_eq hdisjoint (Set.toFinite _) (Set.toFinite _),ncard_consSet,
      ncard_consSet,ih,Set.ncard_univ,Nat.card_pi,Finset.prod_const,Finset.card_univ,
      Fintype.card_fin,around]
    ring

/-- The arguments with an outcome, counted by the outcomes. -/
theorem ncard_isSome [Finite α] {s : Finset β} (hs : ∀ a y, f a = some y → y ∈ s) :
    Set.ncard { a | (f a).isSome = true } = ∑ y ∈ s, Set.ncard { a | f a = some y } := by
  classical
  have hcover : ∀ t : Finset β, Set.ncard { a | ∃ y ∈ t, f a = some y } =
      ∑ y ∈ t, Set.ncard { a | f a = some y } := by
    intro t
    induction t using Finset.induction_on with
    | empty => simp
    | insert y t hy ih =>
      have hset : { a | ∃ z ∈ insert y t, f a = some z } =
          { a | f a = some y } ∪ { a | ∃ z ∈ t, f a = some z } := by
        ext a
        simp only [Set.mem_ofPred_eq,Set.mem_union,Finset.exists_mem_insert]
      have hdisjoint : Disjoint { a | f a = some y } { a | ∃ z ∈ t, f a = some z } := by
        rw [Set.disjoint_left]
        rintro a ha ⟨z,hz,haz⟩
        exact hy (Option.some.inj (ha.symm.trans haz) ▸ hz)
      rw [hset,Set.ncard_union_eq hdisjoint (Set.toFinite _) (Set.toFinite _),ih,
        Finset.sum_insert hy]
  rw [← hcover]
  congr 1
  ext a
  simp only [Set.mem_ofPred_eq,Option.isSome_iff_exists]
  constructor
  · rintro ⟨y,hy⟩
    exact ⟨y,hs a y hy,hy⟩
  · rintro ⟨y,_,hy⟩
    exact ⟨y,hy⟩

end

section
variable {κ α : Type} {n : Nat}

/-- Pairs of different cells of a table. -/
structure Apart (cells : Fin n → κ × κ) : Prop where
  left : Function.Injective (fun i => (cells i).1)
  right : Function.Injective (fun i => (cells i).2)
  apart : ∀ i j, (cells i).1 ≠ (cells j).2

/-- The table with new entries in some pairs of cells. -/
noncomputable def assign (table : κ → α) (cells : Fin n → κ × κ) (x : Fin n → α × α) : κ → α :=
  Function.extend (fun i => (cells i).1) (fun i => (x i).1)
    (Function.extend (fun i => (cells i).2) (fun i => (x i).2) table)

theorem assign_left {cells : Fin n → κ × κ} (h : Apart cells) (table : κ → α) (x : Fin n → α × α)
    (i : Fin n) : assign table cells x (cells i).1 = (x i).1 := h.left.extend_apply _ _ i

theorem assign_right {cells : Fin n → κ × κ} (h : Apart cells) (table : κ → α) (x : Fin n → α × α)
    (i : Fin n) : assign table cells x (cells i).2 = (x i).2 := by
  rw [assign,Function.extend_apply']
  · exact h.right.extend_apply _ _ i
  · rintro ⟨j,hj⟩
    exact h.apart j i hj

theorem assign_other {cells : Fin n → κ × κ} {k : κ} (hk : ∀ i, (cells i).1 ≠ k ∧ (cells i).2 ≠ k)
    (table : κ → α) (x : Fin n → α × α) : assign table cells x k = table k := by
  rw [assign,Function.extend_apply' _ _ _ (fun ⟨i,hi⟩ => (hk i).1 hi),
    Function.extend_apply' _ _ _ (fun ⟨i,hi⟩ => (hk i).2 hi)]

theorem Apart.cons {cells : Fin n → κ × κ} (h : Apart cells) {c : κ × κ} (hc : c.1 ≠ c.2)
    (hfirst : ∀ i, (cells i).1 ≠ c.1 ∧ (cells i).1 ≠ c.2)
    (hsecond : ∀ i, (cells i).2 ≠ c.1 ∧ (cells i).2 ≠ c.2) :
    Apart (Fin.cons c cells : Fin (n + 1) → κ × κ) := by
  refine ⟨fun i j hij => ?_,fun i j hij => ?_,fun i j => ?_⟩
  · cases i using Fin.cases with
    | zero => cases j using Fin.cases with
      | zero => rfl
      | succ j => exact absurd hij.symm (hfirst j).1
    | succ i => cases j using Fin.cases with
      | zero => exact absurd hij (hfirst i).1
      | succ j => exact congrArg Fin.succ (h.left hij)
  · cases i using Fin.cases with
    | zero => cases j using Fin.cases with
      | zero => rfl
      | succ j => exact absurd hij.symm (hsecond j).2
    | succ i => cases j using Fin.cases with
      | zero => exact absurd hij (hsecond i).2
      | succ j => exact congrArg Fin.succ (h.right hij)
  · cases i using Fin.cases with
    | zero => cases j using Fin.cases with
      | zero => exact hc
      | succ j => exact Ne.symm (hsecond j).1
    | succ i => cases j using Fin.cases with
      | zero => exact (hfirst i).2
      | succ j => exact h.apart i j

end

section
variable {β K : Type} [Field K] [LinearOrder K] [IsStrictOrderedRing K]

/-- Counts that follow weights up to a factor follow their shares up to this factor. -/
theorem share_close {s : Finset β} {count weight : β → K} {lo hi : K} (hlo : 0 < lo) (hhi : 0 ≤ hi)
    (hcount : ∀ z ∈ s, lo * weight z ≤ count z ∧ count z ≤ hi * weight z)
    (hweight : ∀ z ∈ s, 0 ≤ weight z) (hsum : 0 < ∑ z ∈ s, weight z) {y : β} (hy : y ∈ s) :
    count y ≤ hi / lo * (weight y / (∑ z ∈ s, weight z) * ∑ z ∈ s, count z) ∧
      weight y / (∑ z ∈ s, weight z) * ∑ z ∈ s, count z ≤ hi / lo * count y := by
  have hall : lo * ∑ z ∈ s, weight z ≤ ∑ z ∈ s, count z ∧
      ∑ z ∈ s, count z ≤ hi * ∑ z ∈ s, weight z := by
    rw [Finset.mul_sum,Finset.mul_sum]
    exact ⟨Finset.sum_le_sum (fun z hz => (hcount z hz).1),
      Finset.sum_le_sum (fun z hz => (hcount z hz).2)⟩
  have hshare : 0 ≤ weight y / ∑ z ∈ s, weight z := div_nonneg (hweight y hy) hsum.le
  have hwhole : ∀ x : K, weight y / (∑ z ∈ s, weight z) * (x * ∑ z ∈ s, weight z) = x * weight y := by
    intro x
    field_simp
  have hfactor : ∀ x : K, hi / lo * (lo * x) = hi * x := by
    intro x
    field_simp
  have hlow := mul_le_mul_of_nonneg_left hall.1 hshare
  have hhigh := mul_le_mul_of_nonneg_left hall.2 hshare
  rw [hwhole] at hlow hhigh
  constructor
  · calc count y ≤ hi * weight y := (hcount y hy).2
      _ = hi / lo * (lo * weight y) := (hfactor _).symm
      _ ≤ _ := mul_le_mul_of_nonneg_left hlow (div_nonneg hhi hlo.le)
  · calc _ ≤ hi * weight y := hhigh
      _ = hi / lo * (lo * weight y) := (hfactor _).symm
      _ ≤ hi / lo * count y :=
        mul_le_mul_of_nonneg_left (hcount y hy).1 (div_nonneg hhi hlo.le)

end

end FlashMob.Lib.Rejection
