import Mathlib

namespace FlashMob.Lib.Tiling

/-- Consecutive half-open intervals from `a` to `b`; an interval may be empty. -/
def Tiles : Nat → List (Nat × Nat) → Nat → Prop
  | a, [], b => a = b
  | a, (x,y) :: l, b => x = a ∧ x ≤ y ∧ Tiles y l b

@[simp] theorem tiles_nil {a b : Nat} : Tiles a [] b ↔ a = b := Iff.rfl

@[simp] theorem tiles_cons {a b x y : Nat} {l : List (Nat × Nat)} :
    Tiles a ((x,y) :: l) b ↔ x = a ∧ x ≤ y ∧ Tiles y l b := Iff.rfl

theorem Tiles.le {a b : Nat} {l : List (Nat × Nat)} (h : Tiles a l b) : a ≤ b := by
  induction l generalizing a with
  | nil => exact Nat.le_of_eq h
  | cons r l ih =>
    obtain ⟨x,y⟩ := r
    obtain ⟨rfl,hxy,ht⟩ := h
    exact Nat.le_trans hxy (ih ht)

theorem tiles_append {a c : Nat} {l l' : List (Nat × Nat)} :
    Tiles a (l ++ l') c ↔ ∃ b, Tiles a l b ∧ Tiles b l' c := by
  induction l generalizing a with
  | nil => simp
  | cons r l ih =>
    obtain ⟨x,y⟩ := r
    simp only [List.cons_append,tiles_cons,ih]
    constructor
    · rintro ⟨h,h',b,hb,hc⟩
      exact ⟨b,⟨h,h',hb⟩,hc⟩
    · rintro ⟨b,⟨h,h',hb⟩,hc⟩
      exact ⟨h,h',b,hb,hc⟩

theorem Tiles.mem_bounds {a b : Nat} {l : List (Nat × Nat)} (h : Tiles a l b)
    {r : Nat × Nat} (hr : r ∈ l) : a ≤ r.1 ∧ r.1 ≤ r.2 ∧ r.2 ≤ b := by
  induction l generalizing a with
  | nil => simp at hr
  | cons q l ih =>
    obtain ⟨x,y⟩ := q
    obtain ⟨rfl,hxy,ht⟩ := h
    rcases List.mem_cons.mp hr with rfl | hm
    · exact ⟨Nat.le_refl _,hxy,ht.le⟩
    · obtain ⟨h1,h2,h3⟩ := ih ht hm
      exact ⟨Nat.le_trans hxy h1,h2,h3⟩

/-- The points of the intervals, in order, are the points of the tiled range. -/
theorem Tiles.flatMap_range' {a b : Nat} {l : List (Nat × Nat)} (h : Tiles a l b) :
    l.flatMap (fun r => List.range' r.1 (r.2 - r.1)) = List.range' a (b - a) := by
  induction l generalizing a with
  | nil => simp only [tiles_nil] at h; simp [h]
  | cons r l ih =>
    obtain ⟨x,y⟩ := r
    obtain ⟨rfl,hxy,ht⟩ := h
    have hyb := ht.le
    rw [List.flatMap_cons,ih ht]
    have hs : List.range' y (b - y) = List.range' (x + (y - x)) (b - y) := by
      rw [Nat.add_sub_cancel' hxy]
    rw [hs,List.range'_append_1]
    congr 1
    omega

/-- Rows that tile the intervals of a tiling tile the whole range when put in a row. -/
theorem tiles_flatten {a b : Nat} {l : List (Nat × Nat)} {rows : List (List (Nat × Nat))}
    (h : Tiles a l b) (hr : List.Forall₂ (fun r row => r.1 ≤ r.2 → Tiles r.1 row r.2) l rows) :
    Tiles a rows.flatten b := by
  induction hr generalizing a with
  | nil => exact h
  | @cons r row l rows hrow _ ih =>
    obtain ⟨x,y⟩ := r
    obtain ⟨rfl,hxy,ht⟩ := h
    rw [List.flatten_cons,tiles_append]
    exact ⟨y,hrow hxy,ih ht⟩

theorem Tiles.pairwise {a b : Nat} {l : List (Nat × Nat)} (h : Tiles a l b) :
    l.Pairwise (fun r s => r.2 ≤ s.1) := by
  induction l generalizing a with
  | nil => exact List.Pairwise.nil
  | cons r l ih =>
    obtain ⟨x,y⟩ := r
    obtain ⟨rfl,hxy,ht⟩ := h
    exact List.Pairwise.cons (fun s hs => (ht.mem_bounds hs).1) (ih ht)

/-- Every point of the range lies in exactly one interval, named by its index. -/
theorem Tiles.existsUnique_index {a b : Nat} {l : List (Nat × Nat)} (h : Tiles a l b) {v : Nat}
    (hav : a ≤ v) (hvb : v < b) :
    ∃! k : Nat, ∃ r : Nat × Nat, l[k]? = some r ∧ r.1 ≤ v ∧ v < r.2 := by
  induction l generalizing a with
  | nil => simp only [tiles_nil] at h; omega
  | cons r l ih =>
    obtain ⟨x,y⟩ := r
    obtain ⟨rfl,hxy,ht⟩ := h
    by_cases hv : v < y
    · refine ⟨0,⟨_,rfl,hav,hv⟩,?_⟩
      rintro k ⟨s,hs,h1,_⟩
      cases k with
      | zero => rfl
      | succ k =>
        have := (ht.mem_bounds (List.mem_of_getElem? hs)).1
        omega
    · obtain ⟨k,⟨s,hs,h1,h2⟩,hu⟩ := ih ht (by omega)
      refine ⟨k+1,⟨s,by simpa using hs,h1,h2⟩,?_⟩
      rintro j ⟨q,hq,hq1,hq2⟩
      cases j with
      | zero => simp only [List.getElem?_cons_zero,Option.some.injEq] at hq; subst q; omega
      | succ j => rw [hu j ⟨q,by simpa using hq,hq1,hq2⟩]

/-- The first interval that ends behind a point of the range is the one that holds it. -/
theorem Tiles.find?_end {a b : Nat} {l : List (Nat × Nat)} (h : Tiles a l b) {v : Nat}
    (hav : a ≤ v) (hvb : v < b) :
    ∃ r, l.find? (fun r => v < r.2) = some r ∧ r.1 ≤ v ∧ v < r.2 := by
  induction l generalizing a with
  | nil => simp only [tiles_nil] at h; omega
  | cons r l ih =>
    obtain ⟨x,y⟩ := r
    obtain ⟨rfl,_,ht⟩ := h
    by_cases hv : v < y
    · exact ⟨(x,y),List.find?_cons_of_pos (by simpa using hv),hav,hv⟩
    · obtain ⟨r,hr,hb⟩ := ih ht (Nat.le_of_not_lt hv)
      exact ⟨r,(List.find?_cons_of_neg (by simpa using hv)).trans hr,hb⟩

/-- Growing bounds cut their range into consecutive intervals. -/
theorem tiles_map_range {f : Nat → Nat} (hf : ∀ k, f k ≤ f (k+1)) (n : Nat) :
    Tiles (f 0) ((List.range n).map (fun k => (f k,f (k+1)))) (f n) := by
  induction n with
  | zero => rfl
  | succ n ih =>
    rw [List.range_succ,List.map_append,tiles_append]
    exact ⟨f n,ih,rfl,hf n,rfl⟩

/-- Intervals cut off at a point tile the range cut off there. -/
theorem Tiles.cut {a b : Nat} {l : List (Nat × Nat)} (h : Tiles a l b) (c : Nat) :
    Tiles (min a c) (l.map (fun r => (min r.1 c,min r.2 c))) (min b c) := by
  induction l generalizing a with
  | nil => rw [tiles_nil.mp h]; rfl
  | cons r l ih =>
    obtain ⟨x,y⟩ := r
    obtain ⟨rfl,hxy,ht⟩ := h
    exact ⟨rfl,min_le_min_right c hxy,ih ht⟩

theorem Tiles.first_eq {a b : Nat} {l : List (Nat × Nat)} (h : Tiles a l b) :
    ∀ m, (hm : m < l.length) → l[m].1 = if m = 0 then a else (l.getD (m-1) (0,0)).2 := by
  induction l generalizing a with
  | nil => intro m hm; simp at hm
  | cons r l ih =>
    obtain ⟨x,y⟩ := r
    obtain ⟨rfl,_,ht⟩ := h
    intro m hm
    cases m with
    | zero => rfl
    | succ m =>
      have hm' : m < l.length := by simpa using hm
      have h' := ih ht m hm'
      cases m with
      | zero => simpa using h'
      | succ m => simpa using h'

/-- How many intervals hold `w`: one inside the range, none outside. -/
theorem Tiles.sum_indicator {a b : Nat} {l : List (Nat × Nat)} (h : Tiles a l b) (w : Nat) :
    (l.map (fun r => if r.1 ≤ w ∧ w < r.2 then 1 else 0)).sum =
      if a ≤ w ∧ w < b then 1 else 0 := by
  induction l generalizing a with
  | nil => simp only [tiles_nil] at h; subst h; simp
  | cons r l ih =>
    obtain ⟨x,y⟩ := r
    obtain ⟨rfl,hxy,ht⟩ := h
    have hyb := ht.le
    rw [List.map_cons,List.sum_cons,ih ht]
    split_ifs <;> omega

end FlashMob.Lib.Tiling
