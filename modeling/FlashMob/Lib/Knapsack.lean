import Mathlib

namespace FlashMob.Lib.Knapsack

variable {ι K : Type*}

/-- One item of each group. -/
def Choice (xs : List ι) (gs : List (List ι)) : Prop := List.Forall₂ (· ∈ ·) xs gs

theorem choice_concat {xs : List ι} {gs : List (List ι)} {g : List ι} :
    Choice xs (gs ++ [g]) ↔ ∃ ys y, xs = ys ++ [y] ∧ Choice ys gs ∧ y ∈ g := by
  constructor
  · intro h
    induction gs generalizing xs with
    | nil =>
      cases h with
      | cons hm ht =>
        cases ht
        exact ⟨[],_,rfl,.nil,hm⟩
    | cons g' gs ih =>
      cases h with
      | cons hm ht =>
        obtain ⟨ys,y,rfl,hc,hy⟩ := ih ht
        exact ⟨_ :: ys,y,rfl,.cons hm hc,hy⟩
  · intro h
    obtain ⟨ys,y,rfl,hc,hy⟩ := h
    exact List.rel_append hc (.cons hy .nil)

/-- A member of one of two related lists has its partner in the other. -/
theorem partner_right {α β : Type*} {R : α → β → Prop} {xs : List α} {ys : List β}
    (h : List.Forall₂ R xs ys) {x : α} (hx : x ∈ xs) : ∃ y ∈ ys, R x y := by
  induction h with
  | nil => exact absurd hx List.not_mem_nil
  | cons hr _ ih =>
    rcases List.mem_cons.mp hx with rfl | hx
    · exact ⟨_,List.mem_cons_self,hr⟩
    · obtain ⟨y,hy,hxy⟩ := ih hx
      exact ⟨y,List.mem_cons_of_mem _ hy,hxy⟩

theorem partner_left {α β : Type*} {R : α → β → Prop} {xs : List α} {ys : List β}
    (h : List.Forall₂ R xs ys) {y : β} (hy : y ∈ ys) : ∃ x ∈ xs, R x y :=
  partner_right h.flip hy

variable [AddCommGroup K] [LinearOrder K] (w : ι → Nat) (c : ι → K)

/-- The least cost of a choice within a budget; `none` when no choice is within it. -/
def Best (gs : List (List ι)) (p : Nat) : Option K → Prop
  | none => ∀ xs, Choice xs gs → p < (xs.map w).sum
  | some v => (∃ xs, Choice xs gs ∧ (xs.map w).sum ≤ p ∧ (xs.map c).sum = v) ∧
      ∀ xs, Choice xs gs → (xs.map w).sum ≤ p → v ≤ (xs.map c).sum

/-- One comparison of the recurrence: an item of cost `t` after the best for the earlier groups. -/
def relax (t : K) : Option K → Option K → Option K
  | none, cur => cur
  | some u, none => some (u + t)
  | some u, some v => if u + t < v then some (u + t) else some v

variable {w c} {gs : List (List ι)} {g : List ι} {x : ι} {p : Nat}

theorem best_nil (p : Nat) : Best w c [] p (some 0) := by
  refine ⟨⟨[],.nil,Nat.zero_le _,rfl⟩,?_⟩
  intro xs h _
  cases h
  exact le_refl _

/-- Before any item of the last group is looked at there is no choice. -/
theorem best_empty_group (p : Nat) : Best w c (gs ++ [[]]) p none := by
  intro xs h
  obtain ⟨ys,y,_,_,hy⟩ := choice_concat.mp h
  exact absurd hy List.not_mem_nil

theorem choice_snoc {xs : List ι} (h : Choice xs (gs ++ [g ++ [x]])) :
    Choice xs (gs ++ [g]) ∨ ∃ ys, xs = ys ++ [x] ∧ Choice ys gs := by
  obtain ⟨ys,y,rfl,hc,hy⟩ := choice_concat.mp h
  rcases List.mem_append.mp hy with hy | hy
  · exact Or.inl (choice_concat.mpr ⟨ys,y,rfl,hc,hy⟩)
  · rw [List.mem_singleton.mp hy]
    exact Or.inr ⟨ys,rfl,hc⟩

theorem choice_widen {xs : List ι} (h : Choice xs (gs ++ [g])) :
    Choice xs (gs ++ [g ++ [x]]) := by
  obtain ⟨ys,y,rfl,hc,hy⟩ := choice_concat.mp h
  exact choice_concat.mpr ⟨ys,y,rfl,hc,List.mem_append_left _ hy⟩

/-- An item heavier than the budget changes nothing. -/
theorem best_skip {o : Option K} (hw : p < w x) (h : Best w c (gs ++ [g]) p o) :
    Best w c (gs ++ [g ++ [x]]) p o := by
  have hheavy : ∀ ys : List ι, p < ((ys ++ [x]).map w).sum := by
    intro ys
    simp only [List.map_append,List.map_cons,List.map_nil,List.sum_append,List.sum_singleton]
    omega
  cases o with
  | none =>
    intro xs hx
    rcases choice_snoc hx with hx | ⟨ys,rfl,_⟩
    · exact h xs hx
    · exact hheavy ys
  | some v =>
    obtain ⟨⟨xs,hc,hle,hv⟩,hmin⟩ := h
    refine ⟨⟨xs,choice_widen hc,hle,hv⟩,?_⟩
    intro ys hy hle'
    rcases choice_snoc hy with hy | ⟨zs,rfl,_⟩
    · exact hmin ys hy hle'
    · have := hheavy zs
      omega

/-- The recurrence: the best with one more item in the last group. -/
theorem best_relax [IsOrderedAddMonoid K] {cur prev : Option K} (hw : w x ≤ p) (hcur : Best w c (gs ++ [g]) p cur)
    (hprev : Best w c gs (p - w x) prev) :
    Best w c (gs ++ [g ++ [x]]) p (relax (c x) prev cur) := by
  have hsum : ∀ ys : List ι, ((ys ++ [x]).map w).sum = (ys.map w).sum + w x := by
    intro ys; simp
  have hcost : ∀ ys : List ι, ((ys ++ [x]).map c).sum = (ys.map c).sum + c x := by
    intro ys; simp
  cases prev with
  | none =>
    -- No choice of the earlier groups leaves room for the item.
    have hno : ∀ ys, Choice ys gs → p < ((ys ++ [x]).map w).sum := by
      intro ys hy
      have := hprev ys hy
      rw [hsum]
      omega
    cases cur with
    | none =>
      intro xs hx
      rcases choice_snoc hx with hx | ⟨ys,rfl,hy⟩
      · exact hcur xs hx
      · exact hno ys hy
    | some v =>
      obtain ⟨⟨xs,hc,hle,hv⟩,hmin⟩ := hcur
      refine ⟨⟨xs,choice_widen hc,hle,hv⟩,?_⟩
      intro zs hz hle'
      rcases choice_snoc hz with hz | ⟨ys,rfl,hy⟩
      · exact hmin zs hz hle'
      · have := hno ys hy
        omega
  | some u =>
    obtain ⟨⟨ys,hyc,hyle,hyu⟩,hymin⟩ := hprev
    have hnew : ∃ xs, Choice xs (gs ++ [g ++ [x]]) ∧ (xs.map w).sum ≤ p ∧
        (xs.map c).sum = u + c x := by
      refine ⟨ys ++ [x],choice_concat.mpr ⟨ys,x,rfl,hyc,by simp⟩,?_,by rw [hcost,hyu]⟩
      rw [hsum]
      omega
    have hlower : ∀ zs, Choice zs gs → ((zs ++ [x]).map w).sum ≤ p →
        u + c x ≤ ((zs ++ [x]).map c).sum := by
      intro zs hz hle
      rw [hsum] at hle
      rw [hcost]
      exact add_le_add_left (hymin zs hz (by omega)) _
    cases cur with
    | none =>
      refine ⟨hnew,?_⟩
      intro xs hx hle
      rcases choice_snoc hx with hx | ⟨zs,rfl,hz⟩
      · have := hcur xs hx
        omega
      · exact hlower zs hz hle
    | some v =>
      obtain ⟨⟨xs,hc,hle,hv⟩,hmin⟩ := hcur
      simp only [relax]
      by_cases hlt : u + c x < v
      · rw [if_pos hlt]
        refine ⟨hnew,?_⟩
        intro zs hz hle'
        rcases choice_snoc hz with hz | ⟨ys,rfl,hy⟩
        · exact le_trans (le_of_lt hlt) (hmin zs hz hle')
        · exact hlower ys hy hle'
      · rw [if_neg hlt]
        refine ⟨⟨xs,choice_widen hc,hle,hv⟩,?_⟩
        intro zs hz hle'
        rcases choice_snoc hz with hz | ⟨ys,rfl,hy⟩
        · exact hmin zs hz hle'
        · exact le_trans (not_lt.mp hlt) (hlower ys hy hle')

/-- What fits a budget fits a larger one. -/
theorem best_mono {v : K} {q : Nat} (hpq : p ≤ q) (h : Best w c gs p (some v))
    (hq : Best w c gs q none) : False := by
  obtain ⟨⟨xs,hc,hle,_⟩,_⟩ := h
  have := hq xs hc
  omega

end FlashMob.Lib.Knapsack
