import Mathlib

namespace FlashMob.Lib.Keyed

section
variable {α κ : Type} [LinearOrder κ] {key : α → κ} {x y : α} {l : List α}

/-- Insertion in the order of the keys. A key that is there keeps its element. -/
def insertKey (key : α → κ) (x : α) : List α → List α
  | [] => [x]
  | y :: l =>
    if key x < key y then x :: y :: l
    else if key y < key x then y :: insertKey key x l
    else y :: l

theorem mem_insertKey_of_new (hnew : ∀ z ∈ l, key z ≠ key x) :
    y ∈ insertKey key x l ↔ y = x ∨ y ∈ l := by
  induction l with
  | nil => simp [insertKey]
  | cons z l ih =>
    have hz := hnew z List.mem_cons_self
    have htail := ih (fun w hw => hnew w (List.mem_cons_of_mem _ hw))
    rw [insertKey]
    split_ifs with hlt hgt
    · exact List.mem_cons
    · rw [List.mem_cons,htail,List.mem_cons]
      exact or_left_comm
    · exact absurd (le_antisymm (not_lt.mp hlt) (not_lt.mp hgt)) hz

theorem mem_or_of_mem_insertKey (h : y ∈ insertKey key x l) : y = x ∨ y ∈ l := by
  induction l with
  | nil => exact Or.inl (List.mem_singleton.mp h)
  | cons z l ih =>
    rw [insertKey] at h
    split_ifs at h
    · exact List.mem_cons.mp h
    · rcases List.mem_cons.mp h with rfl | h
      · exact Or.inr List.mem_cons_self
      · exact (ih h).imp_right (List.mem_cons_of_mem _)
    · exact Or.inr h

theorem insertKey_sorted (hs : l.Pairwise (fun a b => key a < key b)) :
    (insertKey key x l).Pairwise (fun a b => key a < key b) := by
  induction l with
  | nil => exact List.pairwise_singleton _ _
  | cons z l ih =>
    obtain ⟨hz,htail⟩ := List.pairwise_cons.mp hs
    rw [insertKey]
    split_ifs with hlt hgt
    · refine List.pairwise_cons.mpr ⟨fun w hw => ?_,hs⟩
      rcases List.mem_cons.mp hw with rfl | hw
      · exact hlt
      · exact lt_trans hlt (hz w hw)
    · refine List.pairwise_cons.mpr ⟨fun w hw => ?_,ih htail⟩
      rcases mem_or_of_mem_insertKey hw with rfl | hw
      · exact hgt
      · exact hz w hw
    · exact hs

theorem insertKey_last (h : ∀ z ∈ l, key z < key x) : insertKey key x l = l ++ [x] := by
  induction l with
  | nil => rfl
  | cons z l ih =>
    have hz := h z List.mem_cons_self
    rw [insertKey,if_neg (not_lt_of_gt hz),if_pos hz,
      ih (fun w hw => h w (List.mem_cons_of_mem _ hw))]
    rfl

/-- An ordered set with one element at most for a key. -/
structure KeySet (key : α → κ) where
  items : List α
  sorted : items.Pairwise (fun a b => key a < key b)

namespace KeySet

def empty : KeySet key := ⟨[],List.Pairwise.nil⟩

def insert (s : KeySet key) (x : α) : KeySet key := ⟨insertKey key x s.items,insertKey_sorted s.sorted⟩

def has (s : KeySet key) (k : κ) : Bool := s.items.any (fun y => decide (key y = k))

variable {s t : KeySet key} {k : κ}

theorem has_iff : s.has k = true ↔ ∃ y ∈ s.items, key y = k := by
  simp only [has,List.any_eq_true,decide_eq_true_eq]

theorem ext_items (h : s.items = t.items) : s = t := by
  obtain ⟨_,_⟩ := s
  obtain ⟨_,_⟩ := t
  obtain rfl := h
  rfl

/-- The elements determine the set. -/
theorem ext_mem (h : ∀ y, y ∈ s.items ↔ y ∈ t.items) : s = t := by
  have hnodup : ∀ u : KeySet key, u.items.Nodup := fun u =>
    u.sorted.imp (fun {a b} hab (he : a = b) => lt_irrefl (key b) (he ▸ hab))
  refine ext_items (List.Perm.eq_of_pairwise (fun a b _ _ hab hba => ?_) s.sorted t.sorted
    ((List.perm_ext_iff_of_nodup (hnodup s) (hnodup t)).mpr h))
  exact absurd hba (not_lt_of_gt hab)

theorem mem_insert_of_new (h : s.has (key x) = false) :
    y ∈ (s.insert x).items ↔ y = x ∨ y ∈ s.items :=
  mem_insertKey_of_new (fun z hz hk => by
    rw [has_iff.mpr ⟨z,hz,hk⟩] at h
    cases h)

/-- The set of the elements of a list, inserted one after the other. -/
def ofList (key : α → κ) (l : List α) : KeySet key := l.foldl insert empty

theorem ofList_sorted (hs : l.Pairwise (fun a b => key a < key b)) : (ofList key l).items = l := by
  induction l using List.reverseRecOn with
  | nil => rfl
  | append_singleton l x ih =>
    obtain ⟨htail,_,hx⟩ := List.pairwise_append.mp hs
    rw [ofList,List.foldl_append]
    change insertKey key x (ofList key l).items = _
    rw [ih htail]
    exact insertKey_last (fun z hz => hx z hz x (List.mem_singleton_self x))

end KeySet

end

section
variable {κ β : Type} [LinearOrder κ] {k k' : κ} {x : β} {table : List (κ × List β)}

/-- One more value under a key of a table that is sorted by its keys. -/
def pushBack (k : κ) (x : β) : List (κ × List β) → List (κ × List β)
  | [] => [(k,[x])]
  | e :: table =>
    if k < e.1 then (k,[x]) :: e :: table
    else if e.1 < k then e :: pushBack k x table
    else (e.1,e.2 ++ [x]) :: table

/-- The values under a key. -/
def valuesAt (k : κ) : List (κ × List β) → List β
  | [] => []
  | e :: table => if e.1 = k then e.2 else valuesAt k table

/-- A table in the order of its keys, with values under each of them. -/
structure Grouped (table : List (κ × List β)) : Prop where
  sorted : table.Pairwise (fun a b => a.1 < b.1)
  nonempty : ∀ e ∈ table, e.2 ≠ []

theorem Grouped.nil : Grouped ([] : List (κ × List β)) :=
  ⟨List.Pairwise.nil,fun _ he => absurd he List.not_mem_nil⟩

theorem valuesAt_of_lt (h : ∀ e ∈ table, k < e.1) : valuesAt k table = [] := by
  induction table with
  | nil => rfl
  | cons e table ih =>
    rw [valuesAt,if_neg (ne_of_gt (h e List.mem_cons_self)),
      ih (fun f hf => h f (List.mem_cons_of_mem _ hf))]

theorem Grouped.mem_iff (h : Grouped table) {e : κ × List β} :
    e ∈ table ↔ valuesAt e.1 table = e.2 ∧ e.2 ≠ [] := by
  obtain ⟨hs,hne⟩ := h
  induction table with
  | nil => exact ⟨fun he => absurd he List.not_mem_nil,fun he => absurd he.1.symm he.2⟩
  | cons f table ih =>
    obtain ⟨hf,hs⟩ := List.pairwise_cons.mp hs
    rw [List.mem_cons,ih hs (fun g hg => hne g (List.mem_cons_of_mem _ hg)),valuesAt]
    by_cases hk : f.1 = e.1
    · rw [if_pos hk,valuesAt_of_lt (fun g hg => hk ▸ hf g hg)]
      constructor
      · rintro (rfl | ⟨h0,hne0⟩)
        · exact ⟨rfl,hne _ List.mem_cons_self⟩
        · exact absurd h0.symm hne0
      · rintro ⟨h2,_⟩
        exact Or.inl (Prod.ext hk.symm h2.symm)
    · rw [if_neg hk,or_iff_right]
      rintro rfl
      exact hk rfl

theorem mem_keys_of_mem_pushBack {e : κ × List β} (h : e ∈ pushBack k x table) :
    e.1 = k ∨ ∃ f ∈ table, e.1 = f.1 := by
  induction table with
  | nil => exact Or.inl (congrArg Prod.fst (List.mem_singleton.mp h))
  | cons f table ih =>
    rw [pushBack] at h
    split_ifs at h
    · rcases List.mem_cons.mp h with rfl | h
      · exact Or.inl rfl
      · exact Or.inr ⟨e,h,rfl⟩
    · rcases List.mem_cons.mp h with rfl | h
      · exact Or.inr ⟨e,List.mem_cons_self,rfl⟩
      · exact (ih h).imp_right (fun ⟨g,hg,he⟩ => ⟨g,List.mem_cons_of_mem _ hg,he⟩)
    · rcases List.mem_cons.mp h with rfl | h
      · exact Or.inr ⟨f,List.mem_cons_self,rfl⟩
      · exact Or.inr ⟨e,List.mem_cons_of_mem _ h,rfl⟩

theorem Grouped.pushBack (h : Grouped table) (k : κ) (x : β) : Grouped (pushBack k x table) := by
  obtain ⟨hs,hne⟩ := h
  induction table with
  | nil => exact ⟨List.pairwise_singleton _ _,fun e he => by
      rw [List.mem_singleton.mp he]
      exact List.cons_ne_nil _ _⟩
  | cons f table ih =>
    obtain ⟨hf,htail⟩ := List.pairwise_cons.mp hs
    obtain ⟨ihs,ihne⟩ := ih htail (fun g hg => hne g (List.mem_cons_of_mem _ hg))
    rw [Keyed.pushBack]
    split_ifs with hlt hgt
    · refine ⟨List.pairwise_cons.mpr ⟨fun g hg => ?_,hs⟩,fun e he => ?_⟩
      · rcases List.mem_cons.mp hg with rfl | hg
        · exact hlt
        · exact lt_trans hlt (hf g hg)
      · rcases List.mem_cons.mp he with rfl | he
        · exact List.cons_ne_nil _ _
        · exact hne e he
    · refine ⟨List.pairwise_cons.mpr ⟨fun g hg => ?_,ihs⟩,fun e he => ?_⟩
      · rcases mem_keys_of_mem_pushBack hg with hk | ⟨g',hg',hk⟩
        · exact hk ▸ hgt
        · exact hk ▸ hf g' hg'
      · rcases List.mem_cons.mp he with rfl | he
        · exact hne _ List.mem_cons_self
        · exact ihne e he
    · refine ⟨List.pairwise_cons.mpr ⟨hf,htail⟩,fun e he => ?_⟩
      rcases List.mem_cons.mp he with rfl | he
      · simp
      · exact hne e (List.mem_cons_of_mem _ he)

theorem valuesAt_pushBack (hs : table.Pairwise (fun a b => a.1 < b.1)) :
    valuesAt k' (pushBack k x table) = valuesAt k' table ++ if k = k' then [x] else [] := by
  induction table with
  | nil =>
    rw [pushBack,valuesAt,valuesAt]
    rfl
  | cons f table ih =>
    obtain ⟨hf,htail⟩ := List.pairwise_cons.mp hs
    rw [pushBack]
    split_ifs with hlt hk hgt hk hk
    · have hnone : valuesAt k' (f :: table) = [] := valuesAt_of_lt (fun g hg => by
        rcases List.mem_cons.mp hg with rfl | hg
        · exact hk ▸ hlt
        · exact lt_trans (hk ▸ hlt) (hf g hg))
      rw [hnone,valuesAt,if_pos hk,List.nil_append]
    · rw [valuesAt,if_neg hk,List.append_nil]
    · rw [valuesAt,valuesAt,if_neg (hk ▸ ne_of_lt hgt),if_neg (hk ▸ ne_of_lt hgt),ih htail,
        if_pos hk]
    · rw [valuesAt,valuesAt,ih htail,if_neg hk,List.append_nil,List.append_nil]
    · have he : f.1 = k' := hk ▸ le_antisymm (not_lt.mp hlt) (not_lt.mp hgt)
      rw [valuesAt,valuesAt,if_pos he,if_pos he]
    · have he : f.1 ≠ k' := fun he => hk (he ▸ le_antisymm (not_lt.mp hgt) (not_lt.mp hlt))
      rw [valuesAt,valuesAt,if_neg he,if_neg he,List.append_nil]

end

end FlashMob.Lib.Keyed
