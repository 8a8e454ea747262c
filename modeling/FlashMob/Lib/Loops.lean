import Mathlib

namespace FlashMob.Lib.Loops

variable {α β : Type*}

/-- A loop that stops at the first failure has a result for every item, or none at all. -/
theorem mapM_eq_some_iff {f : α → Option β} {l : List α} {l' : List β} :
    l.mapM f = some l' ↔ List.Forall₂ (fun a b => f a = some b) l l' := by
  induction l generalizing l' with
  | nil => simp [eq_comm]
  | cons a l ih =>
    rw [List.mapM_cons,List.forall₂_cons_left_iff]
    constructor
    · intro h
      obtain ⟨b,hb,h⟩ := Option.bind_eq_some_iff.mp h
      obtain ⟨bs,hbs,h⟩ := Option.bind_eq_some_iff.mp h
      exact ⟨b,bs,hb,ih.mp hbs,(Option.some.inj h).symm⟩
    · rintro ⟨b,bs,hb,hbs,rfl⟩
      rw [hb,ih.mpr hbs]
      rfl

theorem mapM_eq_map {f : α → Option β} {f' : α → β} {l : List α}
    (h : ∀ a ∈ l, f a = some (f' a)) : l.mapM f = some (l.map f') :=
  mapM_eq_some_iff.mpr (List.forall₂_map_right_iff.mpr (List.forall₂_same.mpr h))

theorem exists_mapM {f : α → Option β} {l : List α} (h : ∀ a ∈ l, ∃ b, f a = some b) :
    ∃ l', l.mapM f = some l' := by
  induction l with
  | nil => exact ⟨[],rfl⟩
  | cons a l ih =>
    obtain ⟨b,hb⟩ := h a List.mem_cons_self
    obtain ⟨l',hl'⟩ := ih (fun a ha => h a (List.mem_cons_of_mem _ ha))
    exact ⟨b :: l',by rw [List.mapM_cons,hb,hl']; rfl⟩

theorem exists_mem_of_mapM {f : α → Option β} {l : List α} {l' : List β}
    (h : l.mapM f = some l') {a : α} (ha : a ∈ l) : ∃ b ∈ l', f a = some b := by
  have hall := mapM_eq_some_iff.mp h
  obtain ⟨i,hi,rfl⟩ := List.getElem_of_mem ha
  have hi' : i < l'.length := hall.length_eq ▸ hi
  exact ⟨l'[i],List.getElem_mem hi',hall.get hi hi'⟩

theorem exists_of_mapM {f : α → Option β} {l : List α} {l' : List β} (h : l.mapM f = some l')
    {b : β} (hb : b ∈ l') : ∃ a ∈ l, f a = some b := by
  have hall := mapM_eq_some_iff.mp h
  obtain ⟨i,hi,rfl⟩ := List.getElem_of_mem hb
  have hi' : i < l.length := hall.length_eq ▸ hi
  exact ⟨l[i],List.getElem_mem hi',hall.get hi' hi⟩

/-- An entry of a row, found in the rows put one behind the other. -/
theorem getElem?_flatten_row {rows : List (List α)} {g : Nat} {row : List α}
    (hrow : rows[g]? = some row) {p : Nat} (hp : p < row.length) :
    rows.flatten[(rows.take g).flatten.length + p]? = row[p]? := by
  obtain ⟨hg,rfl⟩ := List.getElem?_eq_some_iff.mp hrow
  have hsplit : rows.flatten = (rows.take g).flatten ++ (rows[g] ++ (rows.drop (g+1)).flatten) := by
    conv_lhs => rw [← List.take_append_drop g rows,List.drop_eq_getElem_cons hg]
    rw [List.flatten_append,List.flatten_cons]
  rw [hsplit,List.getElem?_append_right (Nat.le_add_right _ _),Nat.add_sub_cancel_left,
    List.getElem?_append_left hp]

theorem foldl_max_le_iff (f : α → Nat) (l : List α) (a b : Nat) :
    l.foldl (fun m x => max m (f x)) a ≤ b ↔ a ≤ b ∧ ∀ x ∈ l, f x ≤ b := by
  induction l generalizing a with
  | nil => simp
  | cons x l ih => simp only [List.foldl_cons,ih,Nat.max_le,List.forall_mem_cons,and_assoc]

theorem le_foldl_min_iff (f : α → Nat) (l : List α) (a b : Nat) :
    b ≤ l.foldl (fun m x => min m (f x)) a ↔ b ≤ a ∧ ∀ x ∈ l, b ≤ f x := by
  induction l generalizing a with
  | nil => simp
  | cons x l ih => simp only [List.foldl_cons,ih,Nat.le_min,List.forall_mem_cons,and_assoc]

/-- Lists are joined without repetition when an element tells which list it is from. -/
theorem nodup_flatMap {l : List α} {f : α → List β} (tag : β → α) (hl : l.Nodup)
    (hf : ∀ a ∈ l, (f a).Nodup) (htag : ∀ a ∈ l, ∀ b ∈ f a, tag b = a) : (l.flatMap f).Nodup := by
  refine List.nodup_flatMap.mpr ⟨hf,hl.imp_of_mem ?_⟩
  intro a a' ha ha' hne b hb hb'
  exact hne ((htag a ha b hb).symm.trans (htag a' ha' b hb'))

/-- From a least value to begin with, the loop finds the largest value, if there is one. -/
theorem foldl_max_isGreatest_iff (f : α → Nat) (l : List α) :
    IsGreatest {n | ∃ x ∈ l, f x = n} (l.foldl (fun m x => max m (f x)) 0) ↔ l ≠ [] := by
  obtain ⟨_,hmost⟩ := (foldl_max_le_iff f l 0 _).mp (Nat.le_refl _)
  constructor
  · rintro ⟨⟨x,hx,_⟩,_⟩
    exact List.ne_nil_of_mem hx
  · intro hne
    refine ⟨?_,fun n ⟨x,hx,he⟩ => he ▸ hmost x hx⟩
    by_contra hnot
    obtain ⟨y,hy⟩ := List.exists_mem_of_ne_nil l hne
    have hlt : ∀ x ∈ l, f x < l.foldl (fun m x => max m (f x)) 0 :=
      fun x hx => Nat.lt_of_le_of_ne (hmost x hx) (fun he => hnot ⟨x,hx,he⟩)
    have hle := (foldl_max_le_iff f l 0 (l.foldl (fun m x => max m (f x)) 0 - 1)).mpr
      ⟨Nat.zero_le _,fun x hx => Nat.le_pred_of_lt (hlt x hx)⟩
    have := hlt y hy
    omega

/-- The loop finds the smallest value when it begins with nothing smaller than all of them. -/
theorem foldl_min_isLeast_iff (f : α → Nat) (l : List α) (a : Nat) :
    IsLeast {n | ∃ x ∈ l, f x = n} (l.foldl (fun m x => min m (f x)) a) ↔ ∃ x ∈ l, f x ≤ a := by
  obtain ⟨hstart,hleast⟩ := (le_foldl_min_iff f l a _).mp (Nat.le_refl _)
  constructor
  · rintro ⟨⟨x,hx,he⟩,_⟩
    exact ⟨x,hx,he ▸ hstart⟩
  · rintro ⟨y,hy,hya⟩
    refine ⟨?_,fun n ⟨x,hx,he⟩ => he ▸ hleast x hx⟩
    by_contra hnot
    have hlt : ∀ x ∈ l, l.foldl (fun m x => min m (f x)) a < f x :=
      fun x hx => Nat.lt_of_le_of_ne (hleast x hx) (fun he => hnot ⟨x,hx,he.symm⟩)
    have hle := (le_foldl_min_iff f l a (l.foldl (fun m x => min m (f x)) a + 1)).mpr
      ⟨Nat.lt_of_lt_of_le (hlt y hy) hya,hlt⟩
    omega

end FlashMob.Lib.Loops
