import Mathlib

namespace FlashMob.Lib.Cursor

variable {κ ξ δ : Type*} [DecidableEq κ]

/-- The positions handed out by one cursor for each key, to a sequence of keys. -/
def slots (c : κ → Nat) : List κ → List Nat
  | [] => []
  | k :: ks => c k :: slots (Function.update c k (c k + 1)) ks

/-- The cursors after a sequence of keys. -/
def advance (c : κ → Nat) (ks : List κ) : κ → Nat := fun k => c k + ks.count k

@[simp] theorem length_slots (c : κ → Nat) (ks : List κ) : (slots c ks).length = ks.length := by
  induction ks generalizing c with
  | nil => rfl
  | cons k ks ih => simp [slots,ih]

theorem advance_cons (c : κ → Nat) (k : κ) (ks : List κ) :
    advance (Function.update c k (c k + 1)) ks = advance c (k :: ks) := by
  funext k'
  by_cases h : k' = k
  · subst h; simp only [advance,Function.update_self,List.count_cons_self]; omega
  · simp [advance,Function.update_of_ne h,List.count_cons_of_ne (Ne.symm h)]

theorem slots_concat (c : κ → Nat) (ks : List κ) (k : κ) :
    slots c (ks ++ [k]) = slots c ks ++ [advance c ks k] := by
  induction ks generalizing c with
  | nil => simp [slots,advance]
  | cons k' ks ih => simp [slots,ih,advance_cons]

theorem advance_concat (c : κ → Nat) (ks : List κ) (k : κ) :
    advance c (ks ++ [k]) = Function.update (advance c ks) k (advance c ks k + 1) := by
  funext k'
  by_cases h : k' = k
  · subst h; simp [advance,Nat.add_assoc]
  · rw [Function.update_of_ne h]
    simp [advance,Ne.symm h]

/-- A position is its key's first cursor, moved by the earlier requests for that key. -/
theorem getD_slots (c : κ → Nat) (ks : List κ) (i : Nat) (hi : i < ks.length) :
    (slots c ks).getD i 0 = c ks[i] + (ks.take i).count ks[i] := by
  induction ks generalizing c i with
  | nil => simp at hi
  | cons k ks ih =>
    cases i with
    | zero => simp [slots]
    | succ i =>
      have hi' : i < ks.length := by simpa using hi
      simp only [slots,List.getD_cons_succ,ih _ i hi',List.getElem_cons_succ,List.take_succ_cons]
      by_cases h : ks[i] = k
      · simp only [h,Function.update_self,List.count_cons_self]; omega
      · rw [Function.update_of_ne h,List.count_cons_of_ne (Ne.symm h)]

/-- Only the cursors of the keys that occur matter. -/
theorem slots_congr {c c' : κ → Nat} {ks : List κ} (h : ∀ k ∈ ks, c k = c' k) :
    slots c ks = slots c' ks := by
  refine List.ext_getElem (by simp) (fun i hi hi' => ?_)
  have hi₀ : i < ks.length := by simpa using hi
  rw [← List.getD_eq_getElem _ 0 hi,← List.getD_eq_getElem _ 0 hi',getD_slots _ _ _ hi₀,
    getD_slots _ _ _ hi₀,h _ (List.getElem_mem hi₀)]

/-- A loop that takes a position for each item and uses it. -/
theorem foldl_claim (key : ξ → κ) (f : ξ → Nat → δ → δ) (xs : List ξ) (c : κ → Nat) (d : δ) :
    xs.foldl (fun (st : (κ → Nat) × δ) x =>
      (Function.update st.1 (key x) (st.1 (key x) + 1),f x (st.1 (key x)) st.2)) (c,d) =
    (advance c (xs.map key),
      (xs.zip (slots c (xs.map key))).foldl (fun d q => f q.1 q.2 d) d) := by
  induction xs generalizing c d with
  | nil => rfl
  | cons x xs ih =>
    rw [List.foldl_cons,ih,List.map_cons,advance_cons]
    rfl

/-- A loop that only moves the cursors. -/
theorem foldl_bump (key : ξ → κ) (xs : List ξ) (c : κ → Nat) :
    xs.foldl (fun (c : κ → Nat) x => Function.update c (key x) (c (key x) + 1)) c =
      advance c (xs.map key) := by
  induction xs generalizing c with
  | nil => rfl
  | cons x xs ih => rw [List.foldl_cons,ih,List.map_cons,advance_cons]

/-- The same loop when the position is only counted. -/
theorem foldl_count (key : ξ → κ) (h : ξ → δ → δ) (xs : List ξ) (c : κ → Nat) (d : δ) :
    xs.foldl (fun (st : (κ → Nat) × δ) x =>
      (Function.update st.1 (key x) (st.1 (key x) + 1),h x st.2)) (c,d) =
    (advance c (xs.map key),xs.foldl (fun d x => h x d) d) := by
  rw [foldl_claim key (fun x _ => h x)]
  congr 1
  have hfst : (xs.zip (slots c (xs.map key))).map Prod.fst = xs :=
    List.map_fst_zip (by simp)
  conv_rhs => rw [← hfst]
  rw [List.foldl_map]

theorem count_take_lt {ks : List κ} {i : Nat} (hi : i < ks.length) :
    (ks.take i).count ks[i] < ks.count ks[i] := by
  have h : ks.take (i+1) = ks.take i ++ [ks[i]] := List.take_concat_get' ks i hi |>.symm
  have hle := (List.take_sublist (i+1) ks).count_le ks[i]
  rw [h,List.count_append,List.count_singleton_self] at hle
  omega

theorem count_take_mono {ks : List κ} {i j : Nat} (k : κ) (h : i ≤ j) :
    (ks.take i).count k ≤ (ks.take j).count k :=
  (List.take_sublist_take_left h).count_le k

theorem slot_bounds (c : κ → Nat) (ks : List κ) (i : Nat) (hi : i < ks.length) :
    c ks[i] ≤ (slots c ks).getD i 0 ∧
      (slots c ks).getD i 0 < c ks[i] + ks.count ks[i] := by
  have := count_take_lt hi
  rw [getD_slots c ks i hi]
  omega

/-- Requests for one key get growing positions. -/
theorem slot_lt_slot (c : κ → Nat) (ks : List κ) {i j : Nat} (hij : i < j) (hj : j < ks.length)
    (hk : ks[i] = ks[j]) : (slots c ks).getD i 0 < (slots c ks).getD j 0 := by
  have hi : i < ks.length := Nat.lt_trans hij hj
  rw [getD_slots c ks i hi,getD_slots c ks j hj,hk]
  have h : ks.take (i+1) = ks.take i ++ [ks[i]] := List.take_concat_get' ks i hi |>.symm
  have hm : (ks.take (i+1)).count ks[j] ≤ (ks.take j).count ks[j] := count_take_mono _ hij
  rw [h,hk,List.count_append,List.count_singleton_self] at hm
  omega

/-- The requests for a key use up its interval without a gap. -/
theorem exists_slot (c : κ → Nat) (ks : List κ) (k : κ) {x : Nat} (h : c k ≤ x)
    (hx : x < c k + ks.count k) :
    ∃ i, ∃ hi : i < ks.length, ks[i] = k ∧ (slots c ks).getD i 0 = x := by
  induction ks generalizing c with
  | nil => simp only [List.count_nil] at hx; omega
  | cons k' ks ih =>
    by_cases hk : k' = k
    · subst hk
      by_cases he : x = c k'
      · exact ⟨0,by simp,rfl,he.symm⟩
      · rw [List.count_cons_self] at hx
        obtain ⟨i,hi,hki,hs⟩ := ih (Function.update c k' (c k' + 1))
          (by rw [Function.update_self]; omega) (by rw [Function.update_self]; omega)
        exact ⟨i+1,by simpa using hi,by simpa using hki,by simpa [slots] using hs⟩
    · rw [List.count_cons_of_ne hk] at hx
      obtain ⟨i,hi,hki,hs⟩ := ih (Function.update c k' (c k' + 1))
        (by rwa [Function.update_of_ne (Ne.symm hk)]) (by rwa [Function.update_of_ne (Ne.symm hk)])
      exact ⟨i+1,by simpa using hi,by simpa using hki,by simpa [slots] using hs⟩

/-- Intervals of two keys that lie in one zone do not overlap. -/
def Separated {ζ : Type*} (zone : κ → ζ) (c : κ → Nat) (ks : List κ) : Prop :=
  ∀ k ∈ ks, ∀ k' ∈ ks, k ≠ k' → zone k = zone k' →
    c k + ks.count k ≤ c k' ∨ c k' + ks.count k' ≤ c k

/-- No position of a zone is handed out twice. -/
theorem slot_inj {ζ : Type*} {zone : κ → ζ} {c : κ → Nat} {ks : List κ}
    (hsep : Separated zone c ks) {i j : Nat} (hi : i < ks.length) (hj : j < ks.length)
    (hz : zone ks[i] = zone ks[j])
    (he : (slots c ks).getD i 0 = (slots c ks).getD j 0) : i = j := by
  have hbi := slot_bounds c ks i hi
  have hbj := slot_bounds c ks j hj
  by_cases hk : ks[i] = ks[j]
  · rcases Nat.lt_trichotomy i j with hij | hij | hij
    · have := slot_lt_slot c ks hij hj hk
      omega
    · exact hij
    · have := slot_lt_slot c ks hij hi hk.symm
      omega
  · have := hsep _ (List.getElem_mem hi) _ (List.getElem_mem hj) hk hz
    omega

/-- First cursors of a counting sort: the keys below come first. -/
def starts (ks : List Nat) (k : Nat) : Nat := ks.countP (fun k' => decide (k' < k))

theorem starts_succ (ks : List Nat) (k : Nat) : starts ks (k+1) = starts ks k + ks.count k := by
  unfold starts
  induction ks with
  | nil => rfl
  | cons x ks ih =>
    rw [List.countP_cons,List.countP_cons,List.count_cons,ih]
    simp only [decide_eq_true_eq,beq_iff_eq]
    split_ifs <;> omega

@[simp] theorem starts_zero (ks : List Nat) : starts ks 0 = 0 := by simp [starts]

theorem starts_mono (ks : List Nat) {k k' : Nat} (h : k ≤ k') : starts ks k ≤ starts ks k' :=
  List.countP_mono_left (fun x _ hx => by simp only [decide_eq_true_eq] at hx ⊢; omega)

theorem starts_add_count_le (ks : List Nat) {k k' : Nat} (h : k < k') :
    starts ks k + ks.count k ≤ starts ks k' := by
  rw [← starts_succ]
  exact starts_mono ks h

theorem starts_le_length (ks : List Nat) (k : Nat) : starts ks k ≤ ks.length :=
  List.countP_le_length

theorem starts_eq_length {ks : List Nat} {n : Nat} (h : ∀ k ∈ ks, k < n) :
    starts ks n = ks.length :=
  List.countP_eq_length.mpr (fun k hk => by simpa using h k hk)

theorem separated_starts (ks : List Nat) : Separated (fun _ => ()) (starts ks) ks := by
  intro k _ k' _ hne _
  rcases Nat.lt_or_gt_of_ne hne with h | h
  · exact Or.inl (starts_add_count_le ks h)
  · exact Or.inr (starts_add_count_le ks h)

/-- The loop that turns counts into first cursors. -/
theorem foldl_starts (ks : List Nat) {counts : Nat → Nat} (old : Nat → Nat) {n : Nat}
    (h : ∀ k < n, counts k = ks.count k) :
    (List.range' 0 n).foldl (fun (st : (Nat → Nat) × Nat) k =>
      (Function.update st.1 k st.2,st.2 + counts k)) (old,0) =
    (fun k => if k < n then starts ks k else old k,starts ks n) := by
  induction n with
  | zero => simp
  | succ n ih =>
    rw [List.range'_1_concat,List.foldl_append,ih (fun k hk => h k (by omega))]
    simp only [Nat.zero_add,List.foldl_cons,List.foldl_nil,starts_succ,h n (Nat.lt_succ_self n)]
    congr 1
    funext k
    rcases Nat.lt_trichotomy k n with hk | hk | hk
    · rw [Function.update_of_ne (by omega),if_pos hk,if_pos (by omega)]
    · subst hk; simp
    · rw [Function.update_of_ne (by omega),if_neg (by omega),if_neg (by omega)]

/-- A counting sort gives each item its own place. -/
theorem slots_starts_perm (ks : List Nat) :
    (slots (starts ks) ks).Perm (List.range ks.length) := by
  have hnodup : (slots (starts ks) ks).Nodup := by
    refine List.nodup_iff_injective_getElem.mpr (fun a b hab => ?_)
    have ha : a.1 < ks.length := by simpa using a.2
    have hb : b.1 < ks.length := by simpa using b.2
    refine Fin.ext (slot_inj (separated_starts ks) ha hb rfl ?_)
    rw [List.getD_eq_getElem _ 0 a.2,List.getD_eq_getElem _ 0 b.2]
    exact hab
  have hsub : slots (starts ks) ks ⊆ List.range ks.length := by
    intro x hx
    obtain ⟨i,hi,rfl⟩ := List.getElem_of_mem hx
    have hi' : i < ks.length := by simpa using hi
    have hb := (slot_bounds (starts ks) ks i hi').2
    have hle := starts_le_length ks (ks[i] + 1)
    rw [starts_succ] at hle
    rw [← List.getD_eq_getElem _ 0 hi]
    exact List.mem_range.mpr (by omega)
  exact (List.subperm_of_subset hnodup hsub).perm_of_length_le (by simp)

end FlashMob.Lib.Cursor
