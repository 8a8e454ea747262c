import Mathlib

namespace FlashMob.Lib.Indexed

variable {α β σ τ : Type*}

/-- A store to an array that fails when the index is out of range. -/
def store (l : List α) (i : Nat) (x : α) : Option (List α) :=
  if i < l.length then some (l.set i x) else none

theorem store_eq_none {l : List α} {i : Nat} (h : l.length ≤ i) (x : α) : store l i x = none :=
  if_neg (Nat.not_lt.mpr h)

/-- The array of `n` entries that a function describes. -/
def table (n : Nat) (f : Nat → α) : List α := (List.range n).map f

variable {n i : Nat} {f : Nat → α}

@[simp] theorem length_table : (table n f).length = n := by
  rw [table,List.length_map,List.length_range]

theorem getElem?_table (h : i < n) : (table n f)[i]? = some (f i) := by
  rw [table,List.getElem?_map,List.getElem?_range h]
  rfl

theorem table_getD (l : List α) (x : α) : table l.length (fun i => l.getD i x) = l := by
  refine List.ext_getElem length_table (fun i hi hi' => ?_)
  simp only [table,List.getElem_map,List.getElem_range]
  exact List.getD_eq_getElem _ _ hi'

theorem store_table (h : i < n) (x : α) :
    store (table n f) i x = some (table n (Function.update f i x)) := by
  rw [store,length_table,if_pos h]
  congr 1
  refine List.ext_getElem (by simp) (fun j hj hj' => ?_)
  simp only [table,List.getElem_set,List.getElem_map,List.getElem_range,Function.update_apply,
    eq_comm]

theorem table_congr {g : Nat → α} (h : ∀ i < n, f i = g i) : table n f = table n g :=
  List.map_congr_left (fun i hi => h i (List.mem_range.mp hi))

/-- A loop that can fail does what a loop on descriptions of its states does, if each of its
steps succeeds in the state that the steps before it left. -/
theorem foldlM_refines {step : σ → β → Option σ} (spec : τ → β → τ) (rep : τ → σ) (t : τ)
    {l : List β} (h : ∀ before x after, l = before ++ x :: after →
      step (rep (before.foldl spec t)) x = some (rep (spec (before.foldl spec t) x))) :
    l.foldlM step (rep t) = some (rep (l.foldl spec t)) := by
  induction l generalizing t with
  | nil => rfl
  | cons x l ih =>
    have hx : step (rep t) x = some (rep (spec t x)) := h [] x l rfl
    rw [List.foldlM_cons,hx,List.foldl_cons]
    refine ih (spec t x) (fun before y after hl => ?_)
    exact h (x :: before) y after (by rw [hl,List.cons_append])

end FlashMob.Lib.Indexed
