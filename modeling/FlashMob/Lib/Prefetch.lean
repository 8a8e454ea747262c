import Mathlib.Data.List.Nodup
import Mathlib.Logic.Function.Basic

namespace FlashMob.Lib.Prefetch

/-- What producers make in batches for the queues of some keys. A product is its producer and its
number there. -/
structure Ledger (α κ : Type) where
  /-- The number of products so far. -/
  used : α → Nat
  /-- The products that wait to be served. -/
  pending : κ → List (α × Nat)

namespace Ledger
variable {α κ : Type}

def empty : Ledger α κ := ⟨fun _ => 0,fun _ => []⟩

/-- The next `n` products of a producer. -/
def batch (l : Ledger α κ) (a : α) (n : Nat) : List (α × Nat) :=
  (List.range n).map (fun i => (a,l.used a + i))

/-- What a key is served from by a producer: what waits for it, or a new batch. -/
def queue (l : Ledger α κ) (a : α) (k : κ) (n : Nat) : List (α × Nat) :=
  if l.pending k = [] then l.batch a n else l.pending k

variable [DecidableEq α] [DecidableEq κ]

/-- The products are served as soon as they are made. -/
def make (l : Ledger α κ) (a : α) (n : Nat) : Ledger α κ :=
  { l with used := Function.update l.used a (l.used a + n) }

/-- The head of the queue is served. -/
def serve (l : Ledger α κ) (a : α) (k : κ) (n : Nat) : Ledger α κ where
  used := if l.pending k = [] then (l.make a n).used else l.used
  pending := Function.update l.pending k (l.queue a k n).tail

omit [DecidableEq α] [DecidableEq κ] in
theorem mem_batch {l : Ledger α κ} {a : α} {n : Nat} {o : α × Nat} :
    o ∈ l.batch a n ↔ o.1 = a ∧ l.used a ≤ o.2 ∧ o.2 < l.used a + n := by
  rw [batch,List.mem_map]
  constructor
  · rintro ⟨i,hi,rfl⟩
    have := List.mem_range.mp hi
    exact ⟨rfl,Nat.le_add_right _ _,by dsimp only; omega⟩
  · rintro ⟨rfl,hlo,hhi⟩
    exact ⟨o.2 - l.used o.1,List.mem_range.mpr (by omega),Prod.ext rfl (by dsimp only; omega)⟩

omit [DecidableEq α] [DecidableEq κ] in
theorem nodup_batch (l : Ledger α κ) (a : α) (n : Nat) : (l.batch a n).Nodup := by
  refine List.Nodup.map (fun i j h => ?_) List.nodup_range
  exact Nat.add_left_cancel (Prod.ext_iff.mp h).2

omit [DecidableEq α] [DecidableEq κ] in
theorem exists_queue (l : Ledger α κ) (a : α) (k : κ) {n : Nat} (hn : 0 < n) :
    ∃ o os, l.queue a k n = o :: os := by
  refine List.exists_cons_of_ne_nil ?_
  rw [queue]
  split_ifs with hempty
  · exact List.ne_nil_of_mem (mem_batch.mpr ⟨rfl,Nat.le_refl _,by dsimp only; omega⟩ :
      (a,l.used a) ∈ l.batch a n)
  · exact hempty

omit [DecidableEq κ] in
@[simp] theorem used_make_self (l : Ledger α κ) (a : α) (n : Nat) :
    (l.make a n).used a = l.used a + n := Function.update_self _ _ _

omit [DecidableEq κ] in
theorem used_make_of_ne (l : Ledger α κ) {a b : α} (n : Nat) (h : b ≠ a) :
    (l.make a n).used b = l.used b := Function.update_of_ne h _ _

theorem used_serve (l : Ledger α κ) (a : α) (k : κ) (n : Nat) :
    (l.serve a k n).used = if l.pending k = [] then (l.make a n).used else l.used := rfl

@[simp] theorem pending_serve_self (l : Ledger α κ) (a : α) (k : κ) (n : Nat) :
    (l.serve a k n).pending k = (l.queue a k n).tail := Function.update_self _ _ _

theorem pending_serve_of_ne (l : Ledger α κ) (a : α) {k k' : κ} (n : Nat) (h : k' ≠ k) :
    (l.serve a k n).pending k' = l.pending k' := Function.update_of_ne h _ _

/-- Another producer makes nothing. -/
theorem used_serve_of_ne (l : Ledger α κ) {a b : α} (k : κ) (n : Nat) (h : b ≠ a) :
    (l.serve a k n).used b = l.used b := by
  rw [used_serve]
  split_ifs
  · exact l.used_make_of_ne n h
  · rfl

omit [DecidableEq κ] in
theorem le_used_make (l : Ledger α κ) (a b : α) (n : Nat) : l.used b ≤ (l.make a n).used b := by
  by_cases h : b = a
  · subst h
    rw [used_make_self]
    exact Nat.le_add_right _ _
  · exact Nat.le_of_eq (l.used_make_of_ne n h).symm

theorem le_used_serve (l : Ledger α κ) (a b : α) (k : κ) (n : Nat) :
    l.used b ≤ (l.serve a k n).used b := by
  rw [used_serve]
  split_ifs
  · exact l.le_used_make a b n
  · exact Nat.le_refl _

/-- No product has been served twice, and none that waits was served or waits elsewhere. -/
structure Sound (l : Ledger α κ) (served : List (α × Nat)) : Prop where
  nodup : served.Nodup
  below : ∀ o ∈ served, o.2 < l.used o.1
  waiting : ∀ k, (l.pending k).Nodup ∧ ∀ o ∈ l.pending k, o.2 < l.used o.1 ∧ o ∉ served
  apart : ∀ k k', k ≠ k' → ∀ o ∈ l.pending k, o ∉ l.pending k'

omit [DecidableEq α] [DecidableEq κ] in
theorem sound_empty : Sound (empty : Ledger α κ) [] :=
  ⟨List.nodup_nil,fun _ ho => absurd ho List.not_mem_nil,
    fun _ => ⟨List.nodup_nil,fun _ ho => absurd ho List.not_mem_nil⟩,
    fun _ _ _ _ ho => absurd ho List.not_mem_nil⟩

namespace Sound
variable {l : Ledger α κ} {served : List (α × Nat)} (h : Sound l served)
include h

omit [DecidableEq α] [DecidableEq κ] in
/-- A new product is not an old one. -/
theorem batch_fresh {a : α} {n : Nat} {o : α × Nat} (ho : o ∈ l.batch a n) :
    o ∉ served ∧ ∀ k, o ∉ l.pending k := by
  obtain ⟨rfl,hlo,_⟩ := mem_batch.mp ho
  refine ⟨fun hold => ?_,fun k hold => ?_⟩
  · have := h.below o hold
    omega
  · have := ((h.waiting k).2 o hold).1
    omega

omit [DecidableEq κ] in
theorem make (a : α) (n : Nat) : Sound (l.make a n) (served ++ l.batch a n) := by
  have hle := fun b => l.le_used_make a b n
  refine ⟨?_,?_,fun k => ⟨(h.waiting k).1,?_⟩,h.apart⟩
  · refine List.nodup_append.mpr ⟨h.nodup,nodup_batch l a n,?_⟩
    rintro o ho o' ho' rfl
    exact (h.batch_fresh ho').1 ho
  · intro o ho
    rcases List.mem_append.mp ho with ho | ho
    · exact Nat.lt_of_lt_of_le (h.below o ho) (hle _)
    · obtain ⟨rfl,_,hhi⟩ := mem_batch.mp ho
      rw [used_make_self]
      exact hhi
  · intro o ho
    obtain ⟨hlt,hnot⟩ := (h.waiting k).2 o ho
    refine ⟨Nat.lt_of_lt_of_le hlt (hle _),fun hs => ?_⟩
    rcases List.mem_append.mp hs with hs | hs
    · exact hnot hs
    · exact (h.batch_fresh hs).2 k ho

omit [DecidableEq α] [DecidableEq κ] in
/-- What a key is served from is made for it alone, and has not been served. -/
theorem queue_spec (a : α) (k : κ) (n : Nat) : (l.queue a k n).Nodup ∧
    ∀ o ∈ l.queue a k n, o ∉ served ∧ ∀ k', k' ≠ k → o ∉ l.pending k' := by
  rw [queue]
  split_ifs with hempty
  · exact ⟨nodup_batch l a n,fun o ho =>
      ⟨(h.batch_fresh ho).1,fun k' _ => (h.batch_fresh ho).2 k'⟩⟩
  · exact ⟨(h.waiting k).1,fun o ho =>
      ⟨((h.waiting k).2 o ho).2,fun k' hne => h.apart k k' (Ne.symm hne) o ho⟩⟩

theorem queue_below (a : α) (k : κ) (n : Nat) :
    ∀ o ∈ l.queue a k n, o.2 < (l.serve a k n).used o.1 := by
  intro o ho
  rw [queue] at ho
  rw [used_serve]
  split_ifs at ho ⊢ with hempty
  · obtain ⟨rfl,_,hhi⟩ := mem_batch.mp ho
    rw [used_make_self]
    exact hhi
  · exact ((h.waiting k).2 o ho).1

/-- Serving a key serves a product that was never served. -/
theorem serve {a : α} {k : κ} {n : Nat} {o : α × Nat} {os : List (α × Nat)}
    (hq : l.queue a k n = o :: os) : Sound (l.serve a k n) (served ++ [o]) ∧ o ∉ served := by
  obtain ⟨hnodup,hqueue⟩ := h.queue_spec a k n
  have hbelow := h.queue_below a k n
  rw [hq] at hnodup hqueue hbelow
  obtain ⟨hhead,htail⟩ := List.nodup_cons.mp hnodup
  have hfresh := (hqueue o List.mem_cons_self).1
  have hself : (l.serve a k n).pending k = os := by
    rw [pending_serve_self,hq,List.tail_cons]
  have hother : ∀ {k'}, k' ≠ k → (l.serve a k n).pending k' = l.pending k' :=
    fun hne => l.pending_serve_of_ne a n hne
  refine ⟨⟨?_,?_,fun k' => ?_,fun k' k'' hne o' ho' => ?_⟩,hfresh⟩
  · exact List.nodup_append.mpr ⟨h.nodup,List.nodup_singleton _,fun o' ho' o'' ho'' he =>
      hfresh (List.mem_singleton.mp ho'' ▸ he ▸ ho')⟩
  · intro o' ho'
    rcases List.mem_append.mp ho' with ho' | ho'
    · exact Nat.lt_of_lt_of_le (h.below o' ho') (l.le_used_serve a _ k n)
    · rw [List.mem_singleton.mp ho']
      exact hbelow o List.mem_cons_self
  · by_cases he : k' = k
    · subst he
      rw [hself]
      refine ⟨htail,fun o' ho' => ⟨hbelow o' (List.mem_cons_of_mem _ ho'),fun hs => ?_⟩⟩
      rcases List.mem_append.mp hs with hs | hs
      · exact (hqueue o' (List.mem_cons_of_mem _ ho')).1 hs
      · exact hhead (List.mem_singleton.mp hs ▸ ho')
    · rw [hother he]
      refine ⟨(h.waiting k').1,fun o' ho' => ?_⟩
      obtain ⟨hlt,hnot⟩ := (h.waiting k').2 o' ho'
      refine ⟨Nat.lt_of_lt_of_le hlt (l.le_used_serve a _ k n),fun hs => ?_⟩
      rcases List.mem_append.mp hs with hs | hs
      · exact hnot hs
      · exact (hqueue o List.mem_cons_self).2 k' he (List.mem_singleton.mp hs ▸ ho')
  · by_cases he : k' = k
    · subst he
      rw [hself] at ho'
      rw [hother (Ne.symm hne)]
      exact (hqueue o' (List.mem_cons_of_mem _ ho')).2 k'' (Ne.symm hne)
    · rw [hother he] at ho'
      by_cases he' : k'' = k
      · subst he'
        rw [hself]
        exact fun hin => (hqueue o' (List.mem_cons_of_mem _ hin)).2 k' he ho'
      · rw [hother he']
        exact h.apart k' k'' hne o' ho'

end Sound

end Ledger

end FlashMob.Lib.Prefetch
