import FlashMob.Lib.Runs

namespace FlashMob.Lib.Traces
open Lib.Runs

variable {α δ τ : Type*} [DecidableEq τ] {exec : δ → α → δ → Prop} {owner : α → τ} {d₀ d d' : δ}
  {tr tr' l : List α} {a b : α}

/-- What `t` does in a trace. -/
def ownedBy (owner : α → τ) (t : τ) (tr : List α) : List α := tr.filter (fun a => owner a = t)

/-- `b` can be performed before `a` where it comes behind it, with the same effect. -/
def Swaps (exec : δ → α → δ → Prop) (a b : α) : Prop :=
  ∀ d d₁ d₂, exec d a d₁ → exec d₁ b d₂ → ∃ d₁', exec d b d₁' ∧ exec d₁' a d₂

@[simp] theorem ownedBy_append (t : τ) :
    ownedBy owner t (tr ++ tr') = ownedBy owner t tr ++ ownedBy owner t tr' := List.filter_append _ _

theorem mem_ownedBy {t : τ} : a ∈ ownedBy owner t tr ↔ a ∈ tr ∧ owner a = t := by
  simp [ownedBy]

theorem ownedBy_singleton (a : α) : ownedBy owner (owner a) [a] = [a] := by
  simp [ownedBy]

theorem ownedBy_singleton_of_ne {t : τ} (h : t ≠ owner a) : ownedBy owner t [a] = [] := by
  simp [ownedBy,Ne.symm h]

omit [DecidableEq τ] in
theorem exec_nil (h : Exec exec d₀ [] d) : d = d₀ := by
  generalize hl : [] = l at h
  cases h with
  | start => rfl
  | next => simp at hl

omit [DecidableEq τ] in
/-- An action can be put off behind those that it can be swapped with. -/
theorem exec_delay (h : Exec exec d₀ (tr ++ a :: l) d) (hswap : ∀ b ∈ l, Swaps exec a b) :
    ∃ d₁, Exec exec d₀ (tr ++ l) d₁ ∧ exec d₁ a d := by
  induction l using List.reverseRecOn generalizing d with
  | nil =>
    rw [List.append_nil]
    exact h.last
  | append_singleton l b ih =>
    rw [← List.cons_append,← List.append_assoc] at h
    obtain ⟨d₂,h,hb⟩ := h.last
    obtain ⟨d₁,hl,ha⟩ := ih h (fun c hc => hswap c (List.mem_append_left _ hc))
    obtain ⟨d₁',hb',ha'⟩ := hswap b (by simp) _ _ _ ha hb
    rw [← List.append_assoc]
    exact ⟨d₁',hl.next hb',ha'⟩

/-- The last action of its owner. -/
theorem exists_last {xs : List α} (h : ownedBy owner (owner a) tr = xs ++ [a]) :
    ∃ p q, tr = p ++ a :: q ∧ ownedBy owner (owner a) p = xs ∧ ∀ b ∈ q, owner b ≠ owner a := by
  obtain ⟨p,q,rfl,hp,hq⟩ := List.filter_eq_append_iff.mp h
  obtain ⟨q₁,q₂,rfl,hbefore,_,hafter⟩ := List.filter_eq_cons_iff.mp hq
  refine ⟨p ++ q₁,q₂,by simp,?_,fun b hb he => ?_⟩
  · have hnone : ownedBy owner (owner a) q₁ = [] := List.filter_eq_nil_iff.mpr hbefore
    rw [ownedBy_append,hnone,List.append_nil]
    exact hp
  · exact List.filter_eq_nil_iff.mp hafter b hb (by simpa using he)

/-- When actions of different owners can be swapped, only what each owner does matters, not how
their actions are interleaved. -/
theorem exec_unique (hdet : ∀ d a d₁ d₂, exec d a d₁ → exec d a d₂ → d₁ = d₂)
    (hswap : ∀ a ∈ tr, ∀ b ∈ tr, owner a ≠ owner b → Swaps exec a b) (h : Exec exec d₀ tr d)
    (h' : Exec exec d₀ tr' d') (hsame : ∀ t, ownedBy owner t tr = ownedBy owner t tr') : d = d' := by
  induction tr using List.reverseRecOn generalizing tr' d d' with
  | nil =>
    have hnil : tr' = [] := List.eq_nil_iff_forall_not_mem.mpr (fun b hb => by
      have hmem : b ∈ ownedBy owner (owner b) tr' := mem_ownedBy.mpr ⟨hb,rfl⟩
      rw [← hsame] at hmem
      cases hmem)
    subst hnil
    rw [exec_nil h,exec_nil h']
  | append_singleton tr a ih =>
    have hlast := hsame (owner a)
    rw [ownedBy_append,ownedBy_singleton] at hlast
    obtain ⟨p,q,rfl,hp,hq⟩ := exists_last hlast.symm
    have hmem : ∀ b ∈ q, b ∈ tr ++ [a] := by
      intro b hb
      have hb' : b ∈ ownedBy owner (owner b) (p ++ a :: q) := mem_ownedBy.mpr ⟨by simp [hb],rfl⟩
      rw [← hsame] at hb'
      exact (mem_ownedBy.mp hb').1
    obtain ⟨d₁',h₁',ha'⟩ := exec_delay h'
      (fun b hb => hswap a (by simp) b (hmem b hb) (Ne.symm (hq b hb)))
    obtain ⟨d₁,h₁,ha⟩ := h.last
    have hrest : ∀ t, ownedBy owner t tr = ownedBy owner t (p ++ q) := by
      intro t
      by_cases ht : t = owner a
      · subst ht
        have hnone : ownedBy owner (owner a) q = [] :=
          List.filter_eq_nil_iff.mpr (fun b hb => by simpa using hq b hb)
        rw [ownedBy_append,hnone,List.append_nil,hp]
      · have hcons : ownedBy owner t (a :: q) = ownedBy owner t q :=
          List.filter_cons_of_neg (by simpa using Ne.symm ht)
        have hothers := hsame t
        rwa [ownedBy_append,ownedBy_append,hcons,ownedBy_singleton_of_ne ht,List.append_nil,
          ← ownedBy_append] at hothers
    obtain rfl := ih (fun b hb c hc => hswap b (List.mem_append_left _ hb) c
      (List.mem_append_left _ hc)) h₁ h₁' hrest
    exact hdet _ _ _ _ ha ha'

end FlashMob.Lib.Traces
