import Mathlib

namespace FlashMob.Lib.Runs

variable {σ α δ : Type*}

/-- A run from `s₀`: the visible actions performed so far and the state reached.
A silent step carries no action. -/
inductive Run (step : σ → Option α → σ → Prop) (s₀ : σ) : List α → σ → Prop
  | start : Run step s₀ [] s₀
  | next {tr : List α} {s s' : σ} {o : Option α} (hr : Run step s₀ tr s) (hs : step s o s') :
      Run step s₀ (tr ++ o.toList) s'

/-- Data changed by the visible actions of a run, one action after the other. -/
inductive Exec (exec : δ → α → δ → Prop) (d₀ : δ) : List α → δ → Prop
  | start : Exec exec d₀ [] d₀
  | next {tr : List α} {d d' : δ} {a : α} (he : Exec exec d₀ tr d) (ha : exec d a d') :
      Exec exec d₀ (tr ++ [a]) d'

variable {step : σ → Option α → σ → Prop} {exec : δ → α → δ → Prop}

theorem Run.invariant {s₀ s : σ} {tr : List α} (I : List α → σ → Prop) (h0 : I [] s₀)
    (hs : ∀ tr s o s', I tr s → step s o s' → I (tr ++ o.toList) s')
    (hr : Run step s₀ tr s) : I tr s := by
  induction hr with
  | start => exact h0
  | next _ hstep ih => exact hs _ _ _ _ ih hstep

theorem Run.trans {s₀ s₁ s₂ : σ} {tr tr' : List α} (h : Run step s₀ tr s₁)
    (h' : Run step s₁ tr' s₂) : Run step s₀ (tr ++ tr') s₂ := by
  induction h' with
  | start => simpa using h
  | next _ hs ih => simpa only [List.append_assoc] using ih.next hs

/-- A measure that every step lowers and a step from every unfinished state: the system
can be driven to a finished state, whatever was done before. -/
theorem exists_finished (J : σ → Prop) (finished : σ → Prop) (m : σ → Nat)
    (keep : ∀ s o s', J s → step s o s' → J s' ∧ m s' < m s)
    (progress : ∀ s, J s → ¬finished s → ∃ o s', step s o s')
    (s : σ) (hs : J s) : ∃ tr s', Run step s tr s' ∧ finished s' := by
  generalize he : m s = n
  induction n using Nat.strongRecOn generalizing s with
  | ind n ih =>
    by_cases hf : finished s
    · exact ⟨[],s,.start,hf⟩
    · obtain ⟨o,s',hstep⟩ := progress s hs hf
      obtain ⟨hj,hlt⟩ := keep s o s' hs hstep
      obtain ⟨tr,t,hrun,ht⟩ := ih (m s') (by omega) s' hj rfl
      exact ⟨_,t,(Run.start.next hstep).trans hrun,ht⟩

section
variable {β : Type*} [LT β] [WellFoundedLT β] (J : σ → Prop) (m : σ → β)
  (keep : ∀ s o s', J s → step s o s' → J s' ∧ m s' < m s)
include keep

/-- A measure that every step lowers, in any well-founded order: the system stops under every
scheduler. -/
theorem wellFounded_of_measure : WellFounded (fun s' s => J s ∧ ∃ o, step s o s') :=
  Subrelation.wf (fun ⟨hj,o,hs⟩ => (keep _ o _ hj hs).2) (InvImage.wf m wellFounded_lt)

theorem acc_of_measure {s : σ} (hs : J s) : Acc (fun s' s => ∃ o, step s o s') s := by
  induction (wellFounded_of_measure J m keep).apply s with
  | intro s _ ih =>
    refine Acc.intro s (fun s' hstep => ?_)
    obtain ⟨o,ho⟩ := hstep
    exact ih s' ⟨hs,o,ho⟩ (keep s o s' hs ho).1

end

/-- Steps from every state with `J` to such states: a run goes on for ever. -/
theorem not_acc (J : σ → Prop) (hstep : ∀ s, J s → ∃ o s', step s o s' ∧ J s') {s : σ} (hs : J s) :
    ¬Acc (fun s' s => ∃ o, step s o s') s := by
  intro hacc
  induction hacc with
  | intro s _ ih =>
    obtain ⟨o,s',hnext,hj⟩ := hstep s hs
    exact ih s' ⟨o,hnext⟩ hj

/-- Steps that keep `J` until a wanted action is performed, and a step from every state with `J`: a
run leads up to such an action. -/
theorem exists_action {β : Type*} [LT β] [WellFoundedLT β] (J : σ → Prop) (wanted : α → Prop)
    (m : σ → β)
    (keep : ∀ s o s', J s → step s o s' → (∃ a, o = some a ∧ wanted a) ∨ (J s' ∧ m s' < m s))
    (progress : ∀ s, J s → ∃ o s', step s o s') {s : σ} (hs : J s) :
    ∃ tr s' a s'', Run step s tr s' ∧ step s' (some a) s'' ∧ wanted a := by
  induction (InvImage.wf m wellFounded_lt).apply s with
  | intro s _ ih =>
    obtain ⟨o,s',hstep⟩ := progress s hs
    rcases keep s o s' hs hstep with ⟨a,rfl,ha⟩ | ⟨hj,hlt⟩
    · exact ⟨[],s,a,s',.start,hstep,ha⟩
    · obtain ⟨tr,t,a,t',hrun,ht,ha⟩ := ih s' hlt hj
      exact ⟨_,t,a,t',(Run.start.next hstep).trans hrun,ht,ha⟩

/-- Steps that keep `J` and lower a measure as long as no wanted state is reached, and a step from
every other state with `J`: a run leads to a wanted state. -/
theorem exists_reached {β : Type*} [LT β] [WellFoundedLT β] (J wanted : σ → Prop) (m : σ → β)
    (keep : ∀ s o s', J s → ¬wanted s → step s o s' → J s' ∧ m s' < m s)
    (progress : ∀ s, J s → ¬wanted s → ∃ o s', step s o s') {s : σ} (hs : J s) :
    ∃ tr s', Run step s tr s' ∧ wanted s' := by
  induction (InvImage.wf m wellFounded_lt).apply s with
  | intro s _ ih =>
    by_cases hw : wanted s
    · exact ⟨[],s,.start,hw⟩
    · obtain ⟨o,s',hstep⟩ := progress s hs hw
      obtain ⟨hj,hlt⟩ := keep s o s' hs hw hstep
      obtain ⟨tr,t,hrun,ht⟩ := ih s' hlt hj
      exact ⟨_,t,(Run.start.next hstep).trans hrun,ht⟩

theorem Exec.invariant {d₀ d : δ} {tr : List α} (I : List α → δ → Prop) (h0 : I [] d₀)
    (ha : ∀ tr d a d', I tr d → exec d a d' → I (tr ++ [a]) d')
    (he : Exec exec d₀ tr d) : I tr d := by
  induction he with
  | start => exact h0
  | next _ hstep ih => exact ha _ _ _ _ ih hstep

theorem Exec.last {d₀ d' : δ} {tr : List α} {a : α} (he : Exec exec d₀ (tr ++ [a]) d') :
    ∃ d, Exec exec d₀ tr d ∧ exec d a d' := by
  generalize hl : tr ++ [a] = l at he
  cases he with
  | start => simp at hl
  | next he ha =>
    obtain ⟨rfl,hlast⟩ := List.append_inj' hl rfl
    cases hlast
    exact ⟨_,he,ha⟩

theorem Exec.of_prefix {d₀ d : δ} {tr l : List α} (hp : tr <+: l) (he : Exec exec d₀ l d) :
    ∃ d', Exec exec d₀ tr d' := by
  induction he with
  | start =>
    rw [List.prefix_nil.mp hp]
    exact ⟨_,.start⟩
  | next he ha ih =>
    rcases List.prefix_concat_iff.mp hp with rfl | hp
    · exact ⟨_,he.next ha⟩
    · exact ih hp

end FlashMob.Lib.Runs
