import FlashMob.Lib.Runs

namespace FlashMob.Lib.Threads
open Lib.Runs

/-- An instruction of a thread: it loads a location into the registers of the thread, or stores what
is in them. -/
inductive Instr (L V R : Type*)
  | load (addr : R → L) (keep : R → V → R)
  | store (addr : R → L) (value : R → V)

variable {τ L V R ξ β : Type*}

/-- The location that is accessed. -/
def Instr.addr : Instr L V R → R → L
  | .load addr _ => addr
  | .store addr _ => addr

def Instr.Stores : Instr L V R → Prop
  | .load _ _ => False
  | .store _ _ => True

/-- Threads on one memory, each with its registers and the instructions it has left. -/
structure State (τ L V R : Type*) where
  regs : τ → R
  rest : τ → List (Instr L V R)
  mem : L → V

/-- Two threads are about to access one location, one of them to store. -/
def State.Race (st : State τ L V R) : Prop :=
  ∃ t u i j is js, t ≠ u ∧ st.rest t = i :: is ∧ st.rest u = j :: js ∧
    i.addr (st.regs t) = j.addr (st.regs u) ∧ i.Stores

/-- Where the threads access the memory and where they store: no thread stores where another one
accesses. -/
structure Regions (prog : τ → List (Instr L V R)) (uses writes : τ → Set L) : Prop where
  used : ∀ t, ∀ i ∈ prog t, ∀ r, i.addr r ∈ uses t
  written : ∀ t, ∀ i ∈ prog t, i.Stores → ∀ r, i.addr r ∈ writes t
  apart : ∀ t u, t ≠ u → Disjoint (writes t) (uses u)

section
variable [DecidableEq L]

def Instr.exec : Instr L V R → R × (L → V) → R × (L → V)
  | .load addr keep, st => (keep st.1 (st.2 (addr st.1)),st.2)
  | .store addr value, st => (st.1,Function.update st.2 (addr st.1) (value st.1))

/-- A program that runs alone. -/
def exec (prog : List (Instr L V R)) (st : R × (L → V)) : R × (L → V) :=
  prog.foldl (fun st i => i.exec st) st

@[simp] theorem exec_nil (st : R × (L → V)) : exec [] st = st := rfl

@[simp] theorem exec_cons (i : Instr L V R) (is : List (Instr L V R)) (st : R × (L → V)) :
    exec (i :: is) st = exec is (i.exec st) := rfl

theorem exec_append (is js : List (Instr L V R)) (st : R × (L → V)) :
    exec (is ++ js) st = exec js (exec is st) := List.foldl_append

/-- A loop whose body does what a function does is a fold of the function. -/
theorem exec_flatMap (Sim : R × (L → V) → β → Prop) (f : β → ξ → β) {body : ξ → List (Instr L V R)}
    {l : List ξ}
    (hbody : ∀ x ∈ l, ∀ st b, Sim st b → Sim (exec (body x) st) (f b x)) (st : R × (L → V)) (b : β)
    (h : Sim st b) : Sim (exec (l.flatMap body) st) (l.foldl f b) := by
  induction l generalizing st b with
  | nil => exact h
  | cons x l ih =>
    rw [List.flatMap_cons,exec_append,List.foldl_cons]
    exact ih (fun y hy => hbody y (List.mem_cons_of_mem _ hy)) _ _ (hbody x List.mem_cons_self st b h)

variable [DecidableEq τ]

/-- Some thread performs its next instruction. -/
inductive Step : State τ L V R → Option τ → State τ L V R → Prop
  | step {st : State τ L V R} {t : τ} {i : Instr L V R} {is : List (Instr L V R)}
      (h : st.rest t = i :: is) :
      Step st (some t) ⟨Function.update st.regs t (i.exec (st.regs t,st.mem)).1,
        Function.update st.rest t is,(i.exec (st.regs t,st.mem)).2⟩

/-- Every thread is where it would be alone, and finds the memory so. -/
structure Alone (prog : τ → List (Instr L V R)) (uses writes : τ → Set L) (regs : τ → R)
    (mem : L → V) (st : State τ L V R) : Prop where
  alone : ∀ t, ∃ before, prog t = before ++ st.rest t ∧
    st.regs t = (exec before (regs t,mem)).1 ∧
    ∀ a ∈ uses t, st.mem a = (exec before (regs t,mem)).2 a
  frame : ∀ a, (∀ t, a ∉ writes t) → st.mem a = mem a

omit [DecidableEq τ] in
theorem Instr.exec_congr {i : Instr L V R} {uses : Set L} {r : R} {m m' : L → V}
    (hi : i.addr r ∈ uses) (h : ∀ a ∈ uses, m a = m' a) :
    (i.exec (r,m)).1 = (i.exec (r,m')).1 ∧ ∀ a ∈ uses, (i.exec (r,m)).2 a = (i.exec (r,m')).2 a := by
  cases i with
  | load addr keep => exact ⟨congrArg (keep r) (h _ hi),h⟩
  | store addr value =>
    refine ⟨rfl,fun a ha => ?_⟩
    simp only [Instr.exec]
    by_cases haddr : a = addr r
    · rw [haddr,Function.update_self,Function.update_self]
    · rw [Function.update_of_ne haddr,Function.update_of_ne haddr]
      exact h a ha

omit [DecidableEq τ] in
theorem Instr.exec_frame {i : Instr L V R} {writes : Set L} {r : R} (m : L → V)
    (hi : i.Stores → i.addr r ∈ writes) {a : L} (ha : a ∉ writes) : (i.exec (r,m)).2 a = m a := by
  cases i with
  | load addr keep => rfl
  | store addr value =>
    refine Function.update_of_ne (fun haddr => ha ?_) _ _
    rw [haddr]
    exact hi trivial

section
variable {prog : τ → List (Instr L V R)} {uses writes : τ → Set L} {regs : τ → R} {mem : L → V}
  {st st' : State τ L V R} {tr : List τ} (hregions : Regions prog uses writes)
include hregions

omit [DecidableEq L] [DecidableEq τ] in
theorem Regions.next {t : τ} {before is : List (Instr L V R)} {i : Instr L V R}
    (hprog : prog t = before ++ i :: is) (r : R) :
    i.addr r ∈ uses t ∧ (i.Stores → i.addr r ∈ writes t) := by
  have hmem : i ∈ prog t := by simp [hprog]
  exact ⟨hregions.used t i hmem r,fun hs => hregions.written t i hmem hs r⟩

theorem step_alone {o : Option τ} (h : Alone prog uses writes regs mem st) (hs : Step st o st') :
    Alone prog uses writes regs mem st' := by
  cases hs with
  | @step t i is hrest =>
    obtain ⟨before,hprog,hregs,hmem⟩ := h.alone t
    rw [hrest] at hprog
    obtain ⟨huse,hwrite⟩ := hregions.next hprog (st.regs t)
    refine ⟨fun u => ?_,fun a ha => ?_⟩
    · by_cases hu : u = t
      · subst hu
        refine ⟨before ++ [i],?_,?_⟩
        · simp only [Function.update_self,hprog,List.append_assoc,List.singleton_append]
        · simp only [Function.update_self,exec_append,exec_cons,exec_nil]
          have hcongr := Instr.exec_congr huse hmem
          rwa [hregs] at hcongr ⊢
      · obtain ⟨before',hprog',hregs',hmem'⟩ := h.alone u
        simp only [Function.update_of_ne hu]
        refine ⟨before',hprog',hregs',fun a ha => ?_⟩
        have hnot : a ∉ writes t := fun hw =>
          Set.disjoint_left.mp (hregions.apart t u (Ne.symm hu)) hw ha
        rw [Instr.exec_frame st.mem hwrite hnot]
        exact hmem' a ha
    · exact (Instr.exec_frame st.mem hwrite (ha t)).trans (h.frame a ha)

/-- In every run each thread does what it would do alone. -/
theorem run_alone (hr : Run Step ⟨regs,prog,mem⟩ tr st) : Alone prog uses writes regs mem st := by
  refine hr.invariant (fun _ st => Alone prog uses writes regs mem st) ?_
    (fun _ _ _ _ h hs => step_alone hregions h hs)
  exact ⟨fun t => ⟨[],rfl,rfl,fun _ _ => rfl⟩,fun _ _ => rfl⟩

/-- No run comes to a race. -/
theorem run_not_race (hr : Run Step ⟨regs,prog,mem⟩ tr st) : ¬st.Race := by
  rintro ⟨t,u,i,j,is,js,hne,ht,hu,haddr,hstores⟩
  have h := run_alone hregions hr
  obtain ⟨before,hprog,_⟩ := h.alone t
  obtain ⟨before',hprog',_⟩ := h.alone u
  rw [ht] at hprog
  rw [hu] at hprog'
  have hwrite := (hregions.next hprog (st.regs t)).2 hstores
  have huse := (hregions.next hprog' (st.regs u)).1
  rw [haddr] at hwrite
  exact Set.disjoint_left.mp (hregions.apart t u hne) hwrite huse

theorem run_results (hr : Run Step ⟨regs,prog,mem⟩ tr st) (hdone : ∀ t, st.rest t = []) :
    (∀ t, ∀ a ∈ uses t, st.mem a = (exec (prog t) (regs t,mem)).2 a) ∧
      ∀ a, (∀ t, a ∉ writes t) → st.mem a = mem a := by
  have h := run_alone hregions hr
  refine ⟨fun t a ha => ?_,h.frame⟩
  obtain ⟨before,hprog,_,hmem⟩ := h.alone t
  rw [hdone t,List.append_nil] at hprog
  rw [hprog]
  exact hmem a ha

end

section
variable [Fintype τ] {st st' : State τ L V R} {o : Option τ}

/-- The instructions that are left. -/
def work (st : State τ L V R) : Nat := ∑ t, (st.rest t).length

theorem step_work (hs : Step st o st') : work st' < work st := by
  cases hs with
  | @step t i is hrest =>
    refine Finset.sum_lt_sum (fun u _ => ?_) ⟨t,Finset.mem_univ t,?_⟩
    · by_cases hu : u = t
      · subst hu
        simp only [Function.update_self,hrest,List.length_cons]
        exact Nat.le_succ _
      · simp only [Function.update_of_ne hu]
        exact Nat.le_refl _
    · simp only [Function.update_self,hrest,List.length_cons]
      exact Nat.lt_succ_self _

theorem acc_step (st : State τ L V R) : Acc (fun st' st => ∃ o, Step st o st') st :=
  acc_of_measure (fun _ => True) work (fun _ _ _ _ hs => ⟨trivial,step_work hs⟩) trivial

omit [Fintype τ] in
theorem exists_step {t : τ} (ht : st.rest t ≠ []) : ∃ o st', Step st o st' := by
  obtain ⟨i,is,hrest⟩ := List.exists_cons_of_ne_nil ht
  exact ⟨_,_,.step hrest⟩

/-- What it means that the threads of a program run to their ends without a race. -/
structure RaceFree (prog : τ → List (Instr L V R)) (regs : τ → R) (mem : L → V) : Prop where
  races : ∀ tr st, Run Step ⟨regs,prog,mem⟩ tr st → ¬st.Race
  stops : Acc (fun st' st => ∃ o, Step st o st') ⟨regs,prog,mem⟩
  moves : ∀ tr st, Run Step ⟨regs,prog,mem⟩ tr st → (∃ t, st.rest t ≠ []) → ∃ o st', Step st o st'

theorem Regions.raceFree {prog : τ → List (Instr L V R)} {uses writes : τ → Set L}
    (h : Regions prog uses writes) (regs : τ → R) (mem : L → V) : RaceFree prog regs mem :=
  ⟨fun _ _ hr => run_not_race h hr,acc_step _,fun _ _ _ ⟨_,ht⟩ => exists_step ht⟩

end

end

end FlashMob.Lib.Threads
