import FlashMob.Graph.Hint
import FlashMob.Lib.Writes

namespace FlashMob.Partition
open Floating Lib.Writes FlashMob.Graph

variable {D : Type} [Floating D]

/-- A candidate of a group: its hint, and the class of each of its partitions. -/
structure Candidate (D : Type) where
  hint : GroupHint D
  partitionSc : List SamplerClass

/-- What a candidate is made from: its layout, the walkers of its group, and for each of
its partitions the methods with the cost modelled for them. -/
structure Menu (D : Type) where
  vertexBegin : Nat
  vertexEnd : Nat
  partitionBits : Nat
  partitionNum : Nat
  walkerNum : D
  offers : List (List (SamplerClass × D))
  deriving DecidableEq

/-- The loop over `partition_methods`: the first of the cheapest methods. -/
def choosePartitionSc (methods : List (SamplerClass × D)) : D × Option SamplerClass :=
  methods.foldl (fun best method =>
    if lt best.1 (ofNat 0) || lt method.2 best.1 then (method.2, some method.1) else best)
    (minusOne, none)

/-- The loop over the partitions of a candidate. A partition without a method would get an
uninitialised class. -/
def evaluateOffers (offers : List (List (SamplerClass × D))) : Option (D × List SamplerClass) :=
  offers.foldlM (fun st methods =>
    let best := choosePartitionSc methods
    best.2.map (fun sc => (add st.1 best.1, st.2 ++ [sc]))) (ofNat 0, [])

def Menu.evaluate (menu : Menu D) : Option (Candidate D) :=
  (evaluateOffers menu.offers).map (fun st =>
    { hint := {
        vertexBegin := menu.vertexBegin
        vertexEnd := menu.vertexEnd
        partitionBits := menu.partitionBits
        partitionNum := menu.partitionNum
        totalTime := st.1
        stepTime := div st.1 menu.walkerNum
        partitionLevel := 0 }
      partitionSc := st.2 })

/-- A cell of the table; `previous` points to a row and a column. -/
structure DPGroup (D : Type) where
  val : D
  candidateIdx : Option Nat
  previous : Option (Nat × Nat)

def weight (hint : GroupHint D) : Nat :=
  if hint.partitionLevel = 0 then hint.partitionNum else 1

/-- The body of the loop over `p_i`; `previous` is at row `g` and column `c`. -/
def relaxCell (g c candidateIdx : Nat) (totalTime : D) (previous current : DPGroup D) :
    DPGroup D :=
  if lt previous.val (ofNat 0) then current
  else if lt current.val (ofNat 0) || lt (add previous.val totalTime) current.val then
    ⟨add previous.val totalTime, some candidateIdx, some (g,c)⟩
  else current

/-- One candidate, tried at every column of the row after `prevRow`. -/
def relaxRow (P g : Nat) (prevRow row : Nat → DPGroup D) (candidate : GroupHint D × Nat) :
    Nat → DPGroup D :=
  let w := weight candidate.1
  (List.range' w (P + 1 - w)).foldl (fun row p => Function.update row p
    (relaxCell g (p - w) candidate.2 candidate.1.totalTime (prevRow (p - w)) (row p))) row

/-- The last loop of a row. Its third comparison is of a cell with itself. -/
def copyRow (P : Nat) (row : Nat → DPGroup D) : Nat → DPGroup D :=
  (List.range' 1 P).foldl (fun row p =>
    if le (ofNat 0) (row (p - 1)).val &&
        (lt (row p).val (ofNat 0) || lt (row p).val (row p).val) then
      Function.update row p (row (p - 1))
    else row) row

def emptyRow : Nat → DPGroup D := fun _ => ⟨minusOne, none, none⟩

def nextRow (P g : Nat) (prevRow : Nat → DPGroup D) (hints : List (GroupHint D)) :
    Nat → DPGroup D :=
  copyRow P (hints.zipIdx.foldl (relaxRow P g prevRow) emptyRow)

def table (P : Nat) (candidates : List (List (Candidate D))) : Nat → Nat → DPGroup D
  | 0 => fun _ => ⟨ofNat 0, none, none⟩
  | g+1 => nextRow P g (table P candidates g) ((candidates.getD g []).map Candidate.hint)

/-- The loop that follows the pointers down; a null pointer fails the check. -/
def recover (f : Nat → Nat → DPGroup D) : Nat → Option (Nat × Nat) → Option (List (DPGroup D))
  | 0, _ => some []
  | _+1, none => none
  | g+1, some (r,c) => (recover f g (f r c).previous).map (fun results => results ++ [f r c])

def pick : List (List (Candidate D)) → List (DPGroup D) → Option (List (Candidate D))
  | [], _ => some []
  | _ :: _, [] => none
  | cs :: css, r :: rs =>
    (r.candidateIdx.bind (fun i => cs[i]?)).bind (fun c => (pick css rs).map (fun cs => c :: cs))

/-- The selection: one candidate for each group, from the cell `f[G][P]`. -/
def solve (P : Nat) (candidates : List (List (Candidate D))) : Option (List (Candidate D)) :=
  let G := candidates.length
  (recover (table P candidates) G (some (G,P))).bind (pick candidates)

def plan (P : Nat) (menus : List (List (Menu D))) : Option (List (Candidate D)) :=
  (menus.mapM (fun (group : List (Menu D)) => group.mapM Menu.evaluate)).bind (solve P)

/-- What a cell of the row after `prevRow` holds: nothing, or a candidate put behind an
earlier cell that leaves room for it. -/
def CellOk (g : Nat) (prevRow : Nat → DPGroup D) (hints : List (GroupHint D)) (p : Nat)
    (cell : DPGroup D) : Prop :=
  cell = ⟨minusOne, none, none⟩ ∨ ∃ idx hint c, hints[idx]? = some hint ∧
    c + weight hint ≤ p ∧ lt (prevRow c).val (ofNat 0) = false ∧
    cell = ⟨add (prevRow c).val hint.totalTime, some idx, some (g,c)⟩

variable {P g p : Nat} {prevRow row : Nat → DPGroup D} {hints : List (GroupHint D)}

theorem relaxRow_apply (candidate : GroupHint D × Nat) :
    relaxRow P g prevRow row candidate p =
      if weight candidate.1 ≤ p ∧ p ≤ P then
        relaxCell g (p - weight candidate.1) candidate.2 candidate.1.totalTime
          (prevRow (p - weight candidate.1)) (row p)
      else row p := by
  unfold relaxRow
  rw [foldl_modify_range' (fun p cell => relaxCell g (p - weight candidate.1) candidate.2
    candidate.1.totalTime (prevRow (p - weight candidate.1)) cell)]
  by_cases h : weight candidate.1 ≤ p ∧ p ≤ P
  · rw [if_pos h,if_pos (by omega)]
  · rw [if_neg h,if_neg (by omega)]

theorem CellOk.mono {q : Nat} {cell : DPGroup D} (h : CellOk g prevRow hints p cell)
    (hpq : p ≤ q) : CellOk g prevRow hints q cell := by
  rcases h with h | ⟨idx,hint,c,hi,hw,hp,he⟩
  · exact Or.inl h
  · exact Or.inr ⟨idx,hint,c,hi,Nat.le_trans hw hpq,hp,he⟩

theorem relaxRow_cellOk {hint : GroupHint D} {idx : Nat} (hi : hints[idx]? = some hint)
    (h : ∀ p, CellOk g prevRow hints p (row p)) (p : Nat) :
    CellOk g prevRow hints p (relaxRow P g prevRow row (hint,idx) p) := by
  rw [relaxRow_apply]
  split_ifs with hp
  · unfold relaxCell
    by_cases hprev : lt (prevRow (p - weight hint)).val (ofNat 0)
    · rw [if_pos hprev]
      exact h p
    · rw [if_neg hprev]
      split_ifs
      · exact Or.inr ⟨idx,hint,p - weight hint,hi,by simp only at hp; omega,by simpa using hprev,rfl⟩
      · exact h p
  · exact h p

theorem copyRow_cellOk (h : ∀ p, CellOk g prevRow hints p (row p)) (n : Nat) :
    ∀ p, CellOk g prevRow hints p (copyRow n row p) := by
  unfold copyRow
  refine List.foldlRecOn (motive := fun row : Nat → DPGroup D => ∀ p, CellOk g prevRow hints p (row p))
    (List.range' 1 n) _ h ?_
  intro row hrow q hq p
  have hq1 := (List.mem_range'_1.mp hq).1
  split_ifs
  · by_cases hp : p = q
    · subst hp
      rw [Function.update_self]
      exact (hrow (p - 1)).mono (by omega)
    · rw [Function.update_of_ne hp]
      exact hrow p
  · exact hrow p

theorem nextRow_cellOk (P g : Nat) (prevRow : Nat → DPGroup D) (hints : List (GroupHint D)) :
    ∀ p, CellOk g prevRow hints p (nextRow P g prevRow hints p) := by
  apply copyRow_cellOk
  refine List.foldlRecOn (motive := fun row : Nat → DPGroup D => ∀ p, CellOk g prevRow hints p (row p))
    hints.zipIdx _ (fun p => Or.inl rfl) ?_
  intro row hrow candidate hmem p
  exact relaxRow_cellOk (by simpa using List.mem_zipIdx_iff_getElem?.mp hmem) hrow p

theorem table_cellOk (P : Nat) (candidates : List (List (Candidate D))) (g p : Nat) :
    CellOk g (table P candidates g) ((candidates.getD g []).map Candidate.hint) p
      (table P candidates (g + 1) p) :=
  nextRow_cellOk P g _ _ p

omit [Floating D] in
theorem pick_append {css css' : List (List (Candidate D))} {rs rs' : List (DPGroup D)}
    (h : rs.length = css.length) :
    pick (css ++ css') (rs ++ rs') =
      (pick css rs).bind (fun cs => (pick css' rs').map (fun cs' => cs ++ cs')) := by
  induction css generalizing rs with
  | nil => rw [List.length_eq_zero_iff.mp h]; simp [pick]
  | cons cs css ih =>
    cases rs with
    | nil => simp at h
    | cons r rs =>
      simp only [List.cons_append,pick]
      rw [ih (by simpa using h)]
      cases r.candidateIdx.bind (fun i => cs[i]?) with
      | none => rfl
      | some x => cases pick css rs <;> simp [Function.comp_def]

omit [Floating D] in
theorem recover_length (f : Nat → Nat → DPGroup D) (g : Nat) (ptr : Option (Nat × Nat))
    (rs : List (DPGroup D)) (h : recover f g ptr = some rs) : rs.length = g := by
  induction g generalizing ptr rs with
  | zero => cases h; rfl
  | succ g ih =>
    cases ptr with
    | none => cases h
    | some ptr =>
      obtain ⟨rs',hr,rfl⟩ := Option.map_eq_some_iff.mp h
      simp [ih _ _ hr]

/-- The recovered cells name one candidate of each group, within the budget of the last
cell. This holds under any rounding. -/
theorem recover_choice (P : Nat) (candidates : List (List (Candidate D))) (g p : Nat)
    (hg : g ≤ candidates.length) (rs : List (DPGroup D)) (cs : List (Candidate D))
    (hr : recover (table P candidates) g (some (g,p)) = some rs)
    (hc : pick (candidates.take g) rs = some cs) :
    List.Forall₂ (· ∈ ·) cs (candidates.take g) ∧
      (cs.map (fun c => weight c.hint)).sum ≤ p := by
  induction g generalizing p rs cs with
  | zero =>
    simp only [List.take_zero,pick,Option.some.injEq] at hc
    subst hc
    exact ⟨.nil,Nat.zero_le _⟩
  | succ g ih =>
    obtain ⟨rs',hr',rfl⟩ := Option.map_eq_some_iff.mp hr
    have hlt : g < candidates.length := hg
    have htake : candidates.take (g+1) = candidates.take g ++ [candidates[g]] :=
      (List.take_concat_get' candidates g hlt).symm
    rw [htake,pick_append (by rw [recover_length _ _ _ _ hr',List.length_take]; omega)] at hc
    obtain ⟨cs₁,hc₁,hc⟩ := Option.bind_eq_some_iff.mp hc
    obtain ⟨cs₂,hc₂,rfl⟩ := Option.map_eq_some_iff.mp hc
    simp only [pick,Option.bind_eq_some_iff,Option.map_some,Option.some.injEq] at hc₂
    obtain ⟨x,⟨i,hidx,hget⟩,rfl⟩ := hc₂
    rcases table_cellOk P candidates g p with he | ⟨idx,hint,c,hi,hw,_,he⟩
    · rw [he] at hidx
      cases hidx
    · rw [he] at hidx hr'
      cases hidx
      rw [List.getD_eq_getElem _ _ hlt,List.getElem?_map,hget] at hi
      cases hi
      obtain ⟨hmem,hsum⟩ := ih c (Nat.le_of_lt hlt) rs' cs₁ hr' hc₁
      rw [htake]
      refine ⟨List.rel_append hmem (.cons (List.mem_of_getElem? hget) .nil),?_⟩
      simp only [List.map_append,List.map_cons,List.map_nil,List.sum_append,List.sum_singleton]
      omega

theorem solve_choice {P : Nat} {candidates : List (List (Candidate D))}
    {selected : List (Candidate D)} (h : solve P candidates = some selected) :
    List.Forall₂ (· ∈ ·) selected candidates ∧
      (selected.map (fun c => weight c.hint)).sum ≤ P := by
  obtain ⟨rs,hr,hc⟩ := Option.bind_eq_some_iff.mp h
  have htake : candidates.take candidates.length = candidates := List.take_length
  have hrec := recover_choice P candidates candidates.length P (Nat.le_refl _) rs selected hr
    (by rw [htake]; exact hc)
  rwa [htake] at hrec

end FlashMob.Partition
