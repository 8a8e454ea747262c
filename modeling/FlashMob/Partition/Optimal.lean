import FlashMob.Partition.Solve
import FlashMob.Lib.Knapsack

namespace FlashMob.Partition
open Floating Lib.Knapsack FlashMob.Graph

variable {K : Type} [Field K] [LinearOrder K] [FloorSemiring K]

def DPGroup.val? (cell : DPGroup K) : Option K := if cell.val < 0 then none else some cell.val

variable [IsStrictOrderedRing K]

theorem relaxCell_val? {g c idx : Nat} {t : K} (ht : 0 ≤ t) (prev cur : DPGroup K) :
    (relaxCell g c idx t prev cur).val? = relax t prev.val? cur.val? := by
  unfold relaxCell DPGroup.val?
  simp only [exact_lt,exact_add,exact_ofNat,Nat.cast_zero,Bool.or_eq_true,decide_eq_true_eq]
  by_cases hprev : prev.val < 0
  · simp only [if_pos hprev,relax]
  · have hsum : ¬prev.val + t < 0 := not_lt.mpr (add_nonneg (not_lt.mp hprev) ht)
    simp only [if_neg hprev]
    by_cases hcur : cur.val < 0
    · simp only [hcur,true_or,if_true,if_neg hsum,relax]
    · by_cases hlt : prev.val + t < cur.val
      · simp only [hlt,or_true,if_true,if_neg hsum,if_neg hcur,relax]
      · simp only [hcur,hlt,or_self,if_false,relax]

variable {P g : Nat} {prevRow row : Nat → DPGroup K} {gs : List (List (GroupHint K))}

/-- The loop over the candidates of a group computes the recurrence at every column. -/
theorem relax_best {hints : List (GroupHint K)} (hnn : ∀ h ∈ hints, 0 ≤ h.totalTime)
    (hprev : ∀ p ≤ P, Best weight GroupHint.totalTime gs p (prevRow p).val?) (p : Nat)
    (hp : p ≤ P) : Best weight GroupHint.totalTime (gs ++ [hints]) p
      (hints.zipIdx.foldl (relaxRow P g prevRow) emptyRow p).val? := by
  induction hints using List.reverseRecOn with
  | nil =>
    have hnone : (emptyRow p : DPGroup K).val? = none := if_pos (by simp [emptyRow])
    rw [List.zipIdx_nil,List.foldl_nil,hnone]
    exact best_empty_group p
  | append_singleton hints hint ih =>
    have hrow := ih (fun h hm => hnn h (List.mem_append_left _ hm))
    rw [List.zipIdx_append,List.foldl_append]
    simp only [List.zipIdx_cons,List.zipIdx_nil,List.foldl_cons,List.foldl_nil]
    rw [relaxRow_apply]
    by_cases hw : weight hint ≤ p
    · rw [if_pos ⟨hw,hp⟩,relaxCell_val? (hnn hint (by simp))]
      exact best_relax hw hrow (hprev _ (by omega))
    · rw [if_neg (fun h => hw h.1)]
      exact best_skip (by omega) hrow

omit [IsStrictOrderedRing K] in
theorem copyRow_eq (h : ∀ p < P, 0 ≤ (row p).val → 0 ≤ (row (p+1)).val) : copyRow P row = row := by
  unfold copyRow
  refine List.foldlRecOn (motive := fun r : Nat → DPGroup K => r = row) (List.range' 1 P) _ rfl ?_
  intro r hr p hp
  subst hr
  have hb := List.mem_range'_1.mp hp
  have hkeep := h (p - 1) (by omega)
  rw [Nat.sub_add_cancel hb.1] at hkeep
  simp only [exact_le,exact_lt,exact_ofNat,Nat.cast_zero,lt_self_iff_false,decide_false,
    Bool.or_false,Bool.and_eq_true,decide_eq_true_eq]
  rw [if_neg (fun hc => absurd (hkeep hc.1) (not_le.mpr hc.2))]

theorem nextRow_best {hints : List (GroupHint K)} (hnn : ∀ h ∈ hints, 0 ≤ h.totalTime)
    (hprev : ∀ p ≤ P, Best weight GroupHint.totalTime gs p (prevRow p).val?) (p : Nat)
    (hp : p ≤ P) : Best weight GroupHint.totalTime (gs ++ [hints]) p
      (nextRow P g prevRow hints p).val? := by
  have hbest := relax_best (g := g) hnn hprev
  rw [nextRow,copyRow_eq]
  · exact hbest p hp
  · intro q hq hfeas
    apply not_lt.mp
    intro hinf
    have h1 := hbest q (Nat.le_of_lt hq)
    have h2 := hbest (q+1) hq
    rw [DPGroup.val?,if_neg (not_lt.mpr hfeas)] at h1
    rw [DPGroup.val?,if_pos hinf] at h2
    exact best_mono (Nat.le_succ q) h1 h2

def hintsOf (candidates : List (List (Candidate K))) : List (List (GroupHint K)) :=
  candidates.map (fun group => group.map Candidate.hint)

/-- Every cell holds the least time of a choice for its groups and its budget. -/
theorem table_best {candidates : List (List (Candidate K))}
    (hnn : ∀ group ∈ candidates, ∀ c ∈ group, 0 ≤ c.hint.totalTime) (g p : Nat)
    (hg : g ≤ candidates.length) (hp : p ≤ P) :
    Best weight GroupHint.totalTime ((hintsOf candidates).take g) p
      (table P candidates g p).val? := by
  induction g generalizing p with
  | zero =>
    have hzero : (table P candidates 0 p).val? = some 0 := by
      rw [DPGroup.val?,if_neg (by simp [table])]
      simp [table]
    rw [List.take_zero,hzero]
    exact best_nil p
  | succ g ih =>
    have hlt : g < candidates.length := hg
    have hlen : g < (hintsOf candidates).length := by simpa [hintsOf] using hlt
    have hget : (hintsOf candidates)[g] = candidates[g].map Candidate.hint := by simp [hintsOf]
    rw [← List.take_concat_get' (hintsOf candidates) g hlen,hget,table,
      List.getD_eq_getElem _ _ hlt]
    refine nextRow_best ?_ (fun q hq => ih q (Nat.le_of_lt hlt) hq) p hp
    intro h hm
    obtain ⟨c,hc,rfl⟩ := List.mem_map.mp hm
    exact hnn _ (List.getElem_mem hlt) c hc

theorem recover_exact {candidates : List (List (Candidate K))} (g p : Nat)
    (hg : g ≤ candidates.length) (hfeas : 0 ≤ (table P candidates g p).val) :
    ∃ rs cs, recover (table P candidates) g (some (g,p)) = some rs ∧
      pick (candidates.take g) rs = some cs ∧
      (cs.map (fun c => c.hint.totalTime)).sum = (table P candidates g p).val := by
  induction g generalizing p with
  | zero => exact ⟨[],[],rfl,rfl,by simp [table]⟩
  | succ g ih =>
    have hlt : g < candidates.length := hg
    rcases table_cellOk P candidates g p with he | ⟨idx,hint,c,hi,_,hprev,he⟩
    · rw [he] at hfeas
      exact absurd hfeas (by simp)
    · have hfeas' : 0 ≤ (table P candidates g c).val := by simpa using hprev
      obtain ⟨rs,cs,hr,hc,hsum⟩ := ih c (Nat.le_of_lt hlt) hfeas'
      rw [List.getD_eq_getElem _ _ hlt,List.getElem?_map] at hi
      obtain ⟨x,hx,hhint⟩ := Option.map_eq_some_iff.mp hi
      refine ⟨rs ++ [table P candidates (g+1) p],cs ++ [x],?_,?_,?_⟩
      · simp only [recover,he,hr,Option.map_some]
      · rw [← List.take_concat_get' candidates g hlt,
          pick_append (by rw [recover_length _ _ _ _ hr,List.length_take]; omega),hc]
        simp [pick,he,hx]
      · rw [he]
        simp [hsum,hhint]

/-- The selection is a cheapest one among all that fit the budget. -/
theorem solve_optimal {candidates : List (List (Candidate K))}
    (hnn : ∀ group ∈ candidates, ∀ c ∈ group, 0 ≤ c.hint.totalTime)
    (hfit : ∃ cs, List.Forall₂ (· ∈ ·) cs candidates ∧
      (cs.map (fun c => weight c.hint)).sum ≤ P) :
    ∃ selected, solve P candidates = some selected ∧
      ∀ cs, List.Forall₂ (· ∈ ·) cs candidates →
        (cs.map (fun c => weight c.hint)).sum ≤ P →
        (selected.map (fun c => c.hint.totalTime)).sum ≤
          (cs.map (fun c => c.hint.totalTime)).sum := by
  have hbest := table_best (P := P) hnn candidates.length P (Nat.le_refl _) (Nat.le_refl _)
  rw [List.take_of_length_le (by simp [hintsOf])] at hbest
  -- A choice of candidates is a choice of their hints.
  have hchoice : ∀ cs, List.Forall₂ (· ∈ ·) cs candidates →
      Choice (cs.map Candidate.hint) (hintsOf candidates) := by
    intro cs hcs
    refine List.forall₂_map_left_iff.mpr (List.forall₂_map_right_iff.mpr ?_)
    exact hcs.imp (fun _ _ hm => List.mem_map_of_mem hm)
  have hfeas : 0 ≤ (table P candidates candidates.length P).val := by
    apply not_lt.mp
    intro hlt
    rw [DPGroup.val?,if_pos hlt] at hbest
    obtain ⟨cs,hcs,hle⟩ := hfit
    have := hbest _ (hchoice cs hcs)
    rw [List.map_map] at this
    exact absurd hle (Nat.not_le.mpr this)
  obtain ⟨rs,selected,hr,hc,hsum⟩ := recover_exact candidates.length P (Nat.le_refl _) hfeas
  rw [List.take_length] at hc
  refine ⟨selected,Option.bind_eq_some_iff.mpr ⟨rs,hr,hc⟩,?_⟩
  intro cs hcs hle
  rw [DPGroup.val?,if_neg (not_lt.mpr hfeas)] at hbest
  have hmin := hbest.2 _ (hchoice cs hcs) (by rw [List.map_map]; exact hle)
  rw [List.map_map] at hmin
  rw [hsum]
  exact hmin

theorem choosePartitionSc_spec {methods : List (SamplerClass × K)} (hne : methods ≠ [])
    (hnn : ∀ m ∈ methods, 0 ≤ m.2) :
    ∃ m ∈ methods, choosePartitionSc methods = (m.2,some m.1) ∧ ∀ m' ∈ methods, m.2 ≤ m'.2 := by
  induction methods using List.reverseRecOn with
  | nil => exact absurd rfl hne
  | append_singleton methods x ih =>
    have hfold : choosePartitionSc (methods ++ [x]) =
        if (choosePartitionSc methods).1 < 0 ∨ x.2 < (choosePartitionSc methods).1 then
          (x.2,some x.1) else choosePartitionSc methods := by
      simp [choosePartitionSc,List.foldl_append]
    by_cases hm : methods = []
    · subst hm
      refine ⟨x,by simp,?_,by simp⟩
      rw [hfold,if_pos (Or.inl (by simp [choosePartitionSc]))]
    · obtain ⟨m,hmem,he,hmin⟩ := ih hm (fun m h => hnn m (List.mem_append_left _ h))
      have hpos := hnn m (List.mem_append_left _ hmem)
      rw [hfold,he]
      by_cases hlt : x.2 < m.2
      · rw [if_pos (Or.inr hlt)]
        refine ⟨x,by simp,rfl,?_⟩
        intro m' hm'
        rcases List.mem_append.mp hm' with h | h
        · exact le_trans (le_of_lt hlt) (hmin m' h)
        · rw [List.mem_singleton.mp h]
      · rw [if_neg (by rintro (h | h); exacts [absurd hpos (not_le.mpr h),hlt h])]
        refine ⟨m,List.mem_append_left _ hmem,rfl,?_⟩
        intro m' hm'
        rcases List.mem_append.mp hm' with h | h
        · exact hmin m' h
        · rw [List.mem_singleton.mp h]
          exact not_lt.mp hlt

/-- The total time of a candidate is the least cost of a class for each of its partitions. -/
theorem evaluateOffers_spec {offers : List (List (SamplerClass × K))}
    (h : ∀ methods ∈ offers, methods ≠ [] ∧ ∀ m ∈ methods, 0 ≤ m.2) :
    ∃ chosen, List.Forall₂ (· ∈ ·) chosen offers ∧
      evaluateOffers offers = some ((chosen.map Prod.snd).sum,chosen.map Prod.fst) ∧
      ∀ other, List.Forall₂ (· ∈ ·) other offers →
        (chosen.map Prod.snd).sum ≤ (other.map Prod.snd).sum := by
  induction offers using List.reverseRecOn with
  | nil =>
    refine ⟨[],.nil,by simp [evaluateOffers],?_⟩
    intro other ho
    cases ho
    exact le_refl _
  | append_singleton offers methods ih =>
    obtain ⟨chosen,hc,he,hmin⟩ := ih (fun ms hm => h ms (List.mem_append_left _ hm))
    obtain ⟨hne,hnn⟩ := h methods (by simp)
    obtain ⟨m,hmem,hbest,hlow⟩ := choosePartitionSc_spec hne hnn
    refine ⟨chosen ++ [m],List.rel_append hc (.cons hmem .nil),?_,?_⟩
    · rw [evaluateOffers,List.foldlM_append]
      rw [evaluateOffers] at he
      rw [he]
      simp [hbest]
    · intro other ho
      obtain ⟨ys,y,rfl,hy,hym⟩ := choice_concat.mp ho
      simp only [List.map_append,List.sum_append,List.map_cons,List.map_nil,List.sum_singleton]
      exact add_le_add (hmin ys hy) (hlow y hym)

/-- One candidate for each group and one method for each of its partitions. -/
abbrev Selection (K : Type) := List (Menu K × List (SamplerClass × K))

namespace Selection

def Valid (sel : Selection K) (menus : List (List (Menu K))) : Prop :=
  List.Forall₂ (fun s group => s.1 ∈ group ∧ List.Forall₂ (· ∈ ·) s.2 s.1.offers) sel menus

def weight (sel : Selection K) : Nat := (sel.map (fun s => s.1.partitionNum)).sum

def cost (sel : Selection K) : K := (sel.map (fun s => (s.2.map Prod.snd).sum)).sum

end Selection

/-- The candidate that a menu with a method chosen for each partition stands for. -/
def Makes (s : Menu K × List (SamplerClass × K)) (c : Candidate K) : Prop :=
  c.hint.vertexBegin = s.1.vertexBegin ∧ c.hint.vertexEnd = s.1.vertexEnd ∧
  c.hint.partitionBits = s.1.partitionBits ∧ c.hint.partitionNum = s.1.partitionNum ∧
  Partition.weight c.hint = s.1.partitionNum ∧
  c.hint.totalTime = (s.2.map Prod.snd).sum ∧ c.partitionSc = s.2.map Prod.fst

theorem evaluate_spec {menu : Menu K}
    (h : ∀ methods ∈ menu.offers, methods ≠ [] ∧ ∀ m ∈ methods, 0 ≤ m.2) :
    ∃ chosen c, List.Forall₂ (· ∈ ·) chosen menu.offers ∧ menu.evaluate = some c ∧
      Makes (menu,chosen) c ∧ 0 ≤ c.hint.totalTime ∧
      ∀ other, List.Forall₂ (· ∈ ·) other menu.offers →
        c.hint.totalTime ≤ (other.map Prod.snd).sum := by
  obtain ⟨chosen,hc,he,hmin⟩ := evaluateOffers_spec h
  refine ⟨chosen,_,hc,by rw [Menu.evaluate,he]; rfl,⟨rfl,rfl,rfl,rfl,rfl,rfl,rfl⟩,?_,hmin⟩
  apply List.sum_nonneg
  intro v hv
  obtain ⟨m,hm,rfl⟩ := List.mem_map.mp hv
  obtain ⟨methods,hmethods,hmem⟩ := partner_right hc hm
  exact (h methods hmethods).2 m hmem

theorem evaluate_groups {menus : List (List (Menu K))}
    (h : ∀ group ∈ menus, ∀ menu ∈ group, ∀ methods ∈ menu.offers,
      methods ≠ [] ∧ ∀ m ∈ methods, 0 ≤ m.2) :
    ∃ candidates, menus.mapM (fun (group : List (Menu K)) => group.mapM Menu.evaluate) =
        some candidates ∧
      List.Forall₂ (List.Forall₂ (fun menu c => menu.evaluate = some c)) menus candidates := by
  have hgroup : ∀ group : List (Menu K), (∀ menu ∈ group, ∀ methods ∈ menu.offers,
      methods ≠ [] ∧ ∀ m ∈ methods, 0 ≤ m.2) → ∃ cs, group.mapM Menu.evaluate = some cs ∧
        List.Forall₂ (fun menu c => menu.evaluate = some c) group cs := by
    intro group hg
    induction group with
    | nil => exact ⟨[],rfl,.nil⟩
    | cons menu group ih =>
      obtain ⟨cs,hcs,hall⟩ := ih (fun menu hm => hg menu (List.mem_cons_of_mem _ hm))
      obtain ⟨_,c,_,hc,_⟩ := evaluate_spec (hg menu List.mem_cons_self)
      exact ⟨c :: cs,by simp [hc,hcs],.cons hc hall⟩
  induction menus with
  | nil => exact ⟨[],rfl,.nil⟩
  | cons group menus ih =>
    obtain ⟨css,hcss,hall⟩ := ih (fun g hm => h g (List.mem_cons_of_mem _ hm))
    obtain ⟨cs,hcs,hg⟩ := hgroup group (h group List.mem_cons_self)
    exact ⟨cs :: css,by simp [hcs,hcss],.cons hg hall⟩

/-- Candidates chosen from the evaluated groups come from menus with the cheapest methods. -/
theorem selection_of_candidates {menus : List (List (Menu K))}
    {candidates : List (List (Candidate K))} {cs : List (Candidate K)}
    (h : ∀ group ∈ menus, ∀ menu ∈ group, ∀ methods ∈ menu.offers,
      methods ≠ [] ∧ ∀ m ∈ methods, 0 ≤ m.2)
    (hall : List.Forall₂ (List.Forall₂ (fun menu c => menu.evaluate = some c)) menus candidates)
    (hcs : List.Forall₂ (· ∈ ·) cs candidates) :
    ∃ sel : Selection K, sel.Valid menus ∧ List.Forall₂ Makes sel cs := by
  induction hall generalizing cs with
  | nil => cases hcs; exact ⟨[],.nil,.nil⟩
  | @cons group group' menus candidates hg _ ih =>
    cases hcs with
    | @cons c _ cs _ hc hcs =>
      obtain ⟨sel,hval,hmakes⟩ := ih (fun g hm => h g (List.mem_cons_of_mem _ hm)) hcs
      obtain ⟨menu,hmenu,he⟩ := partner_left hg hc
      obtain ⟨chosen,c',hchosen,he',hm,_⟩ := evaluate_spec (h group List.mem_cons_self menu hmenu)
      cases he.symm.trans he'
      exact ⟨(menu,chosen) :: sel,.cons ⟨hmenu,hchosen⟩ hval,.cons hm hmakes⟩

/-- A selection of menus and methods is never cheaper than the candidates of its menus. -/
theorem candidates_of_selection {menus : List (List (Menu K))}
    {candidates : List (List (Candidate K))} {sel : Selection K}
    (h : ∀ group ∈ menus, ∀ menu ∈ group, ∀ methods ∈ menu.offers,
      methods ≠ [] ∧ ∀ m ∈ methods, 0 ≤ m.2)
    (hall : List.Forall₂ (List.Forall₂ (fun menu c => menu.evaluate = some c)) menus candidates)
    (hsel : sel.Valid menus) :
    ∃ cs, List.Forall₂ (· ∈ ·) cs candidates ∧
      (cs.map (fun c => weight c.hint)).sum = sel.weight ∧
      (cs.map (fun c => c.hint.totalTime)).sum ≤ sel.cost := by
  induction hall generalizing sel with
  | nil => cases hsel; exact ⟨[],.nil,rfl,le_refl _⟩
  | @cons group group' menus candidates hg _ ih =>
    cases hsel with
    | @cons s _ sel _ hs hsel =>
      obtain ⟨cs,hcs,hw,hcost⟩ := ih (fun g hm => h g (List.mem_cons_of_mem _ hm)) hsel
      obtain ⟨_,c',_,he',hm,_,hmin⟩ := evaluate_spec (h group List.mem_cons_self s.1 hs.1)
      obtain ⟨c,hc,he⟩ := partner_right hg hs.1
      cases he.symm.trans he'
      refine ⟨c' :: cs,.cons hc hcs,?_,?_⟩
      · simp only [List.map_cons,List.sum_cons,Selection.weight] at hw ⊢
        rw [hw,hm.2.2.2.2.1]
      · simp only [List.map_cons,List.sum_cons,Selection.cost] at hcost ⊢
        exact add_le_add (hmin _ hs.2) hcost

theorem exists_selection {menus : List (List (Menu K))} {chosen : List (Menu K)}
    (h : ∀ group ∈ menus, ∀ menu ∈ group, ∀ methods ∈ menu.offers,
      methods ≠ [] ∧ ∀ m ∈ methods, 0 ≤ m.2)
    (hchosen : List.Forall₂ (· ∈ ·) chosen menus) :
    ∃ sel : Selection K, sel.Valid menus ∧ sel.weight = (chosen.map Menu.partitionNum).sum := by
  induction hchosen with
  | nil => exact ⟨[],.nil,rfl⟩
  | @cons menu group chosen menus hmem _ ih =>
    obtain ⟨sel,hval,hw⟩ := ih (fun g hm => h g (List.mem_cons_of_mem _ hm))
    obtain ⟨ms,_,hms,_⟩ := evaluate_spec (h group List.mem_cons_self menu hmem)
    refine ⟨(menu,ms) :: sel,.cons ⟨hmem,hms⟩ hval,?_⟩
    simp only [Selection.weight,List.map_cons,List.sum_cons] at hw ⊢
    rw [hw]

omit [LinearOrder K] [FloorSemiring K] [IsStrictOrderedRing K] in
theorem makes_totals {sel : Selection K} {cs : List (Candidate K)}
    (h : List.Forall₂ Makes sel cs) : (cs.map (fun c => weight c.hint)).sum = sel.weight ∧
      (cs.map (fun c => c.hint.totalTime)).sum = sel.cost := by
  induction h with
  | nil => exact ⟨rfl,rfl⟩
  | cons hm _ ih =>
    obtain ⟨_,_,_,_,hw,hcost,_⟩ := hm
    simp only [Selection.weight,Selection.cost,List.map_cons,List.sum_cons] at ih ⊢
    rw [ih.1,ih.2,hw,hcost]
    exact ⟨rfl,rfl⟩

/-- Every candidate is evaluated, and among the evaluated ones a cheapest choice is found. -/
theorem exists_plan {P : Nat} {menus : List (List (Menu K))}
    (hmethods : ∀ group ∈ menus, ∀ menu ∈ group, ∀ methods ∈ menu.offers,
      methods ≠ [] ∧ ∀ m ∈ methods, 0 ≤ m.2)
    (hfit : ∃ chosen : List (Menu K), List.Forall₂ (· ∈ ·) chosen menus ∧
      (chosen.map Menu.partitionNum).sum ≤ P) :
    ∃ (candidates : List (List (Candidate K))) (selected : List (Candidate K)),
      List.Forall₂ (List.Forall₂ (fun menu c => menu.evaluate = some c)) menus candidates ∧
      solve P candidates = some selected ∧ plan P menus = some selected ∧
      ∀ cs, List.Forall₂ (· ∈ ·) cs candidates → (cs.map (fun c => weight c.hint)).sum ≤ P →
        (selected.map (fun c => c.hint.totalTime)).sum ≤
          (cs.map (fun c => c.hint.totalTime)).sum := by
  obtain ⟨candidates,hmap,hall⟩ := evaluate_groups hmethods
  have hnn : ∀ group ∈ candidates, ∀ c ∈ group, 0 ≤ c.hint.totalTime := by
    intro group hgroup c hc
    obtain ⟨menus',hmenus',hg⟩ := partner_left hall hgroup
    obtain ⟨menu,hmenu,he⟩ := partner_left hg hc
    obtain ⟨_,c',_,he',_,hpos,_⟩ := evaluate_spec (hmethods menus' hmenus' menu hmenu)
    cases he.symm.trans he'
    exact hpos
  obtain ⟨chosen,hchosen,hle⟩ := hfit
  obtain ⟨sel,hsel,hweight⟩ := exists_selection hmethods hchosen
  obtain ⟨cs,hcs,hw,_⟩ := candidates_of_selection hmethods hall hsel
  obtain ⟨selected,hsolve,hopt⟩ := solve_optimal (P := P) hnn ⟨cs,hcs,by rw [hw,hweight]; exact hle⟩
  exact ⟨candidates,selected,hall,hsolve,by rw [plan,hmap]; exact hsolve,hopt⟩

/-- In exact arithmetic the plan is one candidate for each group within the budget, and with
the classes pushed for its partitions no choice of candidates and classes within the budget
is cheaper. -/
theorem plan_optimal (P : Nat) (menus : List (List (Menu K)))
    (hmethods : ∀ group ∈ menus, ∀ menu ∈ group, ∀ methods ∈ menu.offers,
      methods ≠ [] ∧ ∀ m ∈ methods, 0 ≤ m.2)
    (hfit : ∃ chosen : List (Menu K), List.Forall₂ (· ∈ ·) chosen menus ∧
      (chosen.map Menu.partitionNum).sum ≤ P) :
    ∃ (selected : List (Candidate K)) (best : Selection K), plan P menus = some selected ∧
      best.Valid menus ∧ List.Forall₂ Makes best selected ∧ best.weight ≤ P ∧
      (selected.map (fun c => c.hint.totalTime)).sum = best.cost ∧
      ∀ other : Selection K, other.Valid menus → other.weight ≤ P → best.cost ≤ other.cost := by
  obtain ⟨candidates,selected,hall,hsolve,hplan,hopt⟩ := exists_plan hmethods hfit
  obtain ⟨hmem,hbudget⟩ := solve_choice hsolve
  obtain ⟨best,hvalid,hmakes⟩ := selection_of_candidates hmethods hall hmem
  obtain ⟨hweight,hcost⟩ := makes_totals hmakes
  refine ⟨selected,best,hplan,hvalid,hmakes,hweight ▸ hbudget,hcost,?_⟩
  intro other hother hle'
  obtain ⟨cs',hcs',hw',hcost'⟩ := candidates_of_selection hmethods hall hother
  rw [← hcost]
  exact le_trans (hopt cs' hcs' (hw' ▸ hle')) hcost'

theorem plan_optimal_two_groups :
    let coarse : Menu ℚ := ⟨0,4,2,1,1,[[(.classDirectSampler,7)]]⟩
    let fine : Menu ℚ := ⟨0,4,1,2,1,
      [[(.classDirectSampler,3),(.classExclusiveBufferSampler,1)],[(.classDirectSampler,2)]]⟩
    ∃ (selected : List (Candidate ℚ)) (best : Selection ℚ),
      plan 3 [[coarse,fine],[coarse,fine]] = some selected ∧ List.Forall₂ Makes best selected ∧
      best.weight ≤ 3 := by
  intro coarse fine
  have hoffers : ∀ menu ∈ [coarse,fine], ∀ methods ∈ menu.offers,
      methods ≠ [] ∧ ∀ m ∈ methods, (0 : ℚ) ≤ m.2 := by
    simp only [coarse,fine,List.mem_cons,List.not_mem_nil,or_false,forall_eq_or_imp,forall_eq]
    simp
  obtain ⟨selected,best,hplan,_,hmakes,hle,_⟩ := plan_optimal 3 [[coarse,fine],[coarse,fine]]
    (by simpa using hoffers)
    ⟨[coarse,fine],.cons (by simp) (.cons (by simp) .nil),by simp [coarse,fine]⟩
  exact ⟨selected,best,hplan,hmakes,hle⟩

end FlashMob.Partition
