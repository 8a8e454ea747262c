import FlashMob.Graph.Load

namespace FlashMob.Graph

/-- The names of an edge list, one for each end of an edge. -/
def names (edges : List (Nat × Nat)) : List Nat := edges.flatMap (fun e => [e.1,e.2])

theorem fst_mem_names {edges : List (Nat × Nat)} {e : Nat × Nat} (he : e ∈ edges) :
    e.1 ∈ names edges := List.mem_flatMap.mpr ⟨e,he,List.mem_cons_self⟩

theorem snd_mem_names {edges : List (Nat × Nat)} {e : Nat × Nat} (he : e ∈ edges) :
    e.2 ∈ names edges := List.mem_flatMap.mpr ⟨e,he,List.mem_cons_of_mem _ List.mem_cons_self⟩

/-- The table after names got their ids in the order of `seen`. -/
structure Named (seen : List Nat) (st : List Nat × Nat) : Prop where
  nodup : seen.Nodup
  vNum : st.2 = seen.length
  ids : ∀ n, st.1.getD n uintMax = if n ∈ seen then seen.idxOf n else uintMax

/-- The names seen once `name` has been met. -/
def meet (seen : List Nat) (name : Nat) : List Nat :=
  if name ∈ seen then seen else seen ++ [name]

theorem mem_meet {seen : List Nat} {name n : Nat} : n ∈ meet seen name ↔ n ∈ seen ∨ n = name := by
  unfold meet
  split_ifs with h
  · constructor
    · exact Or.inl
    · rintro (hn | rfl)
      · exact hn
      · exact h
  · rw [List.mem_append,List.mem_singleton]

theorem nodup_meet {seen : List Nat} (h : seen.Nodup) (name : Nat) : (meet seen name).Nodup := by
  unfold meet
  split_ifs with hn
  · exact h
  · refine List.nodup_append.mpr ⟨h,List.nodup_singleton _,?_⟩
    rintro a ha b hb rfl
    exact hn (List.mem_singleton.mp hb ▸ ha)

theorem idxOf_meet {seen : List Nat} {n : Nat} (name : Nat) (hn : n ∈ seen) :
    (meet seen name).idxOf n = seen.idxOf n := by
  unfold meet
  split_ifs
  · rfl
  · exact List.idxOf_append_of_mem hn

theorem mem_meets {l seen : List Nat} {n : Nat} : n ∈ l.foldl meet seen ↔ n ∈ seen ∨ n ∈ l := by
  induction l generalizing seen with
  | nil => simp
  | cons name l ih => rw [List.foldl_cons,ih,mem_meet,List.mem_cons,or_assoc]

theorem nodup_meets (l : List Nat) : (l.foldl meet []).Nodup := by
  induction l using List.reverseRecOn with
  | nil => exact List.nodup_nil
  | append_singleton l name ih =>
    rw [List.foldl_append]
    exact nodup_meet ih name

/-- The names are met in the order of their first appearance. -/
theorem idxOf_meets_lt {l : List Nat} {a b : Nat} (ha : a ∈ l) (hb : b ∈ l)
    (hab : l.idxOf a < l.idxOf b) : (l.foldl meet []).idxOf a < (l.foldl meet []).idxOf b := by
  induction l using List.reverseRecOn with
  | nil => cases ha
  | append_singleton l name ih =>
    have hmem : ∀ n, n ∈ l → n ∈ l.foldl meet [] := fun n hn => mem_meets.mpr (Or.inr hn)
    -- What is not in `l` is `name`, and its index is the length of `l`.
    have hlast : ∀ n ∈ l ++ [name], n ∉ l → (l ++ [name]).idxOf n = l.length ∧ n = name := by
      intro n hn hl
      obtain rfl := List.mem_singleton.mp ((List.mem_append.mp hn).resolve_left hl)
      rw [List.idxOf_append_of_notMem hl]
      simp
    have hal : a ∈ l := by
      by_contra hal
      rw [(hlast a ha hal).1] at hab
      have := List.idxOf_lt_length_iff.mpr hb
      rw [List.length_append,List.length_singleton] at this
      omega
    rw [List.foldl_append,List.foldl_cons,List.foldl_nil,idxOf_meet _ (hmem a hal)]
    by_cases hbl : b ∈ l
    · rw [idxOf_meet _ (hmem b hbl)]
      rw [List.idxOf_append_of_mem hal,List.idxOf_append_of_mem hbl] at hab
      exact ih hal hbl hab
    · obtain ⟨_,rfl⟩ := hlast b hb hbl
      have hnew : b ∉ l.foldl meet [] := fun h => hbl ((mem_meets.mp h).resolve_left (by simp))
      rw [meet,if_neg hnew,List.idxOf_append_of_notMem hnew]
      exact Nat.lt_of_lt_of_le (List.idxOf_lt_length_iff.mpr (hmem a hal)) (Nat.le_add_right _ _)

theorem grow_ids (name2id : List Nat) (name n : Nat) :
    (grow name2id name).getD n uintMax = name2id.getD n uintMax := by
  rw [grow]
  rcases Nat.lt_or_ge n name2id.length with h | h
  · rw [List.getD_append _ _ _ _ h]
  · rw [List.getD_append_right _ _ _ _ h,List.getD_eq_default name2id uintMax h]
    rcases Nat.lt_or_ge (n - name2id.length) (name + 1 - name2id.length) with h' | h'
    · rw [List.getD_replicate _ h']
    · rw [List.getD_eq_default _ _ (by simpa using h')]

theorem lt_length_grow (name2id : List Nat) (name : Nat) :
    name < (grow name2id name).length := by
  rw [grow,List.length_append,List.length_replicate]
  omega

theorem length_le_grow (name2id : List Nat) (name : Nat) :
    name2id.length ≤ (grow name2id name).length := by
  rw [grow,List.length_append]
  omega

theorem Named.grow {seen : List Nat} {st : List Nat × Nat} (h : Named seen st) (name : Nat) :
    Named seen (Graph.grow st.1 name,st.2) :=
  ⟨h.nodup,h.vNum,fun n => (grow_ids st.1 name n).trans (h.ids n)⟩

theorem getD_set {l : List Nat} {i : Nat} (hi : i < l.length) (a j : Nat) :
    (l.set i a).getD j uintMax = if i = j then a else l.getD j uintMax := by
  rw [List.getD_eq_getElem?_getD,List.getElem?_set]
  by_cases hij : i = j
  · rw [if_pos hij,if_pos hi,if_pos hij,Option.getD_some]
  · rw [if_neg hij,if_neg hij,List.getD_eq_getElem?_getD]

theorem assign_length (st : List Nat × Nat) (name : Nat) :
    (assign st name).1.length = st.1.length := by
  rw [assign]
  split_ifs
  · exact List.length_set
  · rfl

/-- A name that was met before keeps its id, a new one gets the next. -/
theorem Named.assign {seen : List Nat} {st : List Nat × Nat} (h : Named seen st) {name : Nat}
    (hlen : name < st.1.length) (hroom : (meet seen name).length ≤ uintMax) :
    Named (meet seen name) (Graph.assign st name) := by
  rw [Graph.assign,h.ids name]
  by_cases hm : name ∈ seen
  · rw [if_pos hm,meet,if_pos hm]
    rw [meet,if_pos hm] at hroom
    have hlt := List.idxOf_lt_length_iff.mpr hm
    rw [if_neg (by omega)]
    exact h
  · rw [if_neg hm,if_pos rfl,meet,if_neg hm]
    rw [meet,if_neg hm,List.length_append,List.length_singleton,uintMax] at hroom
    refine ⟨?_,?_,?_⟩
    · have := nodup_meet h.nodup name
      rwa [meet,if_neg hm] at this
    · rw [List.length_append,List.length_singleton,← h.vNum]
      exact u32_of_lt (by have := h.vNum; omega)
    · intro n
      rw [getD_set hlen]
      by_cases hn : name = n
      · subst hn
        rw [if_pos rfl,if_pos (by simp),List.idxOf_append_of_notMem hm,h.vNum]
        simp
      · rw [if_neg hn,h.ids n]
        by_cases hs : n ∈ seen
        · rw [if_pos hs,if_pos (by simp [hs]),List.idxOf_append_of_mem hs]
        · rw [if_neg hs,if_neg (by simp [hs,Ne.symm hn])]

/-- What the renaming loop has done for the edges it has read: the names have ids in the
order of their first appearance, and the edges are renamed. -/
structure Renamed (edges : List (Nat × Nat)) (seen : List Nat) (r : Renaming) : Prop where
  named : Named seen (r.name2id,r.vNum)
  seen_iff : ∀ n, n ∈ seen ↔ n ∈ names edges
  edges : r.edges = edges.map (fun e => (seen.idxOf e.1,seen.idxOf e.2))

/-- A list of the names without repetition is as long as there are names. -/
theorem length_eq_names {edges : List (Nat × Nat)} {seen : List Nat} (hn : seen.Nodup)
    (h : ∀ n, n ∈ seen ↔ n ∈ names edges) : seen.length = (names edges).dedup.length := by
  apply List.Perm.length_eq
  rw [List.perm_ext_iff_of_nodup hn (List.nodup_dedup _)]
  intro n
  rw [h,List.mem_dedup]

/-- The names of the earlier edges keep their ids. -/
theorem map_idxOf_meet {edges : List (Nat × Nat)} {seen : List Nat}
    (h : ∀ n ∈ names edges, n ∈ seen) (a b : Nat) :
    edges.map (fun e => ((meet (meet seen a) b).idxOf e.1,(meet (meet seen a) b).idxOf e.2)) =
      edges.map (fun e => (seen.idxOf e.1,seen.idxOf e.2)) := by
  apply List.map_congr_left
  intro e he
  have hkeep : ∀ n ∈ names edges, (meet (meet seen a) b).idxOf n = seen.idxOf n := by
    intro n hn
    rw [idxOf_meet _ (mem_meet.mpr (Or.inl (h n hn))),idxOf_meet _ (h n hn)]
  rw [hkeep _ (fst_mem_names he),hkeep _ (snd_mem_names he)]

theorem renameEdge_renamed {edges : List (Nat × Nat)} {seen : List Nat} {r : Renaming}
    (h : Renamed edges seen r) (e : Nat × Nat)
    (hroom : (meet (meet seen e.1) e.2).length ≤ uintMax) :
    Renamed (edges ++ [e]) (meet (meet seen e.1) e.2) (renameEdge r e) := by
  have hgrown := (h.named.grow e.1).grow e.2
  have hle : (meet seen e.1).length ≤ (meet (meet seen e.1) e.2).length := by
    rw [meet.eq_1 (meet seen e.1)]
    split_ifs <;> simp
  have h1 : e.1 < (grow (grow r.name2id e.1) e.2).length :=
    Nat.lt_of_lt_of_le (lt_length_grow _ _) (length_le_grow _ _)
  have hfirst := hgrown.assign h1 (Nat.le_trans hle hroom)
  have hsecond := hfirst.assign (by rw [assign_length]; exact lt_length_grow _ _) hroom
  have hmem : ∀ n, n ∈ meet (meet seen e.1) e.2 ↔ n ∈ names (edges ++ [e]) := by
    intro n
    rw [mem_meet,mem_meet,h.seen_iff]
    simp [names,or_assoc]
  refine ⟨hsecond,hmem,?_⟩
  have hid : ∀ n, n = e.1 ∨ n = e.2 → (assign (assign (grow (grow r.name2id e.1) e.2,r.vNum) e.1)
      e.2).1.getD n uintMax = (meet (meet seen e.1) e.2).idxOf n := by
    intro n hn
    rw [hsecond.ids,if_pos]
    rw [mem_meet,mem_meet,or_assoc]
    exact Or.inr hn
  rw [renameEdge]
  simp only
  rw [h.edges,hid e.1 (Or.inl rfl),hid e.2 (Or.inr rfl),List.map_append]
  congr 1
  exact (map_idxOf_meet (fun n hn => (h.seen_iff n).mpr hn) e.1 e.2).symm

/-- As long as the names are no more than the ids, `load` numbers them in the order of first
appearance. -/
theorem rename_renamed (edges : List (Nat × Nat)) (hfew : (names edges).dedup.length ≤ uintMax) :
    ∃ seen, Renamed edges seen (rename edges) := by
  induction edges using List.reverseRecOn with
  | nil =>
    refine ⟨[],⟨List.nodup_nil,rfl,fun n => ?_⟩,by simp [names],rfl⟩
    simp [rename]
  | append_singleton edges e ih =>
    have hsub : (names edges).dedup ⊆ (names (edges ++ [e])).dedup := by
      intro n hn
      rw [List.mem_dedup] at hn ⊢
      simp only [names,List.flatMap_append,List.mem_append]
      exact Or.inl hn
    have hle := ((List.nodup_dedup (names edges)).subperm hsub).length_le
    obtain ⟨seen,hseen⟩ := ih (Nat.le_trans hle hfew)
    -- The names met so far are names of the list.
    have hnodup := nodup_meet (nodup_meet hseen.named.nodup e.1) e.2
    have hsub' : meet (meet seen e.1) e.2 ⊆ (names (edges ++ [e])).dedup := by
      intro n hn
      rw [mem_meet,mem_meet,hseen.seen_iff,or_assoc] at hn
      rw [List.mem_dedup]
      simpa [names] using hn
    refine ⟨meet (meet seen e.1) e.2,?_⟩
    rw [rename,List.foldl_append]
    exact renameEdge_renamed hseen e
      (Nat.le_trans (hnodup.subperm hsub').length_le hfew)

/-- The ends of the edges are vertices, so that the loops over the edges stay inside the arrays of
the vertices. -/
def Inside (vNum : Nat) (edges : List (Nat × Nat)) : Prop := ∀ e ∈ edges, e.1 < vNum ∧ e.2 < vNum

/-- The table once all the 32-bit numbers are names: the last of them got the mark for its id, and
the number of vertices has wrapped. -/
structure Full (st : List Nat × Nat) : Prop where
  ids : ∃ last, (∀ n < 2 ^ 32, n ≠ last → st.1.getD n uintMax ≠ uintMax) ∧
    (st.1.getD last uintMax = uintMax → st.2 = 0)
  vNum : st.2 ≤ 1

theorem Full.grow {st : List Nat × Nat} (h : Full st) (name : Nat) :
    Full (Graph.grow st.1 name,st.2) := by
  obtain ⟨last,hids,hlast⟩ := h.ids
  exact ⟨⟨last,fun n hn hne => by rw [grow_ids]; exact hids n hn hne,
    fun hl => hlast (by rwa [grow_ids] at hl)⟩,h.vNum⟩

theorem Full.assign {st : List Nat × Nat} (h : Full st) {name : Nat} (hname : name < 2 ^ 32)
    (hlen : name < st.1.length) : Full (Graph.assign st name) := by
  rw [Graph.assign]
  split_ifs with hmark
  · obtain ⟨last,hids,hlast⟩ := h.ids
    -- Only the last name can still have the mark.
    obtain rfl : name = last := by
      by_contra hne
      exact hids name hname hne hmark
    refine ⟨⟨name,fun n hn hne => ?_,fun hid => ?_⟩,?_⟩
    · rw [getD_set hlen,if_neg (Ne.symm hne)]
      exact hids n hn hne
    · rw [getD_set hlen,if_pos rfl,hlast hmark] at hid
      cases hid
    · rw [hlast hmark]
      exact Nat.mod_le 1 _
  · exact h

/-- One more name is met with room for it, or it is the last. -/
theorem Named.assign_or_full {seen : List Nat} {st : List Nat × Nat}
    (h : Named seen st ∧ seen.length ≤ uintMax ∨ Full st) (hsmall : ∀ n ∈ seen, n < 2 ^ 32)
    {name : Nat} (hname : name < 2 ^ 32) (hlen : name < st.1.length) :
    Named (meet seen name) (Graph.assign st name) ∧ (meet seen name).length ≤ uintMax ∨
      Full (Graph.assign st name) := by
  have huint : uintMax = 2 ^ 32 - 1 := rfl
  rcases h with ⟨hnamed,hroom⟩ | hfull
  · rcases Nat.lt_or_ge uintMax (meet seen name).length with hover | hle
    · -- The name is new, and the others are all the 32-bit numbers but this one.
      right
      have hm : name ∉ seen := by
        intro hm
        rw [meet,if_pos hm] at hover
        omega
      have hnodup := nodup_meet hnamed.nodup name
      rw [meet,if_neg hm] at hover hnodup
      rw [List.length_append,List.length_singleton] at hover
      have hcount : seen.length = uintMax := by omega
      have hall : ∀ n < 2 ^ 32, n ≠ name → n ∈ seen := by
        intro n hn hne
        have hsub : (seen ++ [name]).Subperm (List.range (2 ^ 32)) := by
          refine hnodup.subperm (fun m hm => List.mem_range.mpr ?_)
          rcases List.mem_append.mp hm with hm | hm
          · exact hsmall m hm
          · exact List.mem_singleton.mp hm ▸ hname
        have hperm := hsub.perm_of_length_le (by
          rw [List.length_range,List.length_append,List.length_singleton]
          omega)
        have hmem := hperm.mem_iff.mpr (List.mem_range.mpr hn)
        rcases List.mem_append.mp hmem with hmem | hmem
        · exact hmem
        · exact absurd (List.mem_singleton.mp hmem) hne
      rw [Graph.assign,hnamed.ids,if_neg hm,if_pos rfl]
      have hwrap : u32 (st.2 + 1) = 0 := by
        rw [hnamed.vNum,hcount]
        rfl
      refine ⟨⟨name,fun n hn hne => ?_,fun _ => hwrap⟩,?_⟩
      · have hs := hall n hn hne
        have hlt := List.idxOf_lt_length_iff.mpr hs
        rw [getD_set hlen,if_neg (Ne.symm hne),hnamed.ids,if_pos hs]
        omega
      · rw [hwrap]
        exact Nat.zero_le 1
    · exact Or.inl ⟨hnamed.assign hlen hle,hle⟩
  · exact Or.inr (hfull.assign hname hlen)

/-- Either there was an id for every name, or the number of vertices is behind an edge. -/
theorem rename_room {edges : List (Nat × Nat)} (hsmall : ∀ n ∈ names edges, n < 2 ^ 32) :
    (∃ seen, Renamed edges seen (rename edges) ∧ seen.length ≤ uintMax) ∨
      Full ((rename edges).name2id,(rename edges).vNum) ∧
        ∃ e ∈ (rename edges).edges, 1 ≤ e.1 ∨ 1 ≤ e.2 := by
  induction edges using List.reverseRecOn with
  | nil =>
    refine Or.inl ⟨[],⟨⟨List.nodup_nil,rfl,fun n => ?_⟩,by simp [names],rfl⟩,Nat.zero_le _⟩
    simp [rename]
  | append_singleton edges e ih =>
    have hnames : ∀ n ∈ names edges, n < 2 ^ 32 := fun n hn =>
      hsmall n (by rw [names,List.flatMap_append]; exact List.mem_append_left _ hn)
    have h1 := hsmall _ (fst_mem_names (List.mem_append_right edges (List.mem_singleton_self e)))
    have h2 := hsmall _ (snd_mem_names (List.mem_append_right edges (List.mem_singleton_self e)))
    have hlen1 : e.1 < (grow (grow (rename edges).name2id e.1) e.2).length :=
      Nat.lt_of_lt_of_le (lt_length_grow _ _) (length_le_grow _ _)
    have hstep : rename (edges ++ [e]) = renameEdge (rename edges) e := List.foldl_append
    have hlen2 : e.2 < (assign (grow (grow (rename edges).name2id e.1) e.2,(rename edges).vNum)
        e.1).1.length := by
      rw [assign_length]
      exact lt_length_grow _ _
    rw [hstep]
    rcases ih hnames with ⟨seen,hseen,hroom⟩ | ⟨hfull,d,hd,hone⟩
    · have hmem : ∀ n ∈ seen, n < 2 ^ 32 := fun n hn => hnames n ((hseen.seen_iff n).mp hn)
      have hmem' : ∀ n ∈ meet seen e.1, n < 2 ^ 32 := by
        intro n hn
        rcases mem_meet.mp hn with hn | rfl
        · exact hmem n hn
        · exact h1
      rcases Nat.lt_or_ge uintMax (meet (meet seen e.1) e.2).length with hover | hle
      · have hgrown := (hseen.named.grow e.1).grow e.2
        have hfirst := Named.assign_or_full (Or.inl ⟨hgrown,hroom⟩) hmem h1 hlen1
        have hsecond := Named.assign_or_full hfirst hmem' h2 hlen2
        have hfull := hsecond.resolve_left (fun h => Nat.not_lt_of_le h.2 hover)
        refine Or.inr ⟨hfull,?_⟩
        -- The second of the names has the id 1.
        have hle : ∀ (l : List Nat) (n : Nat), (meet l n).length ≤ l.length + 1 := by
          intro l n
          rw [meet]
          split_ifs <;> simp
        have hlong : 1 < seen.length := by
          have hle1 := hle (meet seen e.1) e.2
          have hle2 := hle seen e.1
          have huint : uintMax = 2 ^ 32 - 1 := rfl
          omega
        have hname := (hseen.seen_iff _).mp (List.getElem_mem hlong)
        have hidx := hseen.named.nodup.idxOf_getElem 1 hlong
        obtain ⟨d,hd,hn⟩ := List.mem_flatMap.mp hname
        refine ⟨(seen.idxOf d.1,seen.idxOf d.2),List.mem_append_left _ ?_,?_⟩
        · rw [hseen.edges]
          exact List.mem_map.mpr ⟨d,hd,rfl⟩
        · simp only [List.mem_cons,List.not_mem_nil,or_false] at hn
          rcases hn with hn | hn
          · left
            rw [← hn,hidx]
          · right
            rw [← hn,hidx]
      · exact Or.inl ⟨_,renameEdge_renamed hseen e hle,hle⟩
    · exact Or.inr ⟨((((hfull.grow e.1).grow e.2).assign h1 hlen1).assign h2 hlen2),
        d,List.mem_append_left _ hd,hone⟩

/-- With the ends of the edges inside the vertices there was an id for every name. -/
theorem few_of_inside {edges : List (Nat × Nat)} (hsmall : ∀ n ∈ names edges, n < 2 ^ 32)
    (h : Inside (rename edges).vNum (rename edges).edges) :
    (names edges).dedup.length ≤ uintMax := by
  rcases rename_room hsmall with ⟨seen,hseen,hroom⟩ | ⟨hfull,e,he,hone⟩
  · rwa [length_eq_names hseen.named.nodup hseen.seen_iff] at hroom
  · have hvNum : (rename edges).vNum ≤ 1 := hfull.vNum
    obtain ⟨h1,h2⟩ := h e he
    omega

/-- The table after the same names under other names: those of `S` are called `f n`. -/
structure Mirrors (S : Set Nat) (f : Nat → Nat) (st st' : List Nat × Nat) : Prop where
  vNum : st'.2 = st.2
  ids : ∀ n ∈ S, st'.1.getD (f n) uintMax = st.1.getD n uintMax

section
variable {S : Set Nat} {f : Nat → Nat}

theorem Mirrors.grow {st st' : List Nat × Nat} (h : Mirrors S f st st') (name name' : Nat) :
    Mirrors S f (Graph.grow st.1 name,st.2) (Graph.grow st'.1 name',st'.2) :=
  ⟨h.vNum,fun n hn => by rw [grow_ids,grow_ids]; exact h.ids n hn⟩

theorem Mirrors.assign {st st' : List Nat × Nat} (h : Mirrors S f st st') (hf : Set.InjOn f S)
    {name : Nat} (hn : name ∈ S) (hlen : name < st.1.length) (hlen' : f name < st'.1.length) :
    Mirrors S f (Graph.assign st name) (Graph.assign st' (f name)) := by
  rw [Graph.assign,Graph.assign,h.ids name hn,h.vNum]
  split_ifs
  · refine ⟨rfl,fun n hns => ?_⟩
    rw [getD_set hlen,getD_set hlen']
    by_cases he : name = n
    · rw [if_pos he,if_pos (congrArg f he)]
    · rw [if_neg he,if_neg (fun hfe => he (hf hn hns hfe))]
      exact h.ids n hns
  · exact h

/-- Two runs of the renaming loop, on the edges and on the edges with other names. -/
structure SameRenaming (S : Set Nat) (f : Nat → Nat) (r r' : Renaming) : Prop where
  mirrors : Mirrors S f (r.name2id,r.vNum) (r'.name2id,r'.vNum)
  edges : r'.edges = r.edges

theorem SameRenaming.renameEdge {r r' : Renaming} (h : SameRenaming S f r r') (hf : Set.InjOn f S)
    {e : Nat × Nat} (h1 : e.1 ∈ S) (h2 : e.2 ∈ S) :
    SameRenaming S f (Graph.renameEdge r e) (Graph.renameEdge r' (f e.1,f e.2)) := by
  have hlen : ∀ (ids : List Nat) (a b : Nat), a < (grow (grow ids a) b).length := fun ids a b =>
    Nat.lt_of_lt_of_le (lt_length_grow ids a) (length_le_grow _ b)
  have hgrown := (h.mirrors.grow e.1 (f e.1)).grow e.2 (f e.2)
  have hfirst := hgrown.assign hf h1 (hlen _ _ _) (hlen _ _ _)
  have hsecond := hfirst.assign hf h2 (by rw [assign_length]; exact lt_length_grow _ _)
    (by rw [assign_length]; exact lt_length_grow _ _)
  refine ⟨hsecond,?_⟩
  rw [Graph.renameEdge,Graph.renameEdge]
  simp only
  rw [hsecond.ids _ h1,hsecond.ids _ h2,h.edges]

/-- Renamed names get the ids of the names, and the edges become the same. -/
theorem rename_map {edges : List (Nat × Nat)} (hf : Set.InjOn f {n | n ∈ names edges}) :
    SameRenaming {n | n ∈ names edges} f (rename edges)
      (rename (edges.map (fun e => (f e.1,f e.2)))) := by
  have hloop : ∀ (l : List (Nat × Nat)) (r r' : Renaming), (∀ n ∈ names l, n ∈ names edges) →
      SameRenaming {n | n ∈ names edges} f r r' →
      SameRenaming {n | n ∈ names edges} f (l.foldl renameEdge r)
        ((l.map (fun e => (f e.1,f e.2))).foldl renameEdge r') := by
    intro l
    induction l with
    | nil => exact fun r r' _ h => h
    | cons e l ih =>
      intro r r' hl h
      exact ih _ _ (fun n hn => hl n (List.mem_append_right _ hn))
        (h.renameEdge hf (hl _ (by simp [names])) (hl _ (by simp [names])))
  exact hloop edges _ _ (fun n hn => hn) ⟨⟨rfl,fun n _ => rfl⟩,rfl⟩

end

end FlashMob.Graph
