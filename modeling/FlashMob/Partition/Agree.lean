import FlashMob.Graph.Deal
import FlashMob.Graph.Groups
import FlashMob.Message.Task
import FlashMob.Partition.Dp
import FlashMob.Partition.Optimal

namespace FlashMob.Partition
open FlashMob.Graph FlashMob.Message Lib.Loops Lib.Tiling

variable {D : Type} [Floating D]

theorem evaluateOffers_classes {offers : List (List (SamplerClass × D))} {t : D}
    {scs : List SamplerClass} (h : evaluateOffers offers = some (t,scs)) :
    List.Forall₂ (fun methods sc => (choosePartitionSc methods).2 = some sc) offers scs := by
  induction offers using List.reverseRecOn generalizing t scs with
  | nil =>
    cases h
    exact .nil
  | append_singleton offers methods ih =>
    rw [evaluateOffers,List.foldlM_append] at h
    obtain ⟨⟨t',scs'⟩,h',h⟩ := Option.bind_eq_some_iff.mp h
    simp only [List.foldlM_cons,List.foldlM_nil,Option.bind_eq_bind,Option.bind_eq_some_iff,
      Option.map_eq_some_iff,Option.pure_def,Option.some.injEq] at h
    obtain ⟨st,⟨sc,hsc,rfl⟩,h⟩ := h
    cases h
    exact List.rel_append (ih h') (.cons hsc .nil)

/-- What `dp` selects for group `g`: a candidate with the group's layout and the classes
evaluated for its partitions. -/
structure Planned (i : DpInput D) (g : Nat) (c : Candidate D) : Prop where
  bits : c.hint.partitionBits ≤ i.groupBits
  vertexBegin : c.hint.vertexBegin = i.groupVertexBegin g
  vertexEnd : c.hint.vertexEnd = i.groupVertexEnd g
  partitionNum : c.hint.partitionNum = i.partitionNum g c.hint.partitionBits
  level : c.hint.partitionLevel = 0
  classes : List.Forall₂ (fun p sc => ∃ methods,
    i.offers g c.hint.partitionBits p = some methods ∧ (choosePartitionSc methods).2 = some sc)
    (List.range c.hint.partitionNum) c.partitionSc

theorem menu_planned {i : DpInput D} {g bits : Nat} {menu : Menu D} {c : Candidate D}
    (hbits : bits ≤ i.groupBits) (hmenu : i.menu g bits = some menu)
    (hc : menu.evaluate = some c) : Planned i g c := by
  obtain ⟨offers,hoffers,rfl⟩ := Option.map_eq_some_iff.mp hmenu
  obtain ⟨⟨t,scs⟩,hst,rfl⟩ := Option.map_eq_some_iff.mp hc
  refine ⟨hbits,rfl,rfl,rfl,rfl,?_⟩
  have hclasses := evaluateOffers_classes hst
  have hall := mapM_eq_some_iff.mp hoffers
  refine List.forall₂_iff_get.mpr ⟨hall.length_eq.trans hclasses.length_eq,fun p hp hp' => ?_⟩
  have hmid := hall.length_eq ▸ hp
  exact ⟨_,hall.get hp hmid,hclasses.get hmid hp'⟩

theorem menus_planned {i : DpInput D} {g : Nat} {menus : List (Menu D)}
    {candidates : List (Candidate D)} (hmenus : i.menus g = some menus)
    (hcs : menus.mapM Menu.evaluate = some candidates) {c : Candidate D} (hc : c ∈ candidates) :
    Planned i g c := by
  rw [DpInput.menus] at hmenus
  split_ifs at hmenus with hbits
  obtain ⟨menu,hm,he⟩ := exists_of_mapM hcs hc
  obtain ⟨b,hb,hmenu⟩ := exists_of_mapM hmenus hm
  have hle := List.all_eq_true.mp hbits b (List.mem_of_mem_filter hb)
  exact menu_planned (by simpa using hle) hmenu he

/-- A hint of `dp` comes from one planned candidate for each group, with no more than
`max_partition_num` partitions in all. -/
theorem dp_planned {i : DpInput D} {hint : GraphHint D} (h : dp i = some hint) :
    ∃ selected : List (Candidate D),
      hint = ⟨i.groupBits,i.groupNum,selected.map Candidate.hint,
        selected.flatMap Candidate.partitionSc⟩ ∧
      List.Forall₂ (Planned i) (List.range i.groupNum) selected ∧
      (selected.map (fun c => c.hint.partitionNum)).sum ≤ maxPartitionNum := by
  obtain ⟨menus,hmenus,h⟩ := Option.bind_eq_some_iff.mp h
  obtain ⟨selected,hplan,rfl⟩ := Option.map_eq_some_iff.mp h
  obtain ⟨candidates,hcs,hsolve⟩ := Option.bind_eq_some_iff.mp hplan
  obtain ⟨hmem,hsum⟩ := solve_choice hsolve
  have hgroups := mapM_eq_some_iff.mp hmenus
  have hevals := mapM_eq_some_iff.mp hcs
  have hplanned : List.Forall₂ (Planned i) (List.range i.groupNum) selected := by
    refine List.forall₂_iff_get.mpr ⟨?_,fun g hg hg' => ?_⟩
    · rw [hgroups.length_eq,hevals.length_eq,hmem.length_eq]
    · have hm := hgroups.length_eq ▸ hg
      have hc := hevals.length_eq ▸ hm
      exact menus_planned (hgroups.get hg hm) (hevals.get hm hc) (hmem.get hg' hc)
  refine ⟨selected,rfl,hplanned,?_⟩
  have hweights : selected.map (fun c => weight c.hint) =
      selected.map (fun c => c.hint.partitionNum) := by
    apply List.map_congr_left
    intro c hc
    obtain ⟨g,hg,rfl⟩ := List.getElem_of_mem hc
    have hlevel := (hplanned.get (hplanned.length_eq ▸ hg) hg).level
    exact if_pos hlevel
  rwa [← hweights]

section
variable {i : DpInput D} (hroom : i.vNum + 2 ^ i.groupBits ≤ 2 ^ 32)
  (hnum : i.groupNum = ceilDiv i.vNum (2 ^ i.groupBits))
include hroom hnum

omit [Floating D] in
theorem groupVertexBegin_eq {g : Nat} (hg : g < i.groupNum) :
    i.groupVertexBegin g = g * 2 ^ i.groupBits := by
  have hpos := Nat.two_pow_pos i.groupBits
  have := mul_lt_of_lt_ceilDiv hpos (hnum ▸ hg)
  rw [DpInput.groupVertexBegin,Nat.shiftLeft_eq,u32_of_lt (by omega)]

omit [Floating D] in
theorem groupVertexEnd_eq {g : Nat} (hg : g < i.groupNum) :
    i.groupVertexEnd g = min i.vNum ((g + 1) * 2 ^ i.groupBits) := by
  have := mul_lt_of_lt_ceilDiv (Nat.two_pow_pos i.groupBits) (hnum ▸ hg)
  rw [DpInput.groupVertexEnd,Nat.shiftLeft_eq,u32_of_lt (by rw [Nat.add_mul]; omega)]

omit [Floating D] in
theorem partitionNum_eq {g bits : Nat} (hg : g < i.groupNum) (hbits : bits ≤ i.groupBits) :
    i.partitionNum g bits =
      ceilDiv (i.groupVertexEnd g - i.groupVertexBegin g) (2 ^ bits) := by
  have hbegin := mul_lt_of_lt_ceilDiv (Nat.two_pow_pos i.groupBits) (hnum ▸ hg)
  have hb := groupVertexBegin_eq hroom hnum hg
  have he := groupVertexEnd_eq hroom hnum hg
  have hpow : 2 ^ bits ≤ 2 ^ i.groupBits := Nat.pow_le_pow_right (by omega) hbits
  have hpos := Nat.two_pow_pos bits
  have hle : i.groupVertexBegin g ≤ i.groupVertexEnd g := by
    rw [hb,he,Nat.add_mul]
    omega
  rw [DpInput.partitionNum,u32Sub_of_le hle (by omega),u32Sub_u32_one (by omega) (by omega),
    Nat.shiftRight_eq_div_pow,ceilDiv]

theorem planned_hintOk {selected : List (Candidate D)} {scs : List SamplerClass}
    (hplanned : List.Forall₂ (Planned i) (List.range i.groupNum) selected) :
    HintOk i.vNum ⟨i.groupBits,i.groupNum,selected.map Candidate.hint,scs⟩ := by
  have hlen : i.groupNum = selected.length := by simpa using hplanned.length_eq
  have hget : ∀ (g : Nat) (h : GroupHint D), (selected.map Candidate.hint)[g]? = some h →
      g < i.groupNum ∧ ∃ c : Candidate D, c.hint = h ∧ Planned i g c := by
    intro g h hg
    obtain ⟨c,hc,rfl⟩ := Option.map_eq_some_iff.mp (List.getElem?_map ▸ hg)
    obtain ⟨hlt,rfl⟩ := List.getElem?_eq_some_iff.mp hc
    have hp := hplanned.get (i := g) (by simpa [hlen] using hlt) hlt
    rw [List.get_eq_getElem,List.getElem_range] at hp
    exact ⟨hlen ▸ hlt,_,rfl,hp⟩
  refine ⟨hroom,by simpa using hlen.symm,hnum,?_,?_,?_,?_⟩
  · intro g h hg
    obtain ⟨hlt,c,rfl,hc⟩ := hget g h hg
    exact hc.vertexBegin.trans (groupVertexBegin_eq hroom hnum hlt)
  · intro g h hg
    obtain ⟨hlt,c,rfl,hc⟩ := hget g h hg
    exact hc.vertexEnd.trans (groupVertexEnd_eq hroom hnum hlt)
  · intro g h hg
    obtain ⟨_,c,rfl,hc⟩ := hget g h hg
    exact hc.bits
  · intro g h hg
    obtain ⟨hlt,c,rfl,hc⟩ := hget g h hg
    rw [hc.partitionNum,partitionNum_eq hroom hnum hlt hc.bits,hc.vertexBegin,hc.vertexEnd]

end

omit [Floating D] in
/-- The range that `dp` computes for a partition is the one that `make` gives it. -/
theorem partitionRange_eq {i : DpInput D} {hint : GraphHint D} (ok : HintOk i.vNum hint) {g : Nat} {h : GroupHint D}
    (hh : hint.groupHints[g]? = some h) (hb : h.vertexBegin = i.groupVertexBegin g)
    (he : h.vertexEnd = i.groupVertexEnd g) {p : Nat} (hp : p < h.partitionNum) :
    i.partitionRange g h.partitionBits p =
      (h.vertexBegin + p * 2 ^ h.partitionBits,
        min (h.vertexBegin + (p + 1) * 2 ^ h.partitionBits) i.vNum) := by
  have hfit := ok.part_fits hh hp
  have hlt := mul_lt_of_lt_ceilDiv (Nat.two_pow_pos h.partitionBits) (ok.nums g h hh ▸ hp)
  have hends := ok.ends g h hh
  have hroom := ok.room
  have hpow : 2 ^ h.partitionBits ≤ 2 ^ hint.groupBits :=
    Nat.pow_le_pow_right (by omega) (ok.bits g h hh)
  have hnext : h.vertexBegin + (p + 1) * 2 ^ h.partitionBits =
      h.vertexBegin + p * 2 ^ h.partitionBits + 2 ^ h.partitionBits := by ring
  have hpos := Nat.two_pow_pos h.partitionBits
  have hin : h.vertexBegin + p * 2 ^ h.partitionBits < i.vNum := by omega
  have hoff : u32 (p * 2 ^ h.partitionBits) = p * 2 ^ h.partitionBits := u32_of_lt (by omega)
  rw [DpInput.partitionRange,Nat.mul_comm (2 ^ h.partitionBits),hoff,← hb,← he]
  simp only [u32_of_lt (show h.vertexBegin + p * 2 ^ h.partitionBits < 2 ^ 32 by omega)]
  rw [u32_of_lt (by omega),← hnext]
  simp only [Prod.mk.injEq,true_and]
  omega

/-- `sc` is the class that `dp` evaluated for the range `r` when it selected the hint. -/
def EvaluatedFor (i : DpInput D) (hint : GraphHint D) (r : Nat × Nat) (sc : SamplerClass) : Prop :=
  ∃ (g : Nat) (h : GroupHint D) (p : Nat) (methods : List (SamplerClass × D)),
    hint.groupHints[g]? = some h ∧ p < h.partitionNum ∧
    i.partitionRange g h.partitionBits p = r ∧
    i.offers g h.partitionBits p = some methods ∧ (choosePartitionSc methods).2 = some sc

/-- Ranges and classes of all groups correspond, one to one and in order. -/
theorem planned_classes {i : DpInput D} {selected : List (Candidate D)}
    {hint : GraphHint D} (hhint : hint = ⟨i.groupBits,i.groupNum,selected.map Candidate.hint,
      selected.flatMap Candidate.partitionSc⟩) (ok : HintOk i.vNum hint)
    (hplanned : List.Forall₂ (Planned i) (List.range i.groupNum) selected) :
    List.Forall₂ (EvaluatedFor i hint) (hint.groupHints.map (groupRow i.vNum)).flatten
      hint.partitionSamplerClass := by
  have hrows : hint.groupHints.map (groupRow i.vNum) =
      selected.map (fun c => groupRow i.vNum c.hint) := by
    rw [hhint,List.map_map]
    rfl
  have hclasses : hint.partitionSamplerClass = (selected.map Candidate.partitionSc).flatten := by
    rw [hhint]
    rfl
  rw [hrows,hclasses]
  apply List.rel_flatten
  rw [List.forall₂_map_left_iff,List.forall₂_map_right_iff,List.forall₂_same]
  intro c hc
  obtain ⟨g,hg,rfl⟩ := List.getElem_of_mem hc
  have hh : hint.groupHints[g]? = some selected[g].hint := by
    rw [hhint,List.getElem?_map,List.getElem?_eq_getElem hg]
    rfl
  have hp := hplanned.get (hplanned.length_eq ▸ hg) hg
  rw [List.get_eq_getElem,List.getElem_range] at hp
  rw [groupRow,List.forall₂_map_left_iff]
  refine List.forall₂_iff_get.mpr ⟨hp.classes.length_eq,fun k hk hk' => ?_⟩
  obtain ⟨methods,hoffers,hsc⟩ := hp.classes.get hk hk'
  simp only [List.get_eq_getElem,List.getElem_range] at hoffers ⊢
  have hk₀ : k < selected[g].hint.partitionNum := by simpa using hk
  exact ⟨g,_,k,methods,hh,hk₀,partitionRange_eq ok hh hp.vertexBegin hp.vertexEnd hk₀,hoffers,hsc⟩

theorem chooseGroupNum_eq {vNum : Nat} (hroom : vNum + 2 ^ chooseGroupBits vNum ≤ 2 ^ 32) :
    chooseGroupNum vNum = ceilDiv vNum (2 ^ chooseGroupBits vNum) := by
  have hpos := Nat.two_pow_pos (chooseGroupBits vNum)
  rw [chooseGroupNum,u32Sub_u32_one (by omega) hroom,ceilDiv]

/-- What a hint of `get_partition_hint` is: a layout that `make` can follow, with no more
than `max_partition_num` partitions, and the class evaluated for each of their ranges. -/
theorem getPartitionHint_spec {walkerPerEdge : D} {graph : Loaded} {cfg : MultiThreadConfig}
    {costs : Nat → List (Nat × List (SampleEstimation D))} {hint : GraphHint D}
    (hroom : graph.vNum + 2 ^ chooseGroupBits graph.vNum ≤ 2 ^ 32)
    (hhint : getPartitionHint walkerPerEdge graph cfg costs = some hint) :
    HintOk graph.vNum hint ∧
      (hint.groupHints.map (groupRow graph.vNum)).flatten.length ≤ maxPartitionNum ∧
      List.Forall₂ (EvaluatedFor (partitionInput walkerPerEdge graph cfg costs) hint)
        (hint.groupHints.map (groupRow graph.vNum)).flatten hint.partitionSamplerClass := by
  obtain ⟨selected,rfl,hplanned,hsum⟩ := dp_planned hhint
  have ok : HintOk graph.vNum ⟨chooseGroupBits graph.vNum,chooseGroupNum graph.vNum,
      selected.map Candidate.hint,selected.flatMap Candidate.partitionSc⟩ :=
    planned_hintOk hroom (chooseGroupNum_eq hroom) hplanned
  refine ⟨ok,?_,planned_classes rfl ok hplanned⟩
  rw [List.length_flatten,List.map_map,List.map_map]
  simpa [Function.comp_def,groupRow] using hsum

theorem evaluated_at {i : DpInput D} {hint : GraphHint D} {vNum : Nat} (ok : HintOk vNum hint)
    (hclasses : List.Forall₂ (EvaluatedFor i hint) (hint.groupHints.map (groupRow vNum)).flatten
      hint.partitionSamplerClass) {k : Nat}
    (hk : k < (hint.groupHints.map (groupRow vNum)).flatten.length) :
    ((hint.groupHints.map (groupRow vNum)).flatten.getD k (0,0)).1 <
        ((hint.groupHints.map (groupRow vNum)).flatten.getD k (0,0)).2 ∧
      ∃ sc, hint.partitionSamplerClass[k]? = some sc ∧
        EvaluatedFor i hint ((hint.groupHints.map (groupRow vNum)).flatten.getD k (0,0)) sc := by
  have hk' := hclasses.length_eq ▸ hk
  have hr := hclasses.get hk hk'
  rw [List.getD_eq_getElem _ _ hk]
  exact ⟨ok.partition_nonempty (List.getElem_mem hk),_,List.getElem?_eq_getElem hk',hr⟩

/-- The agreement of the plan, of the partitions that `make` builds and of the two lookups. -/
structure Agrees (i : DpInput D) (hint : GraphHint D) (g : Made) : Prop where
  vNum : g.vNum = i.vNum
  tiles : Tiles 0 g.partitions g.vNum
  nonempty : ∀ k < g.partitionNum, g.partitionBegin k < g.partitionEnd k
  classes : g.partitionSamplerClass.length = g.partitionNum
  few : g.partitionNum ≤ maxPartitionNum
  evaluated : ∀ k < g.partitionNum, ∃ sc, g.partitionSamplerClass[k]? = some sc ∧
    EvaluatedFor i hint (g.partitionBegin k,g.partitionEnd k) sc
  lookup : ∀ v < g.vNum, ∃ k < g.partitionNum,
    (∀ j < g.partitionNum, g.partitionBegin j ≤ v ∧ v < g.partitionEnd j ↔ j = k) ∧
    g.getVertexPartitionId v = k ∧
    ∀ (mt : MessageTask) (origin : Nat → Nat) (m : Nat), m ∈ mt.range → origin m = v →
      (mt.prepare g.toGroups origin).partitionIds m = k

/-- Whenever `dp` finds a selection, `make` builds the partitions it planned, and every
vertex is looked up in the partition that holds it. -/
theorem plan_make_lookup_agree (walkerPerEdge : D) (graph : Loaded) (cfg : MultiThreadConfig)
    (costs : Nat → List (Nat × List (SampleEstimation D))) (hint : GraphHint D)
    (schedule : List (Nat × Nat) → List (Nat × Nat)) (hv : 1 ≤ graph.vNum)
    (hroom : graph.vNum + 2 ^ chooseGroupBits graph.vNum ≤ 2 ^ 32) (hthreads : 1 ≤ cfg.threadNum)
    (hhint : getPartitionHint walkerPerEdge graph cfg costs = some hint) :
    ∃ made, make cfg hint schedule graph = some made ∧
      Agrees (partitionInput walkerPerEdge graph cfg costs) hint made := by
  obtain ⟨ok,hfew,hclasses⟩ := getPartitionHint_spec hroom hhint
  obtain ⟨k,units,hmake,_⟩ : ∃ k units, make cfg hint schedule graph = some _ ∧ _ :=
    ok.make_isSome schedule hv hthreads
  refine ⟨_,hmake,rfl,ok.partitions_tiles,fun k hk => (evaluated_at ok hclasses hk).1,
    hclasses.length_eq.symm,hfew,fun k hk => (evaluated_at ok hclasses hk).2,?_⟩
  intro v hvlt
  have hsmall : maxPartitionNum < 2 ^ 16 := by decide
  have hlookup := fun s => ok.lookup (by omega) s hvlt
  obtain ⟨p,_,hu⟩ := ok.partitions_tiles.existsUnique_index (Nat.zero_le v) hvlt
  -- Every table leads to the one partition whose range holds the vertex.
  have hid : ∀ s, (groupsOf hint).partitionId s v = p := fun s => hu _ (hlookup s)
  obtain ⟨r,hr,hlo,hhi⟩ := hid 0 ▸ hlookup 0
  obtain ⟨hp,hrp⟩ := List.getElem?_eq_some_iff.mp hr
  refine ⟨p,hp,?_,hid 0,?_⟩
  · intro j hj
    have hj' : j < (hint.groupHints.map (groupRow graph.vNum)).flatten.length := hj
    constructor
    · rintro ⟨h1,h2⟩
      refine hu j ⟨_,List.getElem?_eq_getElem hj',?_⟩
      rw [← List.getD_eq_getElem _ (0,0) hj']
      exact ⟨h1,h2⟩
    · rintro rfl
      have hget := List.getD_eq_getElem _ (0,0) hp
      rw [hrp] at hget
      simp only [Made.partitionBegin,Made.partitionEnd,assemble,hget]
      exact ⟨hlo,hhi⟩
  · intro mt origin m hm ho
    rw [MessageTask.prepare_partitionIds hm,ho]
    exact (u16_of_lt (hid mt.socket ▸ Nat.lt_of_lt_of_le hp (by omega))).trans (hid mt.socket)

theorem exists_hint {graph : Loaded} {cfg : MultiThreadConfig}
    {costs : Nat → List (Nat × List (SampleEstimation ℚ))} {menus : List (List (Menu ℚ))}
    (hmenus : (List.range (partitionInput 1 graph cfg costs).groupNum).mapM
      (fun g => (partitionInput 1 graph cfg costs).menus g) = some menus)
    (hmethods : ∀ group ∈ menus, ∀ menu ∈ group, ∀ methods ∈ menu.offers,
      methods ≠ [] ∧ ∀ m ∈ methods, 0 ≤ m.2)
    (hfit : ∃ chosen : List (Menu ℚ), List.Forall₂ (· ∈ ·) chosen menus ∧
      (chosen.map Menu.partitionNum).sum ≤ maxPartitionNum) :
    ∃ hint : GraphHint ℚ, getPartitionHint 1 graph cfg costs = some hint := by
  obtain ⟨_,selected,_,_,hplan,_⟩ := exists_plan hmethods hfit
  have hhint : getPartitionHint 1 graph cfg costs = some _ :=
    Option.bind_eq_some_iff.mpr ⟨_,hmenus,Option.map_eq_some_iff.mpr ⟨selected,hplan,rfl⟩⟩
  exact ⟨_,hhint⟩

/-- For one edge, so two groups of one vertex, and one method measured, there is a hint. -/
theorem exists_hint_one_edge :
    let graph : Loaded := ⟨true,2,2,[(0,1)],[0,1],[⟨1,1⟩,⟨0,1⟩],[0,1,2]⟩
    let cfg : MultiThreadConfig := ⟨1,1,0⟩
    let costs : Nat → List (Nat × List (SampleEstimation ℚ)) :=
      fun _ => [(1,[⟨.classDirectSampler,3⟩])]
    ∃ hint : GraphHint ℚ, getPartitionHint 1 graph cfg costs = some hint := by
  intro graph cfg costs
  have hmenus : (List.range (partitionInput 1 graph cfg costs).groupNum).mapM
      (fun g => (partitionInput 1 graph cfg costs).menus g) =
      some [[⟨0,1,0,1,1,[[(.classDirectSampler,3)]]⟩],
        [⟨1,2,0,1,1,[[(.classDirectSampler,3)]]⟩]] := by decide +kernel
  exact exists_hint hmenus (by simp)
    ⟨_,.cons List.mem_cons_self (.cons List.mem_cons_self .nil),by simp [maxPartitionNum]⟩

theorem plan_make_lookup_agree_one_edge :
    let graph : Loaded := ⟨true,2,2,[(0,1)],[0,1],[⟨1,1⟩,⟨0,1⟩],[0,1,2]⟩
    let cfg : MultiThreadConfig := ⟨1,1,0⟩
    let costs : Nat → List (Nat × List (SampleEstimation ℚ)) :=
      fun _ => [(1,[⟨.classDirectSampler,3⟩])]
    ∃ (hint : GraphHint ℚ) (made : Made), getPartitionHint 1 graph cfg costs = some hint ∧
      make cfg hint id graph = some made ∧ Agrees (partitionInput 1 graph cfg costs) hint made := by
  intro graph cfg costs
  obtain ⟨hint,hhint⟩ := exists_hint_one_edge
  obtain ⟨made,hmade,hagrees⟩ := plan_make_lookup_agree 1 graph cfg costs hint id (by decide)
    (by decide) (by decide) hhint
  exact ⟨_,made,hhint,hmade,hagrees⟩

end FlashMob.Partition
