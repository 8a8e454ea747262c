import FlashMob.Graph.Built
import FlashMob.Tools.Io

namespace FlashMob.Tools
open FlashMob.Graph Lib.Stdio Lib.Tiling

/-- A `std::map`: what is found under a key, and the number of its keys. -/
structure NameMap where
  find : Nat → Option Nat
  size : Nat

/-- `name2id[name] = id` for a name that is not a key yet. -/
def NameMap.insert (name2id : NameMap) (name id : Nat) : NameMap :=
  ⟨Function.update name2id.find name (some id),name2id.size + 1⟩

def getVertexId (name2id : NameMap) (name : Nat) : NameMap × Nat :=
  let found := if (name2id.find name).isNone then name2id.insert name (u32 name2id.size) else name2id
  (found,(found.find name).getD 0)

/-- The body of the renaming loop: the map, and the edges renamed so far. -/
def formatEdge (st : NameMap × List (Nat × Nat)) (e : Nat × Nat) : NameMap × List (Nat × Nat) :=
  let src := getVertexId st.1 e.1
  let dst := getVertexId src.1 e.2
  (dst.1,st.2 ++ [(src.2,dst.2)])

def formatEdges (edges : List (Nat × Nat)) : NameMap × List (Nat × Nat) :=
  edges.foldl formatEdge (⟨fun _ => none,0⟩,[])

/-- The id that a name has in the end. -/
def formatId (edges : List (Nat × Nat)) (name : Nat) : Nat :=
  ((formatEdges edges).1.find name).getD 0

/-- The two files that `format_knk` writes. -/
structure Formatted where
  info : List Char
  binary : List UInt8

def formatKnk (garbage : Nat × Nat) (inputPath : Path) (file : List Char) : Formatted :=
  let formatted := formatEdges (readTextGraph garbage file)
  { info := cString ("# Converted from: ".toList ++ inputPath.1 ++ '\n' ::
      ("# vertex number: ".toList ++ printUnsigned (u64 formatted.1.size) ++ '\n' ::
        ("# edegs: ".toList ++ printUnsigned (u64 formatted.2.length) ++ ['\n'])))
    binary := writeBinaryGraph formatted.2 }

/-- The map after names got their ids in the order of `seen`. -/
structure Numbered (seen : List Nat) (name2id : NameMap) : Prop where
  nodup : seen.Nodup
  small : ∀ n ∈ seen, n < 2 ^ 32
  size : name2id.size = seen.length
  find : ∀ n, name2id.find n = if n ∈ seen then some (seen.idxOf n) else none

/-- There are no more names than 32-bit numbers. -/
theorem length_le_of_small {seen : List Nat} (hn : seen.Nodup) (hs : ∀ n ∈ seen, n < 2 ^ 32) :
    seen.length ≤ 2 ^ 32 := by
  have hsub := (hn.subperm (fun n hm => List.mem_range.mpr (hs n hm))).length_le
  rwa [List.length_range] at hsub

theorem getVertexId_numbered {seen : List Nat} {name2id : NameMap} (h : Numbered seen name2id)
    {name : Nat} (hname : name < 2 ^ 32) :
    Numbered (meet seen name) (getVertexId name2id name).1 ∧
      (getVertexId name2id name).2 = (meet seen name).idxOf name := by
  by_cases hm : name ∈ seen
  · have hfind : name2id.find name = some (seen.idxOf name) := by rw [h.find,if_pos hm]
    have hsome : ¬(name2id.find name).isNone = true := by simp [hfind]
    have hmeet : meet seen name = seen := if_pos hm
    rw [getVertexId,if_neg hsome,hmeet,hfind]
    exact ⟨h,rfl⟩
  · have hnone : (name2id.find name).isNone = true := by rw [h.find,if_neg hm]; rfl
    have hnodup := nodup_meet h.nodup name
    have hsmall : ∀ n ∈ meet seen name, n < 2 ^ 32 := by
      intro n hn
      rcases mem_meet.mp hn with hn | rfl
      · exact h.small n hn
      · exact hname
    have hroom := length_le_of_small hnodup hsmall
    have hmeet : meet seen name = seen ++ [name] := if_neg hm
    rw [hmeet] at hnodup hsmall hroom ⊢
    rw [List.length_append,List.length_singleton] at hroom
    have hidx : (seen ++ [name]).idxOf name = seen.length := by
      rw [List.idxOf_append_of_notMem hm]
      simp
    have hid : u32 name2id.size = seen.length := by
      rw [h.size]
      exact u32_of_lt (by omega)
    simp only [getVertexId,if_pos hnone,NameMap.insert,Function.update_self,Option.getD_some,hid,hidx]
    refine ⟨⟨hnodup,hsmall,?_,?_⟩,trivial⟩
    · rw [h.size,List.length_append,List.length_singleton]
    · intro n
      by_cases hn : n = name
      · subst hn
        rw [if_pos (by simp),hidx]
        exact Function.update_self _ _ _
      · refine (Function.update_of_ne hn _ _).trans ?_
        rw [h.find]
        by_cases hs : n ∈ seen
        · rw [if_pos hs,if_pos (by simp [hs]),List.idxOf_append_of_mem hs]
        · rw [if_neg hs,if_neg (by simp [hs,hn])]

/-- What the renaming loop has done for the edges it has read. -/
structure FormattedAs (edges : List (Nat × Nat)) (seen : List Nat)
    (st : NameMap × List (Nat × Nat)) : Prop where
  numbered : Numbered seen st.1
  edges : st.2 = edges.map (fun e => (seen.idxOf e.1,seen.idxOf e.2))

theorem formatEdge_formatted {edges : List (Nat × Nat)} {seen : List Nat}
    {st : NameMap × List (Nat × Nat)} (h : FormattedAs edges seen st)
    (hseen : ∀ n ∈ names edges, n ∈ seen) {e : Nat × Nat} (h1 : e.1 < 2 ^ 32) (h2 : e.2 < 2 ^ 32) :
    FormattedAs (edges ++ [e]) (meet (meet seen e.1) e.2) (formatEdge st e) := by
  obtain ⟨hfirst,hsrc⟩ := getVertexId_numbered h.numbered h1
  obtain ⟨hsecond,hdst⟩ := getVertexId_numbered hfirst h2
  refine ⟨hsecond,?_⟩
  rw [formatEdge]
  simp only
  rw [hsrc,hdst,← idxOf_meet e.2 (mem_meet.mpr (Or.inr rfl)),h.edges,List.map_append,
    map_idxOf_meet hseen,List.map_singleton]

theorem formatEdges_formatted {edges : List (Nat × Nat)} (hs : Small edges) :
    FormattedAs edges ((names edges).foldl meet []) (formatEdges edges) := by
  induction edges using List.reverseRecOn with
  | nil => exact ⟨⟨List.nodup_nil,fun n hn => (nomatch hn),rfl,fun n => rfl⟩,rfl⟩
  | append_singleton edges e ih =>
    have hprefix := ih (fun e he => hs e (List.mem_append_left _ he))
    obtain ⟨h1,h2⟩ := hs e (by simp)
    have hnames : (names (edges ++ [e])).foldl meet [] =
        meet (meet ((names edges).foldl meet []) e.1) e.2 := by
      rw [names,List.flatMap_append,List.foldl_append]
      rfl
    rw [hnames,formatEdges,List.foldl_append]
    exact formatEdge_formatted hprefix (fun n hn => mem_meets.mpr (Or.inr hn)) h1 h2

section
variable {edges : List (Nat × Nat)} (hs : Small edges)
include hs

theorem formatId_eq {n : Nat} (hn : n ∈ names edges) :
    formatId edges n = ((names edges).foldl meet []).idxOf n := by
  rw [formatId,(formatEdges_formatted hs).numbered.find,if_pos (mem_meets.mpr (Or.inr hn)),
    Option.getD_some]

theorem formatEdges_edges :
    (formatEdges edges).2 = edges.map (fun e => (formatId edges e.1,formatId edges e.2)) := by
  rw [(formatEdges_formatted hs).edges]
  apply List.map_congr_left
  intro e he
  rw [formatId_eq hs (fst_mem_names he),formatId_eq hs (snd_mem_names he)]

theorem formatId_bijOn :
    Set.BijOn (formatId edges) {n | n ∈ names edges} (Set.Iio (names edges).dedup.length) := by
  have hmem : ∀ n, n ∈ (names edges).foldl meet [] ↔ n ∈ names edges := fun n => by
    rw [mem_meets]
    simp
  have hnodup := nodup_meets (names edges)
  have hlen := length_eq_names hnodup hmem
  refine ⟨?_,?_,?_⟩
  · intro n hn
    rw [Set.mem_Iio,formatId_eq hs hn,← hlen]
    exact List.idxOf_lt_length_iff.mpr ((hmem n).mpr hn)
  · intro n hn m hm he
    rw [formatId_eq hs hn,formatId_eq hs hm] at he
    exact (List.idxOf_inj ((hmem n).mpr hn)).mp he
  · intro i hi
    rw [Set.mem_Iio,← hlen] at hi
    have hname := (hmem _).mp (List.getElem_mem hi)
    refine ⟨_,hname,?_⟩
    rw [formatId_eq hs hname,hnodup.idxOf_getElem i hi]

theorem formatId_lt {a b : Nat} (ha : a ∈ names edges) (hb : b ∈ names edges)
    (hab : (names edges).idxOf a < (names edges).idxOf b) :
    formatId edges a < formatId edges b := by
  rw [formatId_eq hs ha,formatId_eq hs hb]
  exact idxOf_meets_lt ha hb hab

/-- The ids fit 32 bits: there are no more of them than names. -/
theorem formatEdges_small : Small (formatEdges edges).2 := by
  have hseen := (formatEdges_formatted hs).numbered
  have hroom := length_le_of_small hseen.nodup hseen.small
  rw [(formatEdges_formatted hs).edges]
  have hlt : ∀ n ∈ names edges, ((names edges).foldl meet []).idxOf n < 2 ^ 32 := fun n hn =>
    Nat.lt_of_lt_of_le (List.idxOf_lt_length_iff.mpr (mem_meets.mpr (Or.inr hn))) hroom
  intro d hd
  obtain ⟨e,he,rfl⟩ := List.mem_map.mp hd
  exact ⟨hlt _ (fst_mem_names he),hlt _ (snd_mem_names he)⟩

end

/-- Two numbers can be scanned from every piece that `read_text_graph` does not pass over. -/
def Parses (file : List Char) : Prop := ∀ line ∈ lines lineLength file, line.head? ≠ some '#' →
  ∃ a b rest rest', scanUnsigned (cString line) = some (a,rest) ∧ scanUnsigned rest = some (b,rest')

theorem scanUnsigned_lt {s rest : List Char} {n : Nat} (h : scanUnsigned s = some (n,rest)) :
    n < 2 ^ 32 := by
  dsimp only [scanUnsigned] at h
  split_ifs at h
  obtain rfl := congrArg Prod.fst (Option.some.inj h)
  exact Nat.mod_lt _ (Nat.two_pow_pos 32)

/-- What is read does not depend on what was in the variables before. -/
theorem readTextGraph_parses {file : List Char} (h : Parses file) :
    ∃ edges, Small edges ∧ ∀ garbage, readTextGraph garbage file = edges := by
  have hloop : ∀ pieces : List (List Char), (∀ line ∈ pieces, line.head? ≠ some '#' →
      ∃ a b rest rest', scanUnsigned (cString line) = some (a,rest) ∧
        scanUnsigned rest = some (b,rest')) →
      ∃ edges, Small edges ∧ ∀ st : (Nat × Nat) × List (Nat × Nat),
        (pieces.foldl readLine st).2 = st.2 ++ edges := by
    intro pieces
    induction pieces with
    | nil => exact fun _ => ⟨[],fun e he => (nomatch he),fun st => (List.append_nil _).symm⟩
    | cons line pieces ih =>
      intro hp
      obtain ⟨edges,hs,hread⟩ := ih (fun l hl => hp l (List.mem_cons_of_mem _ hl))
      by_cases hmark : line.head? = some '#'
      · refine ⟨edges,hs,fun st => ?_⟩
        rw [List.foldl_cons,readLine_comment hmark,hread]
      · obtain ⟨a,b,rest,rest',ha,hb⟩ := hp line List.mem_cons_self hmark
        have hscan : ∀ old, scanEdge old line = (a,b) := fun old => by
          simp only [scanEdge,ha,hb]
        refine ⟨(a,b) :: edges,?_,fun st => ?_⟩
        · intro e he
          rcases List.mem_cons.mp he with rfl | he
          · exact ⟨scanUnsigned_lt ha,scanUnsigned_lt hb⟩
          · exact hs e he
        · rw [List.foldl_cons,readLine_data hmark,hread,hscan,List.append_assoc]
          rfl
  obtain ⟨edges,hs,hread⟩ := hloop _ h
  exact ⟨edges,hs,fun garbage => hread (garbage,[])⟩

/-- What it means that `id2name` of the formatted graph has the ids of the names that `id2name` of
the original graph has. Where the number of vertices wrapped, or the partitions leave out a vertex,
`load` and `make` go outside of their arrays or leave entries unset. -/
structure MadeAlike (edges : List (Nat × Nat)) (g : Loaded) (made made' : Made) : Prop where
  same : made' = { made with id2name := made'.id2name }
  names : Inside g.vNum g.rawEdges → Tiles 0 made.partitions made.vNum → ∀ v < made.vNum,
    made.id2name v ∈ names edges ∧ formatId edges (made.id2name v) = made'.id2name v

/-- What it means that the graph from the formatted file is the graph from the text. -/
structure LoadedAlike (edges : List (Nat × Nat)) (g g' : Loaded) : Prop where
  same : g' = { g with name2id := g'.name2id }
  made : ∀ (D : Type) (cfg : MultiThreadConfig) (hint : GraphHint D)
    (schedule : List (Nat × Nat) → List (Nat × Nat)),
    Option.Rel (MadeAlike edges g) (make cfg hint schedule g) (make cfg hint schedule g')

theorem names_map (edges : List (Nat × Nat)) (f : Nat → Nat) :
    names (edges.map (fun e => (f e.1,f e.2))) = (names edges).map f := by
  rw [names,names,List.flatMap_map,List.map_flatMap]
  rfl

theorem Small.names_lt {edges : List (Nat × Nat)} (hs : Small edges) :
    ∀ n ∈ names edges, n < 2 ^ 32 := by
  intro n hn
  obtain ⟨e,he,hn⟩ := List.mem_flatMap.mp hn
  simp only [List.mem_cons,List.not_mem_nil,or_false] at hn
  rcases hn with rfl | rfl
  · exact (hs e he).1
  · exact (hs e he).2

/-- Other names get the ids in the same order, so that the tables of names correspond. -/
theorem nameTable_map {edges : List (Nat × Nat)} {f : Nat → Nat} {asUndirected : Bool} {g : Loaded}
    {partitions : List (Nat × Nat)} {units : Nat → VertexSortUnit}
    (hf : Set.InjOn f {n | n ∈ names edges}) (hfew : (names edges).dedup.length ≤ uintMax)
    (hg : load edges asUndirected = some g) (ht : Tiles 0 partitions g.vNum)
    (hr : Redistributed partitions g.vNum g.unit units) {v : Nat} (hv : v < g.vNum) :
    nameTable g.name2id (newIds partitions units) v ∈ names edges ∧
      f (nameTable g.name2id (newIds partitions units) v) =
        nameTable (rename (edges.map (fun e => (f e.1,f e.2)))).name2id (newIds partitions units)
          v := by
  have hp := load_permuted hg hr
  obtain ⟨seen,hseen⟩ := rename_renamed edges hfew
  have hlen := length_eq_names hseen.named.nodup hseen.seen_iff
  have hname2id : g.name2id = (rename edges).name2id := load_name2id hg
  have hnamed : Named seen (g.name2id,g.vNum) := by
    rw [hname2id,load_vNum hg]
    exact hseen.named
  have hnum : g.vNum = seen.length := hnamed.vNum
  -- The other names are as many.
  have hfew' : (names (edges.map (fun e => (f e.1,f e.2)))).dedup.length ≤ uintMax := by
    have hnodup : (seen.map f).Nodup := List.Nodup.map_on
      (fun a ha b hb he => hf ((hseen.seen_iff a).mp ha) ((hseen.seen_iff b).mp hb) he)
      hseen.named.nodup
    rw [← length_eq_names hnodup (fun n => ?_),List.length_map,hlen]
    · exact hfew
    · rw [names_map,List.mem_map,List.mem_map]
      simp only [hseen.seen_iff]
  obtain ⟨seen',hseen'⟩ := rename_renamed _ hfew'
  have hsame := (rename_map hf).mirrors
  have hnamed' : Named seen' ((rename (edges.map (fun e => (f e.1,f e.2)))).name2id,g.vNum) := by
    have hnum' : (rename (edges.map (fun e => (f e.1,f e.2)))).vNum = g.vNum :=
      hsame.vNum.trans (load_vNum hg).symm
    rw [← hnum']
    exact hseen'.named
  have hlen' := length_eq_names hseen'.named.nodup hseen'.seen_iff
  -- The name of the vertex whose unit stands at `v`.
  have hid := hp.vertex_lt hv
  rw [hnum] at hid
  have hmem := List.getElem_mem hid
  have hname := (hseen.seen_iff _).mp hmem
  have hidx := hnamed.nodup.idxOf_getElem _ hid
  have hmem' : f seen[(units v).vertex] ∈ seen' := by
    rw [hseen'.seen_iff,names_map]
    exact List.mem_map_of_mem hname
  have hidx' : seen'.idxOf (f seen[(units v).vertex]) = (units v).vertex := by
    have hids := hsame.ids _ hname
    rw [hseen'.named.ids,if_pos hmem',hseen.named.ids,if_pos hmem,hidx] at hids
    exact hids
  have hinj : ∀ i j, i < g.vNum → j < g.vNum →
      newIds partitions units i = newIds partitions units j → i = j :=
    fun i j hi hj => newIds_inj ht hp hi hj
  have horig := nameTable_named hnamed (by omega) hinj hmem
  have hconv := nameTable_named hnamed' (by omega) hinj hmem'
  rw [hidx,newIds_vertex ht hp hv] at horig
  rw [hidx',newIds_vertex ht hp hv] at hconv
  rw [horig,hconv]
  exact ⟨hname,rfl⟩

theorem load_formatted {edges : List (Nat × Nat)} (hs : Small edges) (asUndirected : Bool) :
    Option.Rel (LoadedAlike edges) (load edges asUndirected)
      (load (formatEdges edges).2 asUndirected) := by
  have hinj := (formatId_bijOn hs).injOn
  have hload := load_map hinj asUndirected
  rw [formatEdges_edges hs,hload]
  cases hg : load edges asUndirected with
  | none => exact Option.Rel.none
  | some g =>
    rw [hg,Option.map_some] at hload
    refine Option.Rel.some ⟨rfl,fun D cfg hint schedule => make_rel _ ?_⟩
    intro rows k units hk hdeal
    refine ⟨rfl,fun hinside ht v hv => ?_⟩
    rw [load_vNum hg,load_rawEdges hg] at hinside
    exact nameTable_map hinj (few_of_inside hs.names_lt hinside) hg ht (deal_rows hk ht hdeal) hv

/-- The graph loaded from the file of `format_knk` is the one loaded from the text, with ids for the
names that are given in the order of first appearance. -/
theorem formatKnk_loads_alike {file : List Char} (h : Parses file) (garbage garbage' : Nat × Nat)
    (inputPath : Path) (asUndirected : Bool) :
    Set.BijOn (formatId (readTextGraph garbage file)) {n | n ∈ names (readTextGraph garbage file)}
        (Set.Iio (names (readTextGraph garbage file)).dedup.length) ∧
      (∀ a ∈ names (readTextGraph garbage file), ∀ b ∈ names (readTextGraph garbage file),
        (names (readTextGraph garbage file)).idxOf a < (names (readTextGraph garbage file)).idxOf b →
        formatId (readTextGraph garbage file) a < formatId (readTextGraph garbage file) b) ∧
      readBinaryGraph (formatKnk garbage inputPath file).binary =
        (readTextGraph garbage file).map (fun e => (formatId (readTextGraph garbage file) e.1,
          formatId (readTextGraph garbage file) e.2)) ∧
      Option.Rel (LoadedAlike (readTextGraph garbage file))
        (load (readTextGraph garbage' file) asUndirected)
        (load (readBinaryGraph (formatKnk garbage inputPath file).binary) asUndirected) := by
  obtain ⟨edges,hs,hread⟩ := readTextGraph_parses h
  have hbinary : readBinaryGraph (formatKnk garbage inputPath file).binary =
      (formatEdges edges).2 := by
    rw [formatKnk,hread garbage]
    exact readBinaryGraph_write (formatEdges_small hs)
  rw [hbinary,hread garbage,hread garbage']
  exact ⟨formatId_bijOn hs,fun a ha b hb => formatId_lt hs ha hb,formatEdges_edges hs,
    load_formatted hs asUndirected⟩

/-- Two edges with three names. -/
theorem formatKnk_loads_alike_path :
    Set.BijOn (formatId [(7,3),(3,5)]) {n | n ∈ [7,3,3,5]} (Set.Iio 3) ∧
      (∀ a ∈ [7,3,3,5], ∀ b ∈ [7,3,3,5], [7,3,3,5].idxOf a < [7,3,3,5].idxOf b →
        formatId [(7,3),(3,5)] a < formatId [(7,3),(3,5)] b) ∧
      readBinaryGraph (formatKnk (0,0) ⟨['p'],by decide⟩ "7 3\n3 5\n".toList).binary =
        [(0,1),(1,2)] ∧
      Option.Rel (LoadedAlike [(7,3),(3,5)]) (load [(7,3),(3,5)] true)
        (load (readBinaryGraph (formatKnk (0,0) ⟨['p'],by decide⟩ "7 3\n3 5\n".toList).binary)
          true) := by
  have hparses : Parses "7 3\n3 5\n".toList := by
    have hlines : lines lineLength "7 3\n3 5\n".toList =
        [['7',' ','3','\n'],['3',' ','5','\n']] := by decide
    intro line hl _
    rw [hlines] at hl
    simp only [List.mem_cons,List.not_mem_nil,or_false] at hl
    rcases hl with rfl | rfl
    · exact ⟨7,3,[' ','3','\n'],['\n'],rfl,rfl⟩
    · exact ⟨3,5,[' ','5','\n'],['\n'],rfl,rfl⟩
  exact formatKnk_loads_alike hparses (0,0) (1,1) ⟨['p'],by decide⟩ true

end FlashMob.Tools
