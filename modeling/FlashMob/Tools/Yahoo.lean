import FlashMob.Tools.Io

namespace FlashMob.Tools
open Lib.Stdio

/-- The inner loop of `convert`, for one vertex; `none` when a `CHECK` fails. -/
def readDsts (src : Nat) : Nat → List Char → Option (List (Nat × Nat) × List Char)
  | 0, file => some ([],file)
  | degree+1, file =>
    match scanUnsigned file with
    | none => none
    | some (dst,file) =>
      match readDsts src degree file with
      | none => none
      | some (edges,file) => some ((src,dst) :: edges,file)

/-- The loop over the vertices of one file: it ends where two numbers cannot be scanned. -/
def readVertices : Nat → List Char → Option (List (Nat × Nat))
  | 0, _ => none
  | fuel+1, file =>
    match scanUnsigned file with
    | none => some []
    | some (src,file) =>
      match scanUnsigned file with
      | none => some []
      | some (degree,file) =>
        match readDsts src degree file with
        | none => none
        | some (edges,file) =>
          match readVertices fuel file with
          | none => none
          | some rest => some (edges ++ rest)

/-- The loop over the inputs. Every record takes a character at least. -/
def readInputs (files : Path → Option (List Char)) : List Path → Option (List (Nat × Nat))
  | [] => some []
  | path :: inputPaths =>
    match files path with
    | none => none
    | some file =>
      match readVertices (file.length+1) file with
      | none => none
      | some edges =>
        match readInputs files inputPaths with
        | none => none
        | some rest => some (edges ++ rest)

def convertedFrom (inputPaths : List Path) : List Char :=
  "# Converted from:".toList ++ inputPaths.flatMap (fun path => ' ' :: path.1)

def edgesLine (edges : List (Nat × Nat)) : List Char :=
  "# Edges: ".toList ++ printUnsigned (u64 edges.length)

/-- The string that both graphs are written with. -/
def outputStr (inputPaths : List Path) (edges : List (Nat × Nat)) : List Char :=
  convertedFrom inputPaths ++ '\n' :: (edgesLine edges ++ ['\n'])

/-- The files that `convert` writes: the binary graph and its information, and the text. -/
structure Output where
  info : Option (List Char)
  binary : Option (List UInt8)
  text : Option (List Char)

def convert (files : Path → Option (List Char)) (inputPaths : List Path)
    (binaryOutputPath textOutputPath : Path) : Option Output :=
  match readInputs files inputPaths with
  | none => none
  | some edges => some {
      info :=
        if binaryOutputPath.1.length ≠ 0 then some (cString (outputStr inputPaths edges)) else none
      binary := if binaryOutputPath.1.length ≠ 0 then some (writeBinaryGraph edges) else none
      text :=
        if textOutputPath.1.length ≠ 0 then some (writeTextGraph edges (outputStr inputPaths edges))
        else none }

/-- A file in the format `src degree dst...`, with the vertices and the neighbours it lists. -/
structure Adjacency (file : List Char) where
  vertices : List (Nat × List Nat)
  spells : Spells (vertices.flatMap (fun v => v.1 :: v.2.length :: v.2)) file
  small : ∀ v ∈ vertices, v.1 < 2 ^ 32 ∧ v.2.length < 2 ^ 32 ∧ ∀ dst ∈ v.2, dst < 2 ^ 32

def Adjacency.edges {file : List Char} (a : Adjacency file) : List (Nat × Nat) :=
  a.vertices.flatMap (fun v => v.2.map (fun dst => (v.1,dst)))

theorem Adjacency.edges_small {file : List Char} (a : Adjacency file) : Small a.edges := by
  intro e he
  obtain ⟨v,hv,he⟩ := List.mem_flatMap.mp he
  obtain ⟨dst,hdst,rfl⟩ := List.mem_map.mp he
  obtain ⟨hsrc,-,hdsts⟩ := a.small v hv
  exact ⟨hsrc,hdsts dst hdst⟩

theorem readDsts_spells (src : Nat) {dsts tokens : List Nat} {file : List Char}
    (h : Spells (dsts ++ tokens) file) (hs : ∀ dst ∈ dsts, dst < 2 ^ 32) :
    ∃ rest, readDsts src dsts.length file = some (dsts.map (fun dst => (src,dst)),rest) ∧
      Spells tokens rest := by
  induction dsts generalizing file with
  | nil => exact ⟨file,rfl,h⟩
  | cons dst dsts ih =>
    obtain ⟨file',hscan,h'⟩ := h.scan_cons (hs dst List.mem_cons_self)
    obtain ⟨rest,hread,hrest⟩ := ih h' (fun d hd => hs d (List.mem_cons_of_mem _ hd))
    refine ⟨rest,?_,hrest⟩
    simp only [List.length_cons,readDsts,hscan,hread,List.map_cons]

theorem readVertices_spells {vertices : List (Nat × List Nat)} {file : List Char} {fuel : Nat}
    (h : Spells (vertices.flatMap (fun v => v.1 :: v.2.length :: v.2)) file)
    (hs : ∀ v ∈ vertices, v.1 < 2 ^ 32 ∧ v.2.length < 2 ^ 32 ∧ ∀ dst ∈ v.2, dst < 2 ^ 32)
    (hfuel : vertices.length < fuel) :
    readVertices fuel file =
      some (vertices.flatMap (fun v => v.2.map (fun dst => (v.1,dst)))) := by
  induction vertices generalizing file fuel with
  | nil =>
    obtain ⟨fuel,rfl⟩ := Nat.exists_eq_add_of_lt hfuel
    simp only [readVertices,h.scan_nil,List.flatMap_nil]
  | cons v vertices ih =>
    cases fuel with
    | zero => simp at hfuel
    | succ fuel =>
      obtain ⟨hsrc,hdegree,hdsts⟩ := hs v List.mem_cons_self
      rw [List.flatMap_cons,List.cons_append,List.cons_append] at h
      obtain ⟨file1,hscan1,h1⟩ := h.scan_cons hsrc
      obtain ⟨file2,hscan2,h2⟩ := h1.scan_cons hdegree
      obtain ⟨file3,hread,h3⟩ := readDsts_spells v.1 h2 hdsts
      have hrest := ih h3 (fun w hw => hs w (List.mem_cons_of_mem _ hw)) (by simpa using hfuel)
      simp only [readVertices,hscan1,hscan2,hread,hrest,List.flatMap_cons]

section
variable {files : Path → Option (List Char)} {inputPaths : List Path} {text : Path → List Char}

theorem Adjacency.read {file : List Char} (a : Adjacency file) :
    readVertices (file.length+1) file = some a.edges := by
  refine readVertices_spells a.spells a.small (Nat.lt_succ_of_le ?_)
  refine Nat.le_trans ?_ a.spells.length_le
  induction a.vertices with
  | nil => exact Nat.zero_le _
  | cons v vertices ih =>
    simp only [List.flatMap_cons,List.length_append,List.length_cons]
    omega

theorem readInputs_eq (hfiles : ∀ path ∈ inputPaths, files path = some (text path))
    (a : ∀ path, Adjacency (text path)) :
    readInputs files inputPaths = some (inputPaths.flatMap (fun path => (a path).edges)) := by
  induction inputPaths with
  | nil => rfl
  | cons path inputPaths ih =>
    have hrest := ih (fun p hp => hfiles p (List.mem_cons_of_mem _ hp))
    simp only [readInputs,hfiles path List.mem_cons_self,(a path).read,hrest,List.flatMap_cons]

end

theorem convertedFrom_no_null (inputPaths : List Path) : '\x00' ∉ convertedFrom inputPaths := by
  intro h
  rcases List.mem_append.mp h with h | h
  · exact absurd h (by decide)
  · obtain ⟨path,-,h⟩ := List.mem_flatMap.mp h
    rcases List.mem_cons.mp h with h | h
    · cases h
    · exact path.2 h

theorem convertedFrom_no_break {inputPaths : List Path}
    (hbreak : ∀ path ∈ inputPaths, '\n' ∉ path.1) : '\n' ∉ convertedFrom inputPaths := by
  intro h
  rcases List.mem_append.mp h with h | h
  · exact absurd h (by decide)
  · obtain ⟨path,hp,h⟩ := List.mem_flatMap.mp h
    rcases List.mem_cons.mp h with h | h
    · cases h
    · exact hbreak path hp h

theorem edgesLine_no_mem {c : Char} (hc : c ∉ "# Edges: ".toList) (hdigit : c.isDigit = false)
    (edges : List (Nat × Nat)) : c ∉ edgesLine edges := by
  intro h
  rcases List.mem_append.mp h with h | h
  · exact hc h
  · rw [printed_isDigit h] at hdigit
    cases hdigit

/-- The number of the edges has no more than twenty digits. -/
theorem edgesLine_commented (edges : List (Nat × Nat)) : Commented (edgesLine edges) := by
  have hdigits : (printUnsigned (u64 edges.length)).length ≤ 20 :=
    (Nat.length_toDigits_le_iff (by decide) (by decide)).mpr
      (Nat.lt_trans (u64_lt _) (by decide))
  have hprefix : "# Edges: ".toList.length = 9 := by decide
  have hlen : (edgesLine edges).length < lineLength :=
    calc (edgesLine edges).length = 9 + (printUnsigned (u64 edges.length)).length :=
          List.length_append.trans (congrArg (· + _) hprefix)
      _ < lineLength := Nat.lt_of_le_of_lt (Nat.add_le_add_left hdigits 9) (by decide)
  rw [commented_short hlen]
  rfl

theorem outputStr_cString (inputPaths : List Path) (edges : List (Nat × Nat)) :
    cString (outputStr inputPaths edges) = outputStr inputPaths edges := by
  apply cString_eq
  intro h
  rcases List.mem_append.mp h with h | h
  · exact convertedFrom_no_null _ h
  · rcases List.mem_cons.mp h with h | h
    · cases h
    · rcases List.mem_append.mp h with h | h
      · exact edgesLine_no_mem (by decide) rfl _ h
      · cases List.mem_singleton.mp h

/-- The edges are read from the text behind those that come from its first line, and there are
none of these exactly when that line is commented throughout. -/
theorem readTextGraph_outputStr {inputPaths : List Path} {edges : List (Nat × Nat)}
    (hbreak : ∀ path ∈ inputPaths, '\n' ∉ path.1) (hs : Small edges) (garbage : Nat × Nat) :
    ∃ extra, readTextGraph garbage (writeTextGraph edges (outputStr inputPaths edges)) =
        extra ++ edges ∧ (extra = [] ↔ Commented (convertedFrom inputPaths)) := by
  have htext : writeTextGraph edges (outputStr inputPaths edges) =
      convertedFrom inputPaths ++ '\n' ::
        (edgesLine edges ++ '\n' :: edges.flatMap edgeLine) := by
    rw [writeTextGraph,outputStr_cString,outputStr]
    simp only [List.append_assoc,List.cons_append,List.nil_append]
  obtain ⟨st,hread,-,hsame,hmore⟩ := readLines_header (convertedFrom_no_break hbreak)
    (garbage,[]) (edgesLine edges ++ '\n' :: edges.flatMap edgeLine)
  have hedges : '\n' ∉ edgesLine edges := edgesLine_no_mem (by decide) rfl edges
  obtain ⟨st',hread',-,hsame',-⟩ := readLines_header hedges st (edges.flatMap edgeLine)
  obtain rfl := hsame' (edgesLine_commented edges)
  refine ⟨st'.2,?_,?_⟩
  · rw [readTextGraph,htext,hread,hread',readLines_edges hs]
  · constructor
    · intro hnil
      by_contra hc
      have hlt := hmore hc
      rw [hnil] at hlt
      exact Nat.lt_irrefl _ hlt
    · intro hc
      rw [hsame hc]

theorem length_convertedFrom (inputPaths : List Path) :
    (convertedFrom inputPaths).length =
      17 + (inputPaths.map (fun path => path.1.length + 1)).sum := by
  have hprefix : "# Converted from:".toList.length = 17 := by decide
  have hpaths : (inputPaths.flatMap (fun path => ' ' :: path.1)).length =
      (inputPaths.map (fun path => path.1.length + 1)).sum := List.length_flatMap
  exact List.length_append.trans (congrArg₂ (· + ·) hprefix hpaths)

/-- The first line is one piece as long as the paths are short together. -/
theorem convertedFrom_commented {inputPaths : List Path}
    (hlen : (inputPaths.map (fun path => path.1.length + 1)).sum ≤ 181) :
    Commented (convertedFrom inputPaths) := by
  have hline : (convertedFrom inputPaths).length < lineLength := by
    rw [length_convertedFrom]
    exact Nat.lt_of_le_of_lt (Nat.add_le_add_left hlen 17) (by decide)
  rw [commented_short hline]
  rfl

section
variable {files : Path → Option (List Char)} {inputPaths : List Path}
  {binaryOutputPath textOutputPath : Path}

theorem convert_eq {edges : List (Nat × Nat)} (hread : readInputs files inputPaths = some edges)
    (hbinary : binaryOutputPath.1.length ≠ 0) (htext : textOutputPath.1.length ≠ 0) :
    convert files inputPaths binaryOutputPath textOutputPath = some {
      info := some (cString (outputStr inputPaths edges))
      binary := some (writeBinaryGraph edges)
      text := some (writeTextGraph edges (outputStr inputPaths edges)) } := by
  simp only [convert,hread,if_pos hbinary,if_pos htext]

/-- The binary graph has the edges of the inputs, and the text has them exactly when every piece
of its first line begins with the mark of a comment. -/
theorem convert_preserves_iff {text : Path → List Char} (a : ∀ path, Adjacency (text path))
    (hfiles : ∀ path ∈ inputPaths, files path = some (text path))
    (hbreak : ∀ path ∈ inputPaths, '\n' ∉ path.1)
    (hbinary : binaryOutputPath.1.length ≠ 0) (htext : textOutputPath.1.length ≠ 0) :
    ∃ out binary graph, convert files inputPaths binaryOutputPath textOutputPath = some out ∧
      out.binary = some binary ∧ out.text = some graph ∧
      readBinaryGraph binary = inputPaths.flatMap (fun path => (a path).edges) ∧
      ((∀ garbage, readTextGraph garbage graph =
          inputPaths.flatMap (fun path => (a path).edges)) ∧
        readBinaryGraph binary = inputPaths.flatMap (fun path => (a path).edges) ↔
        Commented (convertedFrom inputPaths)) := by
  have hs : Small (inputPaths.flatMap (fun path => (a path).edges)) := by
    intro e he
    obtain ⟨path,-,he⟩ := List.mem_flatMap.mp he
    exact (a path).edges_small e he
  refine ⟨_,_,_,convert_eq (readInputs_eq hfiles a) hbinary htext,rfl,rfl,
    readBinaryGraph_write hs,?_,?_⟩
  · rintro ⟨hall,-⟩
    obtain ⟨extra,hread,hiff⟩ := readTextGraph_outputStr hbreak hs (0,0)
    rw [hall (0,0)] at hread
    exact hiff.mp (List.append_left_eq_self.mp hread.symm)
  · intro hc
    refine ⟨fun garbage => ?_,readBinaryGraph_write hs⟩
    obtain ⟨extra,hread,hiff⟩ := readTextGraph_outputStr hbreak hs garbage
    rw [hread,hiff.mpr hc,List.nil_append]

end

/-- One vertex with one neighbour. -/
def oneRecord : List Char := ['0',' ','1',' ','1']

def oneAdjacency : Adjacency oneRecord where
  vertices := [(0,[1])]
  spells := by
    have hend : Spells [] [] := Spells.blank (by simp)
    have hdst : Spells [1] [' ','1'] :=
      @Spells.number [' '] ['1'] [] [] (by simp [isSpace]) (by simp) (by simp) (by simp) hend
    have hdegree : Spells [1,1] [' ','1',' ','1'] :=
      @Spells.number [' '] ['1'] [' ','1'] [1] (by simp [isSpace]) (by simp) (by simp)
        (by simp [isSpace]) hdst
    exact @Spells.number [] ['0'] [' ','1',' ','1'] [1,1] (by simp) (by simp) (by simp)
      (by simp [isSpace]) hdegree
  small := by decide

/-- The path of `n` letters. -/
def letters (n : Nat) : Path := ⟨List.replicate n 'a',fun h => by cases List.eq_of_mem_replicate h⟩

theorem convert_preserves_short :
    ∃ out binary graph,
      convert (fun _ => some oneRecord) [letters 3] (letters 1) (letters 2) = some out ∧
      out.binary = some binary ∧ out.text = some graph ∧
      readBinaryGraph binary = [(0,1)] ∧ ∀ garbage, readTextGraph garbage graph = [(0,1)] := by
  have hcall : ∃ out binary graph,
      convert (fun _ => some oneRecord) [letters 3] (letters 1) (letters 2) = some out ∧
      out.binary = some binary ∧ out.text = some graph ∧
      readBinaryGraph binary = [(0,1)] ∧
      ((∀ garbage, readTextGraph garbage graph = [(0,1)]) ∧ readBinaryGraph binary = [(0,1)] ↔
        Commented (convertedFrom [letters 3])) :=
    convert_preserves_iff (fun _ => oneAdjacency) (fun _ _ => rfl) (by decide) (by decide) (by decide)
  obtain ⟨out,binary,graph,hconvert,hbinary,htext,hread,hiff⟩ := hcall
  have hread_text := (hiff.mpr (convertedFrom_commented (by decide))).1
  exact ⟨out,binary,graph,hconvert,hbinary,htext,hread,hread_text⟩

/-- A path of 181 letters fills the buffer, and the newline behind it is read as an edge. -/
theorem convert_extra_edge :
    ∃ out graph, convert (fun _ => some oneRecord) [letters 181] (letters 1) (letters 2) = some out ∧
      out.text = some graph ∧ readTextGraph (0,0) graph ≠ oneAdjacency.edges := by
  have hbreak : ∀ path ∈ [letters 181], '\n' ∉ path.1 := by
    intro path hpath h
    rw [List.mem_singleton.mp hpath] at h
    cases List.eq_of_mem_replicate h
  have hread : readInputs (fun _ => some oneRecord) [letters 181] = some oneAdjacency.edges := rfl
  refine ⟨_,_,convert_eq hread (by decide) (by decide),rfl,?_⟩
  obtain ⟨extra,htext,hiff⟩ := readTextGraph_outputStr hbreak oneAdjacency.edges_small (0,0)
  intro hsame
  rw [hsame] at htext
  have hlen : (convertedFrom [letters 181]).length = lineLength * 1 := by
    rw [length_convertedFrom,List.map_singleton,List.sum_singleton,letters,List.length_replicate]
    rfl
  have hmark := hiff.mp (List.self_eq_append_left.mp htext) 1 (by
    rw [hlen]
    exact Nat.lt_succ_self _)
  rw [← hlen,List.getElem?_concat_length] at hmark
  cases hmark

end FlashMob.Tools
