import FlashMob.Graph.Load
import FlashMob.Tools.Io

namespace FlashMob.Tools
open FlashMob.Graph Lib.Stdio

/-- The edge that a line describes: two decimal numbers of 32 bits at its beginning. -/
def lineEdge (l : List Char) : Option (Nat × Nat) :=
  (scanDecimal l).bind (fun (a,rest) => (scanDecimal rest).map (fun (b,_) => (a,b)))

/-- The edges that a text describes, in the order of its lines. -/
def textEdges (file : List Char) : List (Nat × Nat) := (textLines file).filterMap lineEdge

section
variable {raw l : List Char} {e : Nat × Nat}

theorem digits_not_null {ds : List Char} (h : ∀ c ∈ ds, c.isDigit = true) : '\x00' ∉ ds :=
  fun hc => absurd (h _ hc) (by decide)

theorem blanks_not_null {s : List Char} (h : ∀ c ∈ s, isSpace c = true) : '\x00' ∉ s :=
  fun hc => absurd (h _ hc) (by decide)

/-- What a line describes is scanned, whatever `a` and `b` were and whether or not the line ends
in a newline. -/
theorem scanEdge_line (h : lineEdge l = some e) (hraw : raw = l ∨ raw = l ++ ['\n'])
    (old : Nat × Nat) : scanEdge old raw = e := by
  obtain ⟨⟨a,rest⟩,hfirst,hsecond⟩ := Option.bind_eq_some_iff.mp h
  obtain ⟨⟨b,last⟩,hscan,rfl⟩ := Option.map_eq_some_iff.mp hsecond
  obtain ⟨s,ds,rfl,hs,hne,hds,hrest,rfl,hsmall⟩ := scanDecimal_spec hfirst
  obtain ⟨s',ds',rfl,hs',hne',hds',hlast,rfl,hsmall'⟩ := scanDecimal_spec hscan
  obtain ⟨tail,rfl,htail⟩ : ∃ tail, raw = s ++ (ds ++ (s' ++ (ds' ++ last))) ++ tail ∧
      ∀ c ∈ (last ++ tail).head?, c.isDigit = false := by
    rcases hraw with rfl | rfl
    · exact ⟨[],(List.append_nil _).symm,by rwa [List.append_nil]⟩
    · refine ⟨['\n'],rfl,fun c hc => ?_⟩
      cases last with
      | nil =>
        obtain rfl := Option.some.inj hc
        rfl
      | cons d last => exact hlast c hc
  -- The string may end before the line does, but behind both numbers.
  have hstring : cString (s ++ (ds ++ (s' ++ (ds' ++ last))) ++ tail) =
      s ++ (ds ++ (s' ++ (ds' ++ cString (last ++ tail)))) := by
    simp only [List.append_assoc]
    rw [cString_append (blanks_not_null hs),cString_append (digits_not_null hds),
      cString_append (blanks_not_null hs'),cString_append (digits_not_null hds')]
  have hbetween : ∀ c ∈ (s' ++ (ds' ++ cString (last ++ tail))).head?, c.isDigit = false := by
    intro c hc
    cases s' with
    | nil =>
      obtain ⟨d,ds',rfl⟩ := List.exists_cons_of_ne_nil hne'
      exact hrest c hc
    | cons d s' =>
      obtain rfl := Option.some.inj hc
      exact not_digit_of_space (hs' _ List.mem_cons_self)
  rw [scanEdge,hstring,scanUnsigned_digits hs hne hds hbetween hsmall]
  dsimp only
  rw [scanUnsigned_digits hs' hne' hds' (fun c hc => htail c (cString_head hc)) hsmall']

theorem lineEdge_not_comment (h : lineEdge l = some e) : l.head? ≠ some '#' := by
  intro hcomment
  obtain ⟨rest,rfl⟩ := List.head?_eq_some_iff.mp hcomment
  cases h

/-- What one line does to the reader. -/
theorem readLine_line (hraw : raw = l ∨ raw = l ++ ['\n'])
    (st : (Nat × Nat) × List (Nat × Nat)) :
    (l.head? = some '#' → readLine st raw = st) ∧
    (∀ e, lineEdge l = some e → readLine st raw = (e,st.2 ++ [e])) ∧
    (l.head? ≠ some '#' → ∃ e, readLine st raw = (e,st.2 ++ [e])) := by
  have hcomment : raw.head? = some '#' ↔ l.head? = some '#' := by
    rcases hraw with rfl | rfl
    · exact Iff.rfl
    · cases l with
      | nil => exact iff_of_false (by decide) (by decide)
      | cons c l => exact Iff.rfl
  refine ⟨fun h => readLine_comment (hcomment.mpr h),fun e he => ?_,
    fun h => ⟨_,readLine_data (fun hc => h (hcomment.mp hc))⟩⟩
  rw [readLine_data (fun hc => lineEdge_not_comment he (hcomment.mp hc)),scanEdge_line he hraw]

end

section
variable {raws ls : List (List Char)}

/-- Every line that is not a comment adds an edge, also one without numbers. -/
theorem foldl_readLine_length
    (h : List.Forall₂ (fun raw l => raw = l ∨ raw = l ++ ['\n']) raws ls)
    (st : (Nat × Nat) × List (Nat × Nat)) :
    (raws.foldl readLine st).2.length =
      st.2.length + ls.countP (fun l => decide (l.head? ≠ some '#')) := by
  induction h generalizing st with
  | nil => rfl
  | @cons raw l raws ls hraw h ih =>
    obtain ⟨hskip,_,hpush⟩ := readLine_line hraw st
    rw [List.foldl_cons,ih]
    by_cases hcomment : l.head? = some '#'
    · rw [hskip hcomment,List.countP_cons_of_neg (by simpa using hcomment)]
    · obtain ⟨e,he⟩ := hpush hcomment
      rw [he,List.countP_cons_of_pos (by simpa using hcomment),List.length_append]
      simp only [List.length_singleton]
      omega

theorem foldl_readLine_described
    (h : List.Forall₂ (fun raw l => raw = l ∨ raw = l ++ ['\n']) raws ls)
    (hdata : ∀ l ∈ ls, l.head? = some '#' ∨ (lineEdge l).isSome)
    (st : (Nat × Nat) × List (Nat × Nat)) :
    (raws.foldl readLine st).2 = st.2 ++ ls.filterMap lineEdge := by
  induction h generalizing st with
  | nil => simp
  | @cons raw l raws ls hraw h ih =>
    obtain ⟨hskip,hread,_⟩ := readLine_line hraw st
    rw [List.foldl_cons,ih (fun l hl => hdata l (List.mem_cons_of_mem _ hl))]
    rcases hdata l List.mem_cons_self with hcomment | hsome
    · have hnone : lineEdge l = none :=
        Option.eq_none_iff_forall_ne_some.mpr (fun e he => lineEdge_not_comment he hcomment)
      rw [hskip hcomment,List.filterMap_cons_none hnone]
    · obtain ⟨e,he⟩ := Option.isSome_iff_exists.mp hsome
      rw [hread e he,List.filterMap_cons_some he,List.append_assoc]
      rfl

theorem described_of_length
    (h : (ls.filterMap lineEdge).length = ls.countP (fun l => decide (l.head? ≠ some '#'))) :
    ∀ l ∈ ls, l.head? = some '#' ∨ (lineEdge l).isSome := by
  rw [List.length_filterMap_eq_countP] at h
  intro l hl
  by_contra hnot
  obtain ⟨hcomment,hnone⟩ := not_or.mp hnot
  have hle : ∀ ls : List (List Char), ls.countP (fun l => (lineEdge l).isSome) ≤
      ls.countP (fun l => decide (l.head? ≠ some '#')) := by
    intro ls
    refine List.countP_mono_left (fun l _ hsome => ?_)
    obtain ⟨e,he⟩ := Option.isSome_iff_exists.mp hsome
    exact decide_eq_true (lineEdge_not_comment he)
  obtain ⟨before,after,rfl⟩ := List.append_of_mem hl
  rw [List.countP_append,List.countP_append,
    List.countP_cons_of_neg (p := fun l => (lineEdge l).isSome) hnone,
    List.countP_cons_of_pos (p := fun l : List Char => decide (l.head? ≠ some '#'))
      (decide_eq_true hcomment)] at h
  have hbefore := hle before
  have hafter := hle after
  omega

end

/-- The text is read exactly when each of its lines is a comment or describes an edge: the result
of the scan is not looked at. -/
theorem text_read_exactly_iff {file : List Char} (garbage : Nat × Nat)
    (hshort : ∀ l ∈ textLines file, l.length < lineLength) :
    readTextGraph garbage file = textEdges file ↔
      ∀ l ∈ textLines file, l.head? = some '#' ∨ (lineEdge l).isSome := by
  have hlines : List.Forall₂ (fun raw l => raw = l ∨ raw = l ++ ['\n']) (lines lineLength file)
      (textLines file) :=
    lines_textLines (n := 198) (fun l hl => Nat.le_of_lt_succ (hshort l hl))
  constructor
  · intro h
    have hlength := foldl_readLine_length hlines (garbage,[])
    rw [← readLines] at hlength
    rw [readTextGraph] at h
    rw [h,textEdges,List.length_nil,Nat.zero_add] at hlength
    exact described_of_length hlength
  · intro h
    exact foldl_readLine_described hlines h (garbage,[])

theorem text_read_exactly_two_edges :
    let file := "# a comment\n0 1\n2 3".toList
    readTextGraph (7,7) file = textEdges file ↔
      ∀ l ∈ textLines file, l.head? = some '#' ∨ (lineEdge l).isSome :=
  text_read_exactly_iff (7,7) (by decide)

/-- A blank line repeats the edge of the line before it. -/
theorem text_not_read_exactly :
    let file := "0 1\n\n2 3\n".toList
    textLines file = ["0 1".toList,[],"2 3".toList] ∧ textEdges file = [(0,1),(2,3)] ∧
      ∀ garbage, readTextGraph garbage file = [(0,1),(0,1),(2,3)] :=
  ⟨by decide,by decide,fun _ => rfl⟩

inductive GraphFormat where
  | binaryGraphFormat
  | textGraphFormat
  deriving DecidableEq, Repr

def textBytes (text : List Char) : List UInt8 := text.map (fun c => UInt8.ofNat c.toNat)

def byteText (file : List UInt8) : List Char := file.map (fun b => Char.ofNat b.toNat)

/-- The `raw_edges` that `Graph::load` reads. -/
def readGraph (garbage : Nat × Nat) : GraphFormat → List UInt8 → List (Nat × Nat)
  | .binaryGraphFormat, file => readBinaryGraph file
  | .textGraphFormat, file => readTextGraph garbage (byteText file)

/-- `Graph::load` from a file. -/
def loadFile (garbage : Nat × Nat) (graphFormat : GraphFormat) (file : List UInt8)
    (asUndirected : Bool) : Option Loaded :=
  load (readGraph garbage graphFormat file) asUndirected

theorem byteText_textBytes {text : List Char} (h : ∀ c ∈ text, c.toNat < 256) :
    byteText (textBytes text) = text := by
  rw [byteText,textBytes,List.map_map]
  refine (List.map_congr_left (fun c hc => ?_)).trans (List.map_id text)
  have hbyte : (UInt8.ofNat c.toNat).toNat = c.toNat := by
    rw [UInt8.toNat_ofNat']
    exact Nat.mod_eq_of_lt (h c hc)
  rw [Function.comp_apply,hbyte,Char.ofNat_toNat,id_eq]

theorem edgeLine_bytes {e : Nat × Nat} {c : Char} (hc : c ∈ edgeLine e) : c.toNat < 256 := by
  have hdigit : ∀ {n}, c ∈ printUnsigned n → c.toNat < 256 := by
    intro n h
    have hrange := Char.isDigit_iff_toNat.mp (printed_isDigit h)
    have hnine : '9'.toNat = 57 := rfl
    omega
  simp only [edgeLine,List.mem_append,List.mem_cons,List.not_mem_nil,or_false] at hc
  rcases hc with h | rfl | h | rfl
  · exact hdigit h
  · decide
  · exact hdigit h
  · decide

theorem readTextGraph_write {edges : List (Nat × Nat)} (hs : Small edges) (garbage : Nat × Nat) :
    readTextGraph garbage (writeTextGraph edges []) = edges :=
  readLines_edges hs (garbage,[])

/-- Both formats give back the edges that were written, so `load` sees the same raw edges. -/
theorem formats_carry_edges {edges : List (Nat × Nat)} (hs : Small edges) (garbage : Nat × Nat)
    (asUndirected : Bool) :
    readTextGraph garbage (writeTextGraph edges []) = edges ∧
    readBinaryGraph (writeBinaryGraph edges) = edges ∧
    readGraph garbage .textGraphFormat (textBytes (writeTextGraph edges [])) =
      readGraph garbage .binaryGraphFormat (writeBinaryGraph edges) ∧
    loadFile garbage .textGraphFormat (textBytes (writeTextGraph edges [])) asUndirected =
      loadFile garbage .binaryGraphFormat (writeBinaryGraph edges) asUndirected := by
  have htext := readTextGraph_write hs garbage
  have hbinary := readBinaryGraph_write hs
  have hbytes : ∀ c ∈ writeTextGraph edges [], c.toNat < 256 := by
    intro c hc
    obtain ⟨e,_,he⟩ := List.mem_flatMap.mp hc
    exact edgeLine_bytes he
  have hsame : readGraph garbage .textGraphFormat (textBytes (writeTextGraph edges [])) =
      readGraph garbage .binaryGraphFormat (writeBinaryGraph edges) := by
    simp only [readGraph]
    rw [byteText_textBytes hbytes,htext,hbinary]
  exact ⟨htext,hbinary,hsame,by rw [loadFile,loadFile,hsame]⟩

theorem formats_carry_edges_three :
    let edges := [(0,2 ^ 32 - 1),(7,10),(0,2 ^ 32 - 1)]
    readTextGraph (5,5) (writeTextGraph edges []) = edges ∧
    readBinaryGraph (writeBinaryGraph edges) = edges ∧
    readGraph (5,5) .textGraphFormat (textBytes (writeTextGraph edges [])) =
      readGraph (5,5) .binaryGraphFormat (writeBinaryGraph edges) ∧
    loadFile (5,5) .textGraphFormat (textBytes (writeTextGraph edges [])) true =
      loadFile (5,5) .binaryGraphFormat (writeBinaryGraph edges) true :=
  formats_carry_edges (by intro e he; fin_cases he <;> decide) (5,5) true

end FlashMob.Tools
