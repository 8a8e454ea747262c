import FlashMob.Lib.Stdio
import FlashMob.Types

namespace FlashMob.Tools
open Lib.Stdio

/-- A path has no null character. -/
def Path : Type := {s : List Char // '\x00' ∉ s}

/-- The buffer of `read_text_graph` has room for 199 characters and the null. -/
def lineLength : Nat := 199

/-- `sscanf` of two numbers; what is not scanned keeps its old value. -/
def scanEdge (old : Nat × Nat) (line : List Char) : Nat × Nat :=
  match scanUnsigned (cString line) with
  | none => old
  | some (a,rest) =>
    match scanUnsigned rest with
    | none => (a,old.2)
    | some (b,_) => (a,b)

/-- The body of the reading loop: the variables `a` and `b`, and the edges read so far. -/
def readLine (st : (Nat × Nat) × List (Nat × Nat)) (line : List Char) :
    (Nat × Nat) × List (Nat × Nat) :=
  if line.head? = some '#' then st
  else (scanEdge st.1 line,st.2 ++ [scanEdge st.1 line])

def readLines (st : (Nat × Nat) × List (Nat × Nat)) (file : List Char) :
    (Nat × Nat) × List (Nat × Nat) :=
  (lines lineLength file).foldl readLine st

/-- `read_text_graph`; a file has one `Char` for each byte, and `garbage` is what is in the
uninitialised `a` and `b`. -/
def readTextGraph (garbage : Nat × Nat) (file : List Char) : List (Nat × Nat) :=
  (readLines (garbage,[]) file).2

def edgeLine (e : Nat × Nat) : List Char :=
  printUnsigned e.1 ++ ' ' :: (printUnsigned e.2 ++ ['\n'])

/-- `write_text_graph`, with the header that the stream holds. -/
def writeTextGraph (edges : List (Nat × Nat)) (header : List Char) : List Char :=
  cString header ++ edges.flatMap edgeLine

/-- A 32-bit number in memory, the lowest byte first. -/
def wordBytes (n : Nat) : List UInt8 :=
  [UInt8.ofNat n,UInt8.ofNat (n / 256),UInt8.ofNat (n / 256 ^ 2),UInt8.ofNat (n / 256 ^ 3)]

def wordAt (bytes : List UInt8) : Nat :=
  (bytes.take 4).foldr (fun b n => b.toNat + 256 * n) 0

def sizeofEdge : Nat := 8

/-- `write_binary_graph`: the array of edges as it is in memory. -/
def writeBinaryGraph (edges : List (Nat × Nat)) : List UInt8 :=
  edges.flatMap (fun e => wordBytes e.1 ++ wordBytes e.2)

def readEdges : Nat → List UInt8 → List (Nat × Nat)
  | 0, _ => []
  | n+1, file => (wordAt file,wordAt (file.drop 4)) :: readEdges n (file.drop sizeofEdge)

/-- `read_binary_graph`: as many edges as fit the size of the file. -/
def readBinaryGraph (file : List UInt8) : List (Nat × Nat) :=
  readEdges (file.length / sizeofEdge) file

/-- The ends of the edges are values of `vertex_id_t`. -/
def Small (edges : List (Nat × Nat)) : Prop := ∀ e ∈ edges, e.1 < 2 ^ 32 ∧ e.2 < 2 ^ 32

theorem wordAt_wordBytes {n : Nat} (hn : n < 2 ^ 32) (rest : List UInt8) :
    wordAt (wordBytes n ++ rest) = n := by
  simp only [wordAt,wordBytes,List.cons_append,List.nil_append,List.take_succ_cons,List.take_zero,
    List.foldr_cons,List.foldr_nil,UInt8.toNat_ofNat']
  omega

theorem length_writeBinaryGraph (edges : List (Nat × Nat)) :
    (writeBinaryGraph edges).length = edges.length * sizeofEdge := by
  induction edges with
  | nil => rfl
  | cons e edges ih =>
    rw [writeBinaryGraph,List.flatMap_cons,List.length_append,← writeBinaryGraph,ih,
      List.length_cons,Nat.add_mul,Nat.add_comm]
    rfl

/-- What is written in binary is read back. -/
theorem readBinaryGraph_write {edges : List (Nat × Nat)} (hs : Small edges) :
    readBinaryGraph (writeBinaryGraph edges) = edges := by
  rw [readBinaryGraph,length_writeBinaryGraph,Nat.mul_div_cancel _ (by decide)]
  induction edges with
  | nil => rfl
  | cons e edges ih =>
    obtain ⟨h1,h2⟩ := hs e List.mem_cons_self
    have hfile : writeBinaryGraph (e :: edges) =
        wordBytes e.1 ++ (wordBytes e.2 ++ writeBinaryGraph edges) := by
      rw [writeBinaryGraph,List.flatMap_cons,List.append_assoc]
      rfl
    rw [List.length_cons,readEdges,hfile,wordAt_wordBytes h1]
    change (e.1,wordAt (wordBytes e.2 ++ writeBinaryGraph edges)) ::
      readEdges edges.length (writeBinaryGraph edges) = _
    rw [wordAt_wordBytes h2,ih (fun e he => hs e (List.mem_cons_of_mem _ he))]

section
variable {st : (Nat × Nat) × List (Nat × Nat)} {l rest : List Char}

theorem readLines_eq (h : l ≠ []) :
    readLines st l = readLines (readLine st (fgets lineLength l).1) (fgets lineLength l).2 := by
  have hlines : lines lineLength l =
      (fgets lineLength l).1 :: lines lineLength (fgets lineLength l).2 := lines_eq 198 h
  rw [readLines,hlines]
  rfl

theorem readLines_line (st : (Nat × Nat) × List (Nat × Nat)) (rest : List Char) (hl : '\n' ∉ l)
    (hlen : l.length < lineLength) :
    readLines st (l ++ '\n' :: rest) = readLines (readLine st (l ++ ['\n'])) rest := by
  rw [readLines_eq (by simp),fgets_line hl hlen]

theorem readLines_full (st : (Nat × Nat) × List (Nat × Nat)) (rest : List Char) (hl : '\n' ∉ l)
    (hlen : l.length = lineLength) :
    readLines st (l ++ rest) = readLines (readLine st l) rest := by
  have hne : l ++ rest ≠ [] := by
    intro h
    rw [(List.append_eq_nil_iff.mp h).1] at hlen
    cases hlen
  rw [readLines_eq hne,← hlen,fgets_full hl]

theorem readLine_comment (h : l.head? = some '#') : readLine st l = st := if_pos h

theorem readLine_data (h : l.head? ≠ some '#') :
    readLine st l = (scanEdge st.1 l,st.2 ++ [scanEdge st.1 l]) := if_neg h

end

theorem printed_isDigit {n : Nat} {c : Char} (hc : c ∈ printUnsigned n) : c.isDigit = true :=
  Nat.isDigit_of_mem_toDigits (by decide) (by decide) hc

theorem printed_length {n : Nat} (hn : n < 2 ^ 32) : (printUnsigned n).length ≤ 10 :=
  (Nat.length_toDigits_le_iff (by decide) (by decide)).mpr (Nat.lt_trans hn (by decide))

/-- A written edge is scanned, whatever `a` and `b` were. -/
theorem scanEdge_edgeLine {e : Nat × Nat} (h1 : e.1 < 2 ^ 32) (h2 : e.2 < 2 ^ 32)
    (old : Nat × Nat) : scanEdge old (edgeLine e) = e := by
  have hnull : cString (edgeLine e) = edgeLine e := by
    apply cString_eq
    intro h
    simp only [edgeLine,List.mem_append,List.mem_cons,List.not_mem_nil,or_false] at h
    rcases h with h | h | h | h
    · exact absurd (printed_isDigit h) (by decide)
    · exact absurd h (by decide)
    · exact absurd (printed_isDigit h) (by decide)
    · exact absurd h (by decide)
  have hfirst : scanUnsigned (edgeLine e) = some (e.1,' ' :: (printUnsigned e.2 ++ ['\n'])) :=
    scanUnsigned_print (s := []) (fun c hc => (nomatch hc)) h1 (fun c hc => by
      obtain rfl := Option.some.inj hc
      rfl)
  have hsecond : scanUnsigned (' ' :: (printUnsigned e.2 ++ ['\n'])) = some (e.2,['\n']) :=
    scanUnsigned_print (s := [' ']) (fun c hc => by rw [List.mem_singleton.mp hc]; rfl) h2
      (fun c hc => by
        obtain rfl := Option.some.inj hc
        rfl)
  rw [scanEdge,hnull,hfirst]
  simp only [hsecond]

theorem readLines_edge {e : Nat × Nat} (h1 : e.1 < 2 ^ 32) (h2 : e.2 < 2 ^ 32)
    (st : (Nat × Nat) × List (Nat × Nat)) (rest : List Char) :
    readLines st (edgeLine e ++ rest) = readLines (e,st.2 ++ [e]) rest := by
  have hlen1 := printed_length h1
  have hlen2 := printed_length h2
  have hline : edgeLine e = printUnsigned e.1 ++ ' ' :: printUnsigned e.2 ++ ['\n'] := by
    simp [edgeLine]
  have hbreak : '\n' ∉ printUnsigned e.1 ++ ' ' :: printUnsigned e.2 := by
    intro h
    simp only [List.mem_append,List.mem_cons] at h
    rcases h with h | h | h
    · exact absurd (printed_isDigit h) (by decide)
    · exact absurd h (by decide)
    · exact absurd (printed_isDigit h) (by decide)
  have hdata : (edgeLine e).head? ≠ some '#' := by
    intro h
    have hne : printUnsigned e.1 ≠ [] := Nat.toDigits_ne_nil
    obtain ⟨d,ds,hd⟩ := List.exists_cons_of_ne_nil hne
    rw [edgeLine,hd,List.cons_append,List.head?_cons,Option.some.injEq] at h
    have hdigit := printed_isDigit (n := e.1) (c := d) (by rw [hd]; exact List.mem_cons_self)
    rw [h] at hdigit
    cases hdigit
  have hread := readLines_line st rest hbreak (by
    rw [List.length_append,List.length_cons,lineLength]
    omega)
  rw [← hline,readLine_data hdata,scanEdge_edgeLine h1 h2] at hread
  rw [← hread,hline,List.append_assoc]
  rfl

/-- The lines of the edges are read back behind what was read before. -/
theorem readLines_edges {edges : List (Nat × Nat)} (hs : Small edges)
    (st : (Nat × Nat) × List (Nat × Nat)) :
    (readLines st (edges.flatMap edgeLine)).2 = st.2 ++ edges := by
  induction edges generalizing st with
  | nil => simp [readLines,lines,fgetsLoop]
  | cons e edges ih =>
    obtain ⟨h1,h2⟩ := hs e List.mem_cons_self
    rw [List.flatMap_cons,readLines_edge h1 h2,ih (fun e he => hs e (List.mem_cons_of_mem _ he)),
      List.append_assoc]
    rfl

/-- Every piece of the line that the buffer takes at a time begins like a comment. -/
def Commented (l : List Char) : Prop :=
  ∀ k, lineLength * k < l.length + 1 → (l ++ ['\n'])[lineLength * k]? = some '#'

theorem commented_short {l : List Char} (hlen : l.length < lineLength) :
    Commented l ↔ (l ++ ['\n']).head? = some '#' := by
  rw [List.head?_eq_getElem?]
  constructor
  · intro h
    exact h 0 (Nat.succ_pos _)
  · intro h k hk
    have hk0 : k = 0 := by
      rw [lineLength] at hk hlen
      omega
    rwa [hk0,Nat.mul_zero]

theorem commented_long {p l : List Char} (hlen : p.length = lineLength) :
    Commented (p ++ l) ↔ p.head? = some '#' ∧ Commented l := by
  have hpos : 0 < lineLength := by decide
  have hfirst : (p ++ l ++ ['\n'])[0]? = p.head? := by
    rw [List.head?_eq_getElem?,List.append_assoc,List.getElem?_append_left (by omega)]
  have hnext : ∀ k, (p ++ l ++ ['\n'])[lineLength * (k+1)]? = (l ++ ['\n'])[lineLength * k]? := by
    intro k
    rw [List.append_assoc,List.getElem?_append_right (by rw [Nat.mul_add]; omega),hlen,
      Nat.mul_add,Nat.mul_one,Nat.add_sub_cancel]
  have hlength : (p ++ l).length = lineLength + l.length := by rw [List.length_append,hlen]
  constructor
  · intro h
    refine ⟨hfirst ▸ h 0 (Nat.succ_pos _),fun k hk => ?_⟩
    rw [← hnext]
    exact h (k+1) (by rw [hlength,Nat.mul_add]; omega)
  · rintro ⟨h0,h⟩ k hk
    cases k with
    | zero => exact hfirst.trans h0
    | succ k =>
      rw [hnext]
      exact h k (by rw [hlength,Nat.mul_add] at hk; omega)

/-- What a line of a header does to the reader: it is passed over when it is commented
throughout, and else read as at least one edge. -/
theorem readLines_header {l : List Char} (hl : '\n' ∉ l) (st : (Nat × Nat) × List (Nat × Nat))
    (rest : List Char) :
    ∃ st', readLines st (l ++ '\n' :: rest) = readLines st' rest ∧
      st.2.length ≤ st'.2.length ∧ (Commented l → st' = st) ∧
      (¬Commented l → st.2.length < st'.2.length) := by
  have hpiece : ∀ (st : (Nat × Nat) × List (Nat × Nat)) (line : List Char),
      st.2.length ≤ (readLine st line).2.length ∧
      (line.head? ≠ some '#' → st.2.length < (readLine st line).2.length) := by
    intro st line
    by_cases h : line.head? = some '#'
    · rw [readLine_comment h]
      exact ⟨Nat.le_refl _,fun hne => absurd h hne⟩
    · rw [readLine_data h]
      simp
  induction hn : l.length using Nat.strong_induction_on generalizing l st with
  | _ n ih =>
    rcases Nat.lt_or_ge l.length lineLength with hshort | hlong
    · rw [commented_short hshort]
      exact ⟨_,readLines_line st rest hl hshort,(hpiece st _).1,readLine_comment,(hpiece st _).2⟩
    · have hlen : (l.take lineLength).length = lineLength := List.length_take_of_le hlong
      have hsplit : l = l.take lineLength ++ l.drop lineLength := (List.take_append_drop _ _).symm
      have hread := readLines_full st (l.drop lineLength ++ '\n' :: rest)
        (fun h => hl (List.mem_of_mem_take h)) hlen
      obtain ⟨hle,hlt⟩ := hpiece st (l.take lineLength)
      have hpos : 0 < lineLength := by decide
      obtain ⟨st',hst',hle',hsame,hmore⟩ := ih (l.drop lineLength).length
        (by rw [List.length_drop]; omega) (fun h => hl (List.mem_of_mem_drop h))
        (readLine st (l.take lineLength)) rfl
      rw [← List.append_assoc,← hsplit] at hread
      have hiff := commented_long (l := l.drop lineLength) hlen
      rw [← hsplit] at hiff
      refine ⟨st',hread.trans hst',Nat.le_trans hle hle',?_,?_⟩
      · intro h
        obtain ⟨hhead,hrest⟩ := hiff.mp h
        rw [hsame hrest,readLine_comment hhead]
      · intro h
        by_cases hhead : (l.take lineLength).head? = some '#'
        · exact Nat.lt_of_le_of_lt hle (hmore (fun hrest => h (hiff.mpr ⟨hhead,hrest⟩)))
        · exact Nat.lt_of_lt_of_le (hlt hhead) hle'

end FlashMob.Tools
