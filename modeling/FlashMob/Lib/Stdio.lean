import Mathlib

namespace FlashMob.Lib.Stdio

/-- `isspace` in the C locale. -/
def isSpace (c : Char) : Bool := c == ' ' || (decide (9 ≤ c.toNat) && decide (c.toNat ≤ 13))

/-- `strtoul` for a sign and the value of the digits. -/
def strtoul (negative : Bool) (n : Nat) : Nat :=
  if 2 ^ 64 ≤ n then 2 ^ 64 - 1 else if negative then (2 ^ 64 - n) % 2 ^ 64 else n

def takeSign : List Char → Bool × List Char
  | '-' :: s => (true,s)
  | '+' :: s => (false,s)
  | s => (false,s)

/-- The conversion `%u`: the 32-bit number and what follows it. -/
def scanUnsigned (s : List Char) : Option (Nat × List Char) :=
  let signed := takeSign (s.dropWhile isSpace)
  let digits := signed.2.takeWhile Char.isDigit
  if digits = [] then none
  else some (strtoul signed.1 (Nat.ofDigitChars 10 digits 0) % 2 ^ 32,
    signed.2.dropWhile Char.isDigit)

/-- The extraction of an `int` from a stream, which fails for numbers out of range. -/
def scanInt (s : List Char) : Option (Int × List Char) :=
  let signed := takeSign (s.dropWhile isSpace)
  let digits := signed.2.takeWhile Char.isDigit
  let magnitude : Int := Nat.ofDigitChars 10 digits 0
  let n := if signed.1 then -magnitude else magnitude
  if digits = [] ∨ n < -2 ^ 31 ∨ 2 ^ 31 ≤ n then none
  else some (n,signed.2.dropWhile Char.isDigit)

/-- What `%u` prints. -/
def printUnsigned (n : Nat) : List Char := Nat.toDigits 10 n

/-- A string ends at its first null character. -/
def cString (s : List Char) : List Char := s.takeWhile (fun c => decide (c ≠ '\x00'))

/-- `fgets`: at most `n` characters, up to a newline, and what follows them. -/
def fgets : Nat → List Char → List Char × List Char
  | 0, file => ([],file)
  | _+1, [] => ([],[])
  | n+1, c :: file =>
    if c = '\n' then ([c],file) else (c :: (fgets n file).1,(fgets n file).2)

/-- What a loop of `fgets` reads until the end of the file. -/
def fgetsLoop (n : Nat) : Nat → List Char → List (List Char)
  | 0, _ => []
  | _+1, [] => []
  | fuel+1, c :: file => (fgets n (c :: file)).1 :: fgetsLoop n fuel (fgets n (c :: file)).2

def lines (n : Nat) (file : List Char) : List (List Char) := fgetsLoop n file.length file

/-- The lines of a text without their newlines; the last line may lack it. -/
def textLines : List Char → List (List Char)
  | [] => []
  | c :: file =>
    if c = '\n' then [] :: textLines file
    else match textLines file with
      | [] => [[c]]
      | l :: ls => (c :: l) :: ls

/-- A decimal number of 32 bits without a sign, behind blanks, and what follows it. -/
def scanDecimal (s : List Char) : Option (Nat × List Char) :=
  let text := s.dropWhile isSpace
  let n := Nat.ofDigitChars 10 (text.takeWhile Char.isDigit) 0
  if text.takeWhile Char.isDigit = [] ∨ 2 ^ 32 ≤ n then none
  else some (n,text.dropWhile Char.isDigit)

section
variable {n : Nat} {file l rest : List Char}

theorem fgets_length_le (n : Nat) (file : List Char) : (fgets n file).2.length ≤ file.length := by
  induction n generalizing file with
  | zero => exact Nat.le_refl _
  | succ n ih =>
    cases file with
    | nil => exact Nat.le_refl _
    | cons c file =>
      rw [fgets]
      split_ifs
      · exact Nat.le_succ _
      · exact Nat.le_succ_of_le (ih file)

theorem fgets_length_lt (n : Nat) (c : Char) (file : List Char) :
    (fgets (n+1) (c :: file)).2.length ≤ file.length := by
  rw [fgets]
  split_ifs
  · exact Nat.le_refl _
  · exact fgets_length_le n file

theorem fgetsLoop_fuel (n : Nat) {fuel : Nat} (h : file.length ≤ fuel) :
    fgetsLoop (n+1) fuel file = lines (n+1) file := by
  have hstep : ∀ m (file : List Char), file.length ≤ m → ∀ k, file.length ≤ k →
      fgetsLoop (n+1) m file = fgetsLoop (n+1) k file := by
    intro m
    induction m with
    | zero =>
      intro file hm k _
      rw [List.length_eq_zero_iff.mp (Nat.le_zero.mp hm)]
      cases k <;> rfl
    | succ m ih =>
      intro file hm k hk
      cases file with
      | nil => cases k <;> rfl
      | cons c file =>
        cases k with
        | zero => simp at hk
        | succ k =>
          have hlt := fgets_length_lt n c file
          rw [List.length_cons] at hm hk
          rw [fgetsLoop,fgetsLoop,ih _ (by omega) k (by omega)]
  exact hstep fuel file h file.length (Nat.le_refl _)

theorem lines_eq (n : Nat) (h : file ≠ []) :
    lines (n+1) file = (fgets (n+1) file).1 :: lines (n+1) (fgets (n+1) file).2 := by
  obtain ⟨c,file,rfl⟩ := List.exists_cons_of_ne_nil h
  have hlt := fgets_length_lt n c file
  rw [lines,List.length_cons,fgetsLoop,fgetsLoop_fuel n hlt]

/-- A line that fits the buffer is read with its newline. -/
theorem fgets_line (hl : '\n' ∉ l) (hlen : l.length < n) :
    fgets n (l ++ '\n' :: rest) = (l ++ ['\n'],rest) := by
  induction l generalizing n with
  | nil =>
    cases n with
    | zero => simp at hlen
    | succ n => rfl
  | cons c l ih =>
    cases n with
    | zero => simp at hlen
    | succ n =>
      have hc := (List.ne_of_not_mem_cons hl).symm
      have htail := ih (n := n) (List.not_mem_of_not_mem_cons hl) (by simpa using hlen)
      rw [List.cons_append,fgets,if_neg hc,htail]
      rfl

/-- A longer line fills the buffer. -/
theorem fgets_full (hl : '\n' ∉ l) (rest : List Char) :
    fgets l.length (l ++ rest) = (l,rest) := by
  induction l with
  | nil => rfl
  | cons c l ih =>
    have hc := (List.ne_of_not_mem_cons hl).symm
    rw [List.length_cons,List.cons_append,fgets,if_neg hc,
      ih (List.not_mem_of_not_mem_cons hl)]

theorem fgets_eof (hl : '\n' ∉ l) (hlen : l.length ≤ n) : fgets n l = (l,[]) := by
  induction l generalizing n with
  | nil => cases n <;> rfl
  | cons c l ih =>
    cases n with
    | zero => simp at hlen
    | succ n =>
      have hc := (List.ne_of_not_mem_cons hl).symm
      have htail := ih (n := n) (List.not_mem_of_not_mem_cons hl) (by simpa using hlen)
      rw [fgets,if_neg hc,htail]

theorem textLines_line (hl : '\n' ∉ l) (rest : List Char) :
    textLines (l ++ '\n' :: rest) = l :: textLines rest := by
  induction l with
  | nil => rfl
  | cons c l ih =>
    have hc := (List.ne_of_not_mem_cons hl).symm
    rw [List.cons_append,textLines,if_neg hc,ih (List.not_mem_of_not_mem_cons hl)]

theorem textLines_last (hl : '\n' ∉ l) (hne : l ≠ []) : textLines l = [l] := by
  induction l with
  | nil => exact absurd rfl hne
  | cons c l ih =>
    have hc := (List.ne_of_not_mem_cons hl).symm
    cases l with
    | nil => rw [textLines,if_neg hc,textLines]
    | cons d l =>
      rw [textLines,if_neg hc,ih (List.not_mem_of_not_mem_cons hl) (List.cons_ne_nil _ _)]

theorem first_line (file : List Char) :
    '\n' ∉ file ∨ ∃ l rest, '\n' ∉ l ∧ file = l ++ '\n' :: rest := by
  rcases Decidable.em ('\n' ∈ file) with h | h
  · obtain ⟨l,rest,hfile,hl⟩ := List.eq_append_cons_of_mem h
    exact Or.inr ⟨l,rest,hl,hfile⟩
  · exact Or.inl h

/-- When every line fits the buffer, `fgets` reads the lines of the text. -/
theorem lines_textLines (hshort : ∀ l ∈ textLines file, l.length ≤ n) :
    List.Forall₂ (fun raw l => raw = l ∨ raw = l ++ ['\n']) (lines (n+1) file)
      (textLines file) := by
  induction hm : file.length using Nat.strong_induction_on generalizing file with
  | _ m ih =>
    rcases first_line file with hl | ⟨l,rest,hl,rfl⟩
    · cases file with
      | nil => exact List.Forall₂.nil
      | cons c file =>
        rw [textLines_last hl (List.cons_ne_nil _ _)] at hshort ⊢
        have hlen := hshort _ List.mem_cons_self
        rw [lines_eq n (List.cons_ne_nil _ _),fgets_eof hl (Nat.le_succ_of_le hlen)]
        exact List.Forall₂.cons (Or.inl rfl) List.Forall₂.nil
    · rw [textLines_line hl] at hshort ⊢
      have hlen := hshort _ List.mem_cons_self
      rw [lines_eq n (by simp),fgets_line hl (Nat.lt_succ_of_le hlen)]
      refine List.Forall₂.cons (Or.inr rfl) (ih rest.length ?_ (fun l hl => ?_) rfl)
      · rw [← hm,List.length_append,List.length_cons]
        omega
      · exact hshort l (List.mem_cons_of_mem _ hl)

theorem cString_append (h : '\x00' ∉ l) (rest : List Char) :
    cString (l ++ rest) = l ++ cString rest :=
  List.takeWhile_append_of_pos (fun c hc => by
    simp only [ne_eq,decide_eq_true_eq]
    rintro rfl
    exact h hc)

theorem cString_head {c : Char} (h : c ∈ (cString l).head?) : c ∈ l.head? := by
  cases l with
  | nil => exact h
  | cons d l =>
    rw [cString,List.takeWhile_cons] at h
    split_ifs at h with hd
    · exact h
    · cases h

theorem cString_eq (h : '\x00' ∉ l) : cString l = l :=
  List.takeWhile_eq_self_iff.mpr (fun c hc => by
    simp only [ne_eq,decide_eq_true_eq]
    rintro rfl
    exact h hc)

end

section
variable {s ds rest : List Char}

theorem not_space_of_digit {c : Char} (h : c.isDigit = true) : isSpace c = false := by
  have hc := Char.isDigit_iff_toNat.mp h
  have h0 : '0'.toNat = 48 := rfl
  have hne : c ≠ ' ' := by
    rintro rfl
    simp at hc
  simp only [isSpace,Bool.or_eq_false_iff,Bool.and_eq_false_iff,beq_eq_false_iff_ne,
    decide_eq_false_iff_not]
  exact ⟨hne,Or.inr (by omega)⟩

theorem takeSign_digit {c : Char} (h : c.isDigit = true) (s : List Char) :
    takeSign (c :: s) = (false,c :: s) := by
  unfold takeSign
  split
  · simp_all
  · simp_all
  · rfl

theorem takeWhile_digits {ds rest : List Char} (hds : ∀ c ∈ ds, c.isDigit = true)
    (hrest : ∀ c ∈ rest.head?, c.isDigit = false) :
    (ds ++ rest).takeWhile Char.isDigit = ds ∧ (ds ++ rest).dropWhile Char.isDigit = rest := by
  have htail : rest.takeWhile Char.isDigit = [] ∧ rest.dropWhile Char.isDigit = rest := by
    cases rest with
    | nil => exact ⟨rfl,rfl⟩
    | cons c rest =>
      have hc := hrest c rfl
      exact ⟨List.takeWhile_cons_of_neg (by simp [hc]),List.dropWhile_cons_of_neg (by simp [hc])⟩
  rw [List.takeWhile_append_of_pos hds,List.dropWhile_append_of_pos hds,htail.1,htail.2,
    List.append_nil]
  exact ⟨rfl,rfl⟩

/-- Blanks and then digits are scanned as their number. -/
theorem scanUnsigned_digits (hs : ∀ c ∈ s, isSpace c = true) (hne : ds ≠ [])
    (hds : ∀ c ∈ ds, c.isDigit = true) (hrest : ∀ c ∈ rest.head?, c.isDigit = false)
    (hsmall : Nat.ofDigitChars 10 ds 0 < 2 ^ 32) :
    scanUnsigned (s ++ (ds ++ rest)) = some (Nat.ofDigitChars 10 ds 0,rest) := by
  obtain ⟨d,ds',rfl⟩ := List.exists_cons_of_ne_nil hne
  have hd : d.isDigit = true := hds d List.mem_cons_self
  have hdrop : (s ++ (d :: ds' ++ rest)).dropWhile isSpace = d :: ds' ++ rest := by
    rw [List.dropWhile_append_of_pos hs,List.cons_append,
      List.dropWhile_cons_of_neg (by simp [not_space_of_digit hd])]
  have hsign : takeSign (d :: ds' ++ rest) = (false,d :: ds' ++ rest) := takeSign_digit hd _
  obtain ⟨htake,hleft⟩ := takeWhile_digits hds hrest
  have hvalue : strtoul false (Nat.ofDigitChars 10 (d :: ds') 0) =
      Nat.ofDigitChars 10 (d :: ds') 0 := by
    rw [strtoul,if_neg (by omega)]
    rfl
  rw [scanUnsigned,hdrop,hsign]
  simp only [htake,hleft]
  rw [if_neg (List.cons_ne_nil _ _),hvalue,Nat.mod_eq_of_lt hsmall]

theorem scanUnsigned_blank (hs : ∀ c ∈ s, isSpace c = true) : scanUnsigned s = none := by
  have hdrop : s.dropWhile isSpace = [] := List.dropWhile_eq_nil_iff.mpr hs
  rw [scanUnsigned,hdrop]
  rfl

/-- A printed number is scanned. -/
theorem scanUnsigned_print (hs : ∀ c ∈ s, isSpace c = true) {n : Nat} (hn : n < 2 ^ 32)
    (hrest : ∀ c ∈ rest.head?, c.isDigit = false) :
    scanUnsigned (s ++ (printUnsigned n ++ rest)) = some (n,rest) := by
  have hvalue : Nat.ofDigitChars 10 (printUnsigned n) 0 = n := Nat.ofDigitChars_ten_toDigits
  have hsmall : Nat.ofDigitChars 10 (printUnsigned n) 0 < 2 ^ 32 := by
    rw [hvalue]
    exact hn
  have hne : printUnsigned n ≠ [] := Nat.toDigits_ne_nil
  have h := scanUnsigned_digits hs hne
    (fun c hc => Nat.isDigit_of_mem_toDigits (by omega) (by omega) hc) hrest hsmall
  rwa [hvalue] at h

end

theorem not_digit_of_space {c : Char} (h : isSpace c = true) : c.isDigit = false := by
  cases hdigit : c.isDigit with
  | false => rfl
  | true =>
    rw [not_space_of_digit hdigit] at h
    cases h

theorem scanDecimal_spec {s rest : List Char} {n : Nat} (h : scanDecimal s = some (n,rest)) :
    ∃ blanks ds, s = blanks ++ (ds ++ rest) ∧ (∀ c ∈ blanks, isSpace c = true) ∧ ds ≠ [] ∧
      (∀ c ∈ ds, c.isDigit = true) ∧ (∀ c ∈ rest.head?, c.isDigit = false) ∧
      Nat.ofDigitChars 10 ds 0 = n ∧ n < 2 ^ 32 := by
  rw [scanDecimal] at h
  split_ifs at h with hn
  obtain ⟨hne,hlt⟩ := not_or.mp hn
  obtain ⟨rfl,rfl⟩ := Prod.mk.inj (Option.some.inj h)
  refine ⟨s.takeWhile isSpace,(s.dropWhile isSpace).takeWhile Char.isDigit,?_,?_,hne,?_,?_,rfl,
    Nat.lt_of_not_le hlt⟩
  · rw [List.takeWhile_append_dropWhile,List.takeWhile_append_dropWhile]
  · exact fun c hc => List.mem_takeWhile_imp hc
  · exact fun c hc => List.mem_takeWhile_imp hc
  · intro c hc
    have hdrop := List.head?_dropWhile_not Char.isDigit (s.dropWhile isSpace)
    rw [hc] at hdrop
    exact hdrop

/-- The text is a sequence of numbers in decimal, separated by blanks. -/
inductive Spells : List Nat → List Char → Prop
  | blank {s : List Char} (hs : ∀ c ∈ s, isSpace c = true) : Spells [] s
  | number {s ds rest : List Char} {ns : List Nat} (hs : ∀ c ∈ s, isSpace c = true)
      (hne : ds ≠ []) (hds : ∀ c ∈ ds, c.isDigit = true)
      (hrest : ∀ c ∈ rest.head?, isSpace c = true) (h : Spells ns rest) :
      Spells (Nat.ofDigitChars 10 ds 0 :: ns) (s ++ (ds ++ rest))

theorem Spells.scan_nil {text : List Char} (h : Spells [] text) : scanUnsigned text = none := by
  cases h with
  | blank hs => exact scanUnsigned_blank hs

theorem Spells.scan_cons {n : Nat} {ns : List Nat} {text : List Char} (h : Spells (n :: ns) text)
    (hn : n < 2 ^ 32) : ∃ rest, scanUnsigned text = some (n,rest) ∧ Spells ns rest := by
  cases h with
  | number hs hne hds hrest h =>
    exact ⟨_,scanUnsigned_digits hs hne hds (fun c hc => not_digit_of_space (hrest c hc)) hn,h⟩

theorem Spells.length_le {ns : List Nat} {text : List Char} (h : Spells ns text) :
    ns.length ≤ text.length := by
  induction h with
  | blank => exact Nat.zero_le _
  | number hs hne hds hrest h ih =>
    have := List.length_pos_iff.mpr hne
    simp only [List.length_cons,List.length_append]
    omega

end FlashMob.Lib.Stdio
