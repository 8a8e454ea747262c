import FlashMob.Lib.Stdio

namespace FlashMob.Lib.Decimal
open Lib.Stdio

/-- The last `k` decimal digits of a number. -/
def padded : Nat → Nat → List Char
  | 0, _ => []
  | k+1, n => Nat.digitChar (n / 10 ^ k % 10) :: padded k n

theorem padded_length (k n : Nat) : (padded k n).length = k := by
  induction k with
  | zero => rfl
  | succ k ih => rw [padded,List.length_cons,ih]

theorem padded_digits (k n : Nat) : ∀ c ∈ padded k n, c.isDigit = true := by
  induction k with
  | zero => exact fun c hc => absurd hc List.not_mem_nil
  | succ k ih =>
    intro c hc
    rcases List.mem_cons.mp hc with rfl | hc
    · rw [Nat.isDigit_digitChar]
      exact decide_eq_true (Nat.mod_lt _ (by omega))
    · exact ih c hc

theorem ofDigitChars_padded (k n : Nat) : Nat.ofDigitChars 10 (padded k n) 0 = n % 10 ^ k := by
  induction k with
  | zero => rw [Nat.pow_zero,Nat.mod_one]; rfl
  | succ k ih =>
    rw [padded,Nat.ofDigitChars_cons_digitChar_of_lt_ten (Nat.mod_lt _ (by omega)),
      Nat.ofDigitChars_eq_ofDigitChars_zero,ih,padded_length,Nat.mul_zero,Nat.zero_add,
      Nat.pow_succ,Nat.mod_mul,Nat.add_comm]

variable {K : Type} [Field K] [LinearOrder K] [FloorSemiring K]

/-- The nearest natural number, and the even one of two. -/
def roundEven (x : K) : Nat :=
  let n := ⌊x⌋₊
  if 2 * (x - n) < 1 then n
  else if 1 < 2 * (x - n) then n + 1
  else if n % 2 = 0 then n else n + 1

/-- What `%.kf` prints for a number that is not negative. -/
def printFixed (k : Nat) (x : K) : List Char :=
  let n := roundEven (x * 10 ^ k)
  printUnsigned (n / 10 ^ k) ++ '.' :: padded k n

/-- `strtod` for decimals without an exponent: the number and what follows it. -/
def scanFixed (s : List Char) : Option (K × List Char) :=
  let signed := takeSign (s.dropWhile isSpace)
  let whole := signed.2.takeWhile Char.isDigit
  let sign : K := if signed.1 then -1 else 1
  match signed.2.dropWhile Char.isDigit with
  | '.' :: rest =>
    let fraction := rest.takeWhile Char.isDigit
    if whole = [] ∧ fraction = [] then none
    else some (sign * ((Nat.ofDigitChars 10 whole 0 : Nat) +
      (Nat.ofDigitChars 10 fraction 0 : Nat) / 10 ^ fraction.length),rest.dropWhile Char.isDigit)
  | rest => if whole = [] then none else some (sign * (Nat.ofDigitChars 10 whole 0 : Nat),rest)

/-- A number as it is after it has been printed with `k` decimals. -/
def fixed (k : Nat) (x : K) : K := (roundEven (x * 10 ^ k) : Nat) / 10 ^ k

variable [IsStrictOrderedRing K]

theorem roundEven_natCast (n : Nat) : roundEven (n : K) = n := by
  rw [roundEven,Nat.floor_natCast,sub_self,mul_zero]
  exact if_pos zero_lt_one

theorem fixed_nonneg (k : Nat) (x : K) : 0 ≤ fixed k x := by
  rw [fixed]
  positivity

theorem roundEven_fixed (k : Nat) (x : K) :
    roundEven (fixed k x * 10 ^ k) = roundEven (x * 10 ^ k) := by
  rw [fixed,div_mul_cancel₀ _ (by positivity),roundEven_natCast]

/-- A number is printed as what is left of it. -/
theorem printFixed_fixed (k : Nat) (x : K) : printFixed k (fixed k x) = printFixed k x := by
  rw [printFixed,printFixed,roundEven_fixed]

/-- A printed number is scanned, behind blanks and before anything but a digit. -/
theorem scanFixed_print (k : Nat) (x : K) {s rest : List Char} (hs : ∀ c ∈ s, isSpace c = true)
    (hrest : ∀ c ∈ rest.head?, c.isDigit = false) :
    scanFixed (s ++ (printFixed k x ++ rest)) = some (fixed k x,rest) := by
  obtain ⟨n,hn⟩ : ∃ n, n = roundEven (x * 10 ^ k) := ⟨_,rfl⟩
  have hwhole : ∀ c ∈ printUnsigned (n / 10 ^ k), c.isDigit = true :=
    fun c hc => Nat.isDigit_of_mem_toDigits (by omega) (by omega) hc
  obtain ⟨d,ds,hd⟩ : ∃ d ds, printUnsigned (n / 10 ^ k) = d :: ds :=
    List.exists_cons_of_ne_nil Nat.toDigits_ne_nil
  have hfirst : d.isDigit = true := hwhole d (hd ▸ List.mem_cons_self)
  have htext : s ++ (printFixed k x ++ rest) =
      s ++ (printUnsigned (n / 10 ^ k) ++ ('.' :: (padded k n ++ rest))) := by
    rw [printFixed,← hn,List.append_assoc,List.cons_append]
  have hdrop : (s ++ (printUnsigned (n / 10 ^ k) ++ ('.' :: (padded k n ++ rest)))).dropWhile
      isSpace = printUnsigned (n / 10 ^ k) ++ ('.' :: (padded k n ++ rest)) := by
    rw [List.dropWhile_append_of_pos hs,hd,List.cons_append,
      List.dropWhile_cons_of_neg (by simp [not_space_of_digit hfirst])]
  have hsign : takeSign (printUnsigned (n / 10 ^ k) ++ ('.' :: (padded k n ++ rest))) =
      (false,printUnsigned (n / 10 ^ k) ++ ('.' :: (padded k n ++ rest))) := by
    rw [hd]
    exact takeSign_digit hfirst _
  have hpoint : ∀ c ∈ ('.' :: (padded k n ++ rest)).head?, c.isDigit = false := by
    intro c hc
    obtain rfl := Option.some.inj hc
    rfl
  obtain ⟨htake,hleft⟩ := takeWhile_digits hwhole hpoint
  obtain ⟨hfraction,hlast⟩ := takeWhile_digits (padded_digits k n) hrest
  have hvalue : Nat.ofDigitChars 10 (printUnsigned (n / 10 ^ k)) 0 = n / 10 ^ k :=
    Nat.ofDigitChars_ten_toDigits
  rw [scanFixed,htext,hdrop,hsign]
  simp only [htake,hleft,hfraction,hlast,padded_length,hvalue,ofDigitChars_padded]
  rw [if_neg (fun h => List.cons_ne_nil d ds (hd ▸ h.1)),fixed,← hn]
  have hsplit : (n : K) = (n / 10 ^ k : Nat) * 10 ^ k + (n % 10 ^ k : Nat) := by
    have h := Nat.div_add_mod' n (10 ^ k)
    exact_mod_cast h.symm
  have hpos : (10 : K) ^ k ≠ 0 := by positivity
  have hshare : ((n / 10 ^ k : Nat) : K) + (n % 10 ^ k : Nat) / 10 ^ k = n / 10 ^ k := by
    rw [hsplit]
    field_simp
  simp [hshare]

end FlashMob.Lib.Decimal
