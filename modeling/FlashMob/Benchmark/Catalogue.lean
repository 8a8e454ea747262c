import FlashMob.Lib.Decimal
import FlashMob.Lib.Keyed
import FlashMob.Lib.Stdio
import FlashMob.Partition.Dp

namespace FlashMob.Benchmark
open Floating FlashMob.Partition Lib.Decimal Lib.Keyed Lib.Stdio

/-- A result of the mini benchmark. -/
structure MiniBMKItem (D : Type) where
  partitionBits : Nat
  degree : Nat
  samplerClass : SamplerClass
  stepTime : D

namespace MiniBMKItem
variable {D : Type}

/-- `operator <`, which does not look at the time. -/
def less (a b : MiniBMKItem D) : Bool :=
  if a.partitionBits ≠ b.partitionBits then decide (a.partitionBits < b.partitionBits)
  else if a.degree ≠ b.degree then decide (a.degree < b.degree)
  else decide (a.samplerClass.code < b.samplerClass.code)

def key (a : MiniBMKItem D) : ℕ ×ₗ ℕ ×ₗ ℕ :=
  toLex (a.partitionBits,toLex (a.degree,a.samplerClass.code))

theorem less_iff {a b : MiniBMKItem D} : a.less b = true ↔ a.key < b.key := by
  rw [key,key,Prod.Lex.toLex_lt_toLex,Prod.Lex.toLex_lt_toLex,less]
  split_ifs with hbits hdegree
  · rw [decide_eq_true_eq]
    exact ⟨Or.inl,fun h => h.resolve_right (fun h => hbits h.1)⟩
  · have hbits := not_not.mp hbits
    rw [decide_eq_true_eq]
    exact ⟨fun h => Or.inr ⟨hbits,Or.inl h⟩,fun h =>
      (h.resolve_left (fun h => absurd hbits (Nat.ne_of_lt h))).2.resolve_right
        (fun h => hdegree h.1)⟩
  · have hbits := not_not.mp hbits
    have hdegree := not_not.mp hdegree
    rw [decide_eq_true_eq]
    exact ⟨fun h => Or.inr ⟨hbits,Or.inr ⟨hdegree,h⟩⟩,fun h =>
      ((h.resolve_left (fun h => absurd hbits (Nat.ne_of_lt h))).2.resolve_left
        (fun h => absurd hdegree (Nat.ne_of_lt h))).2⟩

def estimation (a : MiniBMKItem D) : SampleEstimation D := ⟨a.samplerClass,a.stepTime⟩

end MiniBMKItem

abbrev CatSet (D : Type) := KeySet (MiniBMKItem.key (D := D))

/-- A row of the tables of `MiniBMKCatMap`: partition bits lead to a table sorted by degree. -/
abbrev MiniBMKCatMap (D : Type) := Nat → List (Nat × List (SampleEstimation D))

structure MiniBMKCatManager (D : Type) where
  catSet : CatSet D
  newItemNum : Nat

namespace MiniBMKCatManager
variable {D : Type}

def hasItem (m : MiniBMKCatManager D) (partitionBits degree : Nat) (samplerClass : SamplerClass) :
    Bool :=
  m.catSet.has (toLex (partitionBits,toLex (degree,samplerClass.code)))

/-- `add_item` with its `CHECK`. -/
def addItem (m : MiniBMKCatManager D) (item : MiniBMKItem D) : Option (MiniBMKCatManager D) :=
  if m.catSet.has item.key then none
  else some ⟨m.catSet.insert item,m.newItemNum + 1⟩

def catalogueStep (catMap : MiniBMKCatMap D) (item : MiniBMKItem D) : MiniBMKCatMap D :=
  Function.update catMap item.partitionBits
    (pushBack item.degree item.estimation (catMap item.partitionBits))

def getCatalogue (m : MiniBMKCatManager D) (catMap : MiniBMKCatMap D) : MiniBMKCatMap D :=
  m.catSet.items.foldl catalogueStep catMap

end MiniBMKCatManager

/-- The conversion `%lf` in both directions, for times: what is scanned of a printed time may be a
little off, but is printed the same way. -/
class DoubleText (D : Type) [Floating D] where
  print : D → List Char
  scan : List Char → Option (D × List Char)
  /-- The time that is left of a printed one. -/
  stored : D → D
  stored_nonneg : ∀ x, le (ofNat 0) x = true → le (ofNat 0) (stored x) = true
  print_stored : ∀ x, le (ofNat 0) x = true → print (stored x) = print x
  scan_print : ∀ x rest, le (ofNat 0) x = true →
    scan (' ' :: (print x ++ '\n' :: rest)) = some (stored x,'\n' :: rest)

/-- Six decimals in exact arithmetic. -/
instance DoubleText.exact (K : Type) [Field K] [LinearOrder K] [FloorSemiring K]
    [IsStrictOrderedRing K] : DoubleText K where
  print := printFixed 6
  scan := scanFixed
  stored := fixed 6
  stored_nonneg x _ := by simpa using fixed_nonneg 6 x
  print_stored x _ := printFixed_fixed 6 x
  scan_print x rest _ := by
    have hblank : ∀ c ∈ [' '], isSpace c = true := by simp [isSpace]
    refine scanFixed_print 6 x hblank (fun c hc => ?_)
    obtain rfl := Option.some.inj hc
    rfl

section
variable {D : Type} [Floating D] [DoubleText D]

def printItem (item : MiniBMKItem D) : List Char :=
  printUnsigned item.partitionBits ++ ' ' :: (printUnsigned item.degree ++
    ' ' :: (printUnsigned (item.samplerClass.code) ++
      ' ' :: (DoubleText.print item.stepTime ++ ['\n'])))

/-- The four conversions of `fscanf`, and what they leave of the file. -/
def scanItem (file : List Char) : Option ((Nat × Nat × Nat × D) × List Char) :=
  (scanUnsigned file).bind (fun (partitionBits,file) =>
    (scanUnsigned file).bind (fun (degree,file) =>
      (scanUnsigned file).bind (fun (samplerClass,file) =>
        (DoubleText.scan file).map (fun (stepTime,file) =>
          ((partitionBits,degree,samplerClass,stepTime),file)))))

/-- The loop of the constructor over the file, for at most `fuel` items. -/
def scanItems : Nat → List Char → List (Nat × Nat × Nat × D)
  | 0, _ => []
  | fuel+1, file =>
    match scanItem file with
    | none => []
    | some (row,file) => row :: scanItems fuel file

def rowItem (row : Nat × Nat × Nat × D) : Option (MiniBMKItem D) :=
  (SamplerClass.ofCode row.2.2.1).map (fun samplerClass =>
    ⟨row.1,row.2.1,samplerClass,row.2.2.2⟩)

/-- An item as it comes back from the file. -/
def MiniBMKItem.stored (item : MiniBMKItem D) : MiniBMKItem D :=
  { item with stepTime := DoubleText.stored item.stepTime }

@[simp] theorem MiniBMKItem.stored_key (item : MiniBMKItem D) : item.stored.key = item.key := rfl

structure MiniBMKItem.Storable (item : MiniBMKItem D) : Prop where
  bits : item.partitionBits < 2 ^ 32
  degree : item.degree < 2 ^ 32
  time : le (ofNat 0) item.stepTime = true

theorem scanItem_print {item : MiniBMKItem D} (h : item.Storable) {s : List Char}
    (hs : ∀ c ∈ s, isSpace c = true) (rest : List Char) :
    scanItem (s ++ (printItem item ++ rest)) = some ((item.partitionBits,item.degree,
      item.samplerClass.code,DoubleText.stored item.stepTime),'\n' :: rest) := by
  have hblank : ∀ c ∈ [' '], isSpace c = true := by simp [isSpace]
  have hnext : ∀ (l : List Char), ∀ c ∈ (' ' :: l).head?, c.isDigit = false := by
    intro l c hc
    obtain rfl := Option.some.inj hc
    rfl
  have hfirst := scanUnsigned_print hs h.bits (hnext (printUnsigned item.degree ++
    ' ' :: (printUnsigned item.samplerClass.code ++
      ' ' :: (DoubleText.print item.stepTime ++ '\n' :: rest))))
  have hsecond := scanUnsigned_print hblank h.degree (hnext
    (printUnsigned item.samplerClass.code ++
      ' ' :: (DoubleText.print item.stepTime ++ '\n' :: rest)))
  have hthird := scanUnsigned_print hblank item.samplerClass.code_lt (hnext
    (DoubleText.print item.stepTime ++ '\n' :: rest))
  have hlast := DoubleText.scan_print item.stepTime rest h.time
  simp only [List.singleton_append] at hsecond hthird
  rw [scanItem,printItem]
  simp only [List.append_assoc,List.cons_append,List.nil_append]
  rw [hfirst,Option.bind_some]
  dsimp only
  rw [hsecond,Option.bind_some]
  dsimp only
  rw [hthird,Option.bind_some]
  dsimp only
  rw [hlast,Option.map_some]

theorem scanItem_blank {s : List Char} (hs : ∀ c ∈ s, isSpace c = true) :
    scanItem (D := D) s = none := by
  rw [scanItem,scanUnsigned_blank hs,Option.bind_none]

theorem scanItems_print {items : List (MiniBMKItem D)} (h : ∀ item ∈ items, item.Storable)
    {s : List Char} (hs : ∀ c ∈ s, isSpace c = true) {fuel : Nat} (hfuel : items.length ≤ fuel) :
    (scanItems fuel (s ++ items.flatMap printItem)).mapM rowItem =
      some (items.map MiniBMKItem.stored) := by
  induction items generalizing s fuel with
  | nil =>
    have hrows : scanItems (D := D) fuel (s ++ ([] : List (MiniBMKItem D)).flatMap printItem) =
        [] := by
      cases fuel with
      | zero => rfl
      | succ fuel => rw [scanItems,List.flatMap_nil,List.append_nil,scanItem_blank hs]
    rw [hrows]
    rfl
  | cons item items ih =>
    obtain ⟨hitem,htail⟩ := List.forall_mem_cons.mp h
    cases fuel with
    | zero => cases hfuel
    | succ fuel =>
      have hnewline : ∀ c ∈ ['\n'], isSpace c = true := by simp [isSpace]
      have hrest := ih htail hnewline (Nat.le_of_succ_le_succ hfuel)
      rw [scanItems,List.flatMap_cons,scanItem_print hitem hs]
      dsimp only
      rw [List.mapM_cons,← List.singleton_append,hrest]
      simp [rowItem,MiniBMKItem.stored]

theorem length_le_flatMap_print (items : List (MiniBMKItem D)) :
    items.length ≤ (items.flatMap printItem).length := by
  induction items with
  | nil => exact Nat.le_refl _
  | cons item items ih =>
    rw [List.flatMap_cons,List.length_append,List.length_cons,printItem,List.length_append,
      List.length_cons]
    omega

namespace MiniBMKCatManager

/-- The constructor. A file that is not there is as good as an empty one; an item takes up
characters, so that the length of the file bounds their number. -/
def load (file : Option (List Char)) : Option (MiniBMKCatManager D) :=
  ((scanItems (file.getD []).length (file.getD [])).mapM rowItem).map (fun items =>
    ⟨KeySet.ofList MiniBMKItem.key items,0⟩)

/-- `save_catalogue`: the file afterwards. -/
def saveCatalogue (m : MiniBMKCatManager D) (file : Option (List Char)) : Option (List Char) :=
  if m.newItemNum ≠ 0 then some (m.catSet.items.flatMap printItem) else file

variable {m : MiniBMKCatManager D}

/-- What was saved is loaded again, with the times that are left of the printed ones. -/
theorem load_items (h : ∀ item ∈ m.catSet.items, item.Storable) :
    ∃ m' : MiniBMKCatManager D, load (some (m.catSet.items.flatMap printItem)) = some m' ∧
      m'.catSet.items = m.catSet.items.map MiniBMKItem.stored ∧ m'.newItemNum = 0 := by
  have hrows := scanItems_print h (s := []) (fun c hc => absurd hc List.not_mem_nil)
    (length_le_flatMap_print m.catSet.items)
  rw [List.nil_append] at hrows
  have hsorted : (m.catSet.items.map MiniBMKItem.stored).Pairwise (fun a b => a.key < b.key) :=
    List.pairwise_map.mpr m.catSet.sorted
  refine ⟨⟨KeySet.ofList MiniBMKItem.key (m.catSet.items.map MiniBMKItem.stored),0⟩,?_,
    KeySet.ofList_sorted hsorted,rfl⟩
  rw [load,Option.getD_some,hrows,Option.map_some]

end MiniBMKCatManager

end

end FlashMob.Benchmark
