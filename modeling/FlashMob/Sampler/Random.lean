import FlashMob.Lib.Xorshift
import FlashMob.Types

namespace FlashMob
open Lib.Xorshift

/-- `XorRandGen`, the default generator. -/
structure XorRandGen where
  seed : BitVec 64
  deriving DecidableEq, Repr

namespace XorRandGen

/-- The product that both kinds of numbers are taken from. -/
def product (g : XorRandGen) : BitVec 64 := g.seed * 0x2545F4914F6CDD1D

/-- The three shifts of a draw. -/
def advance (g : XorRandGen) : XorRandGen :=
  let s := g.seed ^^^ (g.seed >>> 12)
  let s := s ^^^ (s <<< 25)
  ⟨s ^^^ (s >>> 27)⟩

def gen (upperBound : Nat) (g : XorRandGen) : Nat × XorRandGen :=
  (u32 g.product.toNat % upperBound, g.advance)

def genFloat {R : Type} [Floating R] (upperBound : R) (g : XorRandGen) : R × XorRandGen :=
  (Floating.mul (Floating.div (Floating.ofNat (g.product &&& 0xFFFF).toNat)
    (Floating.ofNat 65535)) upperBound, g.advance)

/-- In exact arithmetic a draw is at most its bound. -/
theorem genFloat_le {K : Type} [Field K] [LinearOrder K] [IsStrictOrderedRing K] [FloorSemiring K]
    {upperBound : K} (h : 0 ≤ upperBound) (g : XorRandGen) :
    (g.genFloat upperBound).1 ≤ upperBound := by
  have hmask : (g.product &&& 0xFFFF).toNat ≤ 65535 := by
    rw [BitVec.toNat_and]
    exact Nat.and_le_right
  have hle : ((g.product &&& 0xFFFF).toNat : K) ≤ (65535 : Nat) := Nat.cast_le.mpr hmask
  simp only [genFloat,Floating.exact_mul,Floating.exact_div,Floating.exact_ofNat]
  exact mul_le_of_le_one_left h (div_le_one_of_le₀ hle (Nat.cast_nonneg _))

theorem advance_seed (g : XorRandGen) :
    g.advance.seed = xorRight 27 (xorLeft 25 (xorRight 12 g.seed)) := rfl

theorem seed_injective : Function.Injective seed := by
  rintro ⟨s⟩ ⟨s'⟩ h
  exact congrArg mk h

theorem advance_injective : Function.Injective advance := by
  intro g g' h
  have hseed := congrArg seed h
  rw [advance_seed,advance_seed] at hseed
  have hlast := xorRight_injective (by decide) hseed
  have hmiddle := xorLeft_injective (by decide) hlast
  exact seed_injective (xorRight_injective (by decide) hmiddle)

/-- Only the seed zero is followed by zero. -/
theorem advance_seed_eq_zero {g : XorRandGen} : g.advance.seed = 0 ↔ g.seed = 0 := by
  have hzero : advance ⟨0⟩ = ⟨0⟩ := rfl
  constructor
  · intro h
    have hg : g.advance = advance ⟨0⟩ := by rw [hzero,← h]
    rw [advance_injective hg]
  · intro h
    have hg : g = ⟨0⟩ := by rw [← h]
    rw [hg,hzero]

theorem advance_bijective : Function.Bijective advance := by
  have : Finite XorRandGen := Finite.of_injective seed seed_injective
  exact Finite.injective_iff_bijective.mp advance_injective

/-- A call of one of the two kinds of draws. -/
inductive Draw (R : Type)
  | gen (upperBound : Nat)
  | genFloat (upperBound : R)

section
variable {R : Type} [Floating R]

def Draw.call : Draw R → XorRandGen → XorRandGen
  | .gen upperBound, g => (g.gen upperBound).2
  | .genFloat upperBound, g => (g.genFloat upperBound).2

/-- The generator after some calls. -/
def calls (ds : List (Draw R)) (g : XorRandGen) : XorRandGen := ds.foldl (fun g d => d.call g) g

theorem call_eq_advance (d : Draw R) (g : XorRandGen) : d.call g = g.advance := by
  cases d <;> rfl

/-- The bounds do not matter for the seed. -/
theorem calls_eq_iterate (ds : List (Draw R)) (g : XorRandGen) :
    calls ds g = advance^[ds.length] g := by
  induction ds generalizing g with
  | nil => rfl
  | cons d ds ih =>
    change calls ds (d.call g) = advance^[ds.length + 1] g
    rw [ih,call_eq_advance,Function.iterate_succ_apply]

theorem calls_seed_ne_zero {g : XorRandGen} (h : g.seed ≠ 0) (ds : List (Draw R)) :
    (calls ds g).seed ≠ 0 := by
  induction ds generalizing g with
  | nil => exact h
  | cons d ds ih =>
    refine ih (g := d.call g) ?_
    rw [call_eq_advance]
    exact fun hzero => h (advance_seed_eq_zero.mp hzero)

theorem calls_injective {ds ds' : List (Draw R)} (hlen : ds.length = ds'.length)
    {g g' : XorRandGen} (h : (calls ds g).seed = (calls ds' g').seed) : g.seed = g'.seed := by
  rw [calls_eq_iterate,calls_eq_iterate,hlen] at h
  rw [advance_injective.iterate _ (seed_injective h)]

/-- Both kinds of draws permute the seeds and keep zero apart, and so does any mix of them. -/
theorem generator_never_degenerates :
    (∀ d : Draw R, Function.Bijective d.call) ∧
    (∀ (d : Draw R) (g : XorRandGen), (d.call g).seed = 0 ↔ g.seed = 0) ∧
    (∀ (ds : List (Draw R)) (g : XorRandGen), g.seed ≠ 0 → (calls ds g).seed ≠ 0) ∧
    (∀ (ds ds' : List (Draw R)) (g g' : XorRandGen), ds.length = ds'.length →
      g.seed ≠ g'.seed → (calls ds g).seed ≠ (calls ds' g').seed) ∧
    ∀ (upperBound : Nat) (g : XorRandGen), 1 ≤ upperBound →
      (g.gen upperBound).1 < upperBound := by
  refine ⟨?_,?_,?_,?_,?_⟩
  · intro d
    have hcall : d.call = advance := funext (call_eq_advance d)
    rw [hcall]
    exact advance_bijective
  · intro d g
    rw [call_eq_advance]
    exact advance_seed_eq_zero
  · exact fun ds g h => calls_seed_ne_zero h ds
  · exact fun ds ds' g g' hlen hne h => hne (calls_injective hlen h)
  · exact fun upperBound g h => Nat.mod_lt _ h

end

/-- Seeds one and two, with the draws in different orders. -/
theorem generator_never_degenerates_one_two :
    (calls [.gen 5,.genFloat (1 : ℚ)] ⟨1⟩).seed ≠ (calls [.genFloat (1 : ℚ),.gen 7] ⟨2⟩).seed :=
  generator_never_degenerates.2.2.2.1 _ _ _ _ rfl (by decide)

end XorRandGen

instance : RandGen XorRandGen where
  gen := XorRandGen.gen
  gen_lt _ _ h := Nat.mod_lt _ h

instance {R : Type} [Floating R] : RandGenFloat XorRandGen R where
  genFloat := XorRandGen.genFloat

end FlashMob
