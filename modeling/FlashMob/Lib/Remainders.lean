import Mathlib.Algebra.Order.Field.Rat
import Mathlib.Data.Nat.Count
import Mathlib.Data.Nat.Periodic
import Mathlib.Data.Set.Card
import Mathlib.Tactic.FieldSimp
import Mathlib.Tactic.Linarith
import Mathlib.Tactic.Ring

namespace FlashMob.Lib.Remainders

/-- Over `k` periods a periodic property holds `k` times as often as over one. -/
theorem count_periodic {p : Nat → Prop} [DecidablePred p] {d : Nat} (hp : Function.Periodic p d)
    (k : Nat) : Nat.count p (k * d) = k * Nat.count p d := by
  induction k with
  | zero => simp
  | succ k ih =>
    have hshift : ∀ n, p (k * d + n) ↔ p n := fun n => by
      rw [Nat.add_comm]
      exact Iff.of_eq (hp.nat_mul k n)
    rw [Nat.succ_mul,Nat.count_add,ih,Nat.succ_mul]
    simp only [hshift]

theorem count_mod_self (q : Nat → Prop) [DecidablePred q] (d : Nat) :
    Nat.count (fun x => q (x % d)) d = Nat.count q d := by
  refine Nat.le_antisymm (Nat.count_mono_left (fun x hx h => ?_))
    (Nat.count_mono_left (fun x hx h => ?_))
  · rwa [Nat.mod_eq_of_lt hx] at h
  · rwa [Nat.mod_eq_of_lt hx]

/-- Below any bound the remainders are spread evenly, up to one period. -/
theorem count_mod_bounds {q : Nat → Prop} [DecidablePred q] {d : Nat} (hd : 0 < d) (n : Nat) :
    n / d * Nat.count q d ≤ Nat.count (fun x => q (x % d)) n ∧
      Nat.count (fun x => q (x % d)) n ≤ (n / d + 1) * Nat.count q d := by
  have hp : Function.Periodic (fun x => q (x % d)) d := fun x => by
    simp only [Nat.add_mod_right]
  have hwhole := fun k => count_mod_self q d ▸ count_periodic hp k
  rw [← hwhole,← hwhole]
  refine ⟨Nat.count_monotone _ (Nat.div_mul_le_self n d),Nat.count_monotone _ ?_⟩
  rw [Nat.succ_mul]
  exact Nat.le_of_lt (Nat.lt_div_mul_add hd)

theorem ncard_words {α : Type} {word : α → Nat} {n : Nat} (hinj : Function.Injective word)
    (hword : ∀ m, (∃ a, word a = m) ↔ m < n) (p : Nat → Prop) [DecidablePred p] :
    Set.ncard { a | p (word a) } = Nat.count p n := by
  have himage : Set.image word { a | p (word a) } = ((Finset.range n).filter p : Set Nat) := by
    ext m
    simp only [Set.mem_image,Set.mem_ofPred_eq,Finset.coe_filter,Finset.mem_range]
    constructor
    · rintro ⟨a,ha,rfl⟩
      exact ⟨(hword _).mp ⟨a,rfl⟩,ha⟩
    · rintro ⟨hlt,hm⟩
      obtain ⟨a,rfl⟩ := (hword m).mpr hlt
      exact ⟨a,hm,rfl⟩
  rw [← Set.ncard_image_of_injective _ hinj,himage,Set.ncard_coe_finset,Nat.count_eq_card_filter_range]

theorem card_words {α : Type} {word : α → Nat} {n : Nat} (hinj : Function.Injective word)
    (hword : ∀ m, (∃ a, word a = m) ↔ m < n) : Nat.card α = n := by
  have hall := ncard_words hinj hword (fun _ => True)
  rwa [Nat.count_true,Set.ofPred_true,Set.ncard_univ] at hall

theorem ncard_mod_le {α : Type} {word : α → Nat} {r b k : Nat} (hinj : Function.Injective word)
    (hword : ∀ m, (∃ a, word a = m) ↔ m < b * r) (hk : k < r) :
    Set.ncard { a | word a % r ≤ k } = b * (k + 1) := by
  have hperiod : Function.Periodic (fun n => n % r ≤ k) r := fun n => by
    simp only [Nat.add_mod_right]
  have hsegment : (Finset.range r).filter (fun n => n ≤ k) = Finset.range (k + 1) := by
    ext n
    simp only [Finset.mem_filter,Finset.mem_range]
    omega
  rw [ncard_words hinj hword (fun n => n % r ≤ k),count_periodic hperiod,
    count_mod_self (fun n => n ≤ k),Nat.count_eq_card_filter_range,hsegment,Finset.card_range]

/-- The part of the arguments that a function takes to `y`. -/
noncomputable def share {α β : Type} (f : α → β) (y : β) : ℚ :=
  (Set.ncard { a | f a = y } : ℚ) / Nat.card α

/-- A function takes each outcome as often as it is listed, up to a share of `ε` for each time. -/
def NearlyUniform {α β : Type} [DecidableEq β] (ε : ℚ) (outcomes : List β) (f : α → β) : Prop :=
  ∀ y, |share f y - (outcomes.count y : ℚ) / outcomes.length| ≤ outcomes.count y * ε

/-- `n` of `r * b` values, where `r / d` times `c` of each `r` belong to `c` of `d` outcomes. -/
theorem share_error {n r b c d : Nat} (hr : 0 < r) (hb : 0 < b) (hd : 0 < d)
    (hlo : b * (r / d * c) ≤ n) (hhi : n ≤ b * ((r / d + 1) * c)) :
    |(n : ℚ) / ((r * b : Nat) : ℚ) - (c : ℚ) / d| ≤ c * (1 / (r : ℚ)) := by
  have hrq : (0 : ℚ) < r := by exact_mod_cast hr
  have hbq : (0 : ℚ) < b := by exact_mod_cast hb
  have hdq : (0 : ℚ) < d := by exact_mod_cast hd
  have hcq : (0 : ℚ) ≤ c := by positivity
  have hlow : ((r / d : Nat) : ℚ) * d ≤ r := by exact_mod_cast Nat.div_mul_le_self r d
  have hhigh : (r : ℚ) ≤ ((r / d : Nat) + 1) * d := by
    have := Nat.le_of_lt (Nat.lt_div_mul_add (a := r) hd)
    rw [← Nat.succ_mul] at this
    exact_mod_cast this
  have hloq : (b : ℚ) * ((r / d : Nat) * c) ≤ n := by exact_mod_cast hlo
  have hhiq : (n : ℚ) ≤ b * (((r / d : Nat) + 1) * c) := by exact_mod_cast hhi
  generalize ((r / d : Nat) : ℚ) = k at *
  -- Both fractions lie between `k` and `k + 1` times `c` of `r`.
  have hn : k * c / r ≤ (n : ℚ) / (r * b) ∧ (n : ℚ) / (r * b) ≤ (k + 1) * c / r := by
    rw [div_le_div_iff₀ hrq (by positivity),div_le_div_iff₀ (by positivity) hrq]
    constructor
    · nlinarith
    · nlinarith
  have hc : k * c / r ≤ (c : ℚ) / d ∧ (c : ℚ) / d ≤ (k + 1) * c / r := by
    rw [div_le_div_iff₀ hrq hdq,div_le_div_iff₀ hdq hrq]
    constructor
    · nlinarith
    · nlinarith
  have hgap : (k + 1) * c / r = k * c / r + c * (1 / (r : ℚ)) := by
    field_simp
  push_cast
  rw [abs_le]
  constructor
  · linarith
  · linarith

/-- Words below `r * b`, of which the part below `r` is reduced to an index of `d` outcomes. -/
theorem nearlyUniform_mod {α β : Type} [DecidableEq β] {word : α → Nat} {r b d : Nat}
    (hinj : Function.Injective word) (hword : ∀ n, (∃ a, word a = n) ↔ n < r * b) (hr : 0 < r)
    (hb : 0 < b) (hd : 0 < d) (outcome : Nat → β) :
    NearlyUniform (1 / (r : ℚ)) ((List.range d).map outcome)
      (fun a => outcome (word a % r % d)) := by
  intro y
  have hperiod : Function.Periodic (fun n => outcome (n % r % d) = y) r := fun n => by
    simp only [Nat.add_mod_right]
  have hvalue : Set.ncard { a | outcome (word a % r % d) = y } =
      b * Nat.count (fun n => outcome (n % d) = y) r := by
    rw [ncard_words hinj hword (fun n => outcome (n % r % d) = y),Nat.mul_comm,count_periodic hperiod,
      count_mod_self (fun n => outcome (n % d) = y)]
  have hlist : ((List.range d).map outcome).count y = Nat.count (fun n => outcome n = y) d := by
    rw [List.count,List.countP_map,Nat.count]
    congr
  obtain ⟨hlo,hhi⟩ := count_mod_bounds (q := fun n => outcome n = y) hd r
  rw [share,hvalue,card_words hinj hword,List.length_map,List.length_range,hlist]
  exact share_error hr hb hd (Nat.mul_le_mul_left b hlo) (Nat.mul_le_mul_left b hhi)

end FlashMob.Lib.Remainders
