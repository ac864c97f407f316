import Mathlib.Data.Nat.Log
import Mathlib.Tactic.Ring
import Mathlib.Tactic.Linarith

/-!
Rounding of natural numbers to the grid of a binary floating-point format with 53-bit
significands. A magnitude index `k` is the bit pattern of a nonnegative number without its
sign; `unitsOfMag k` is that number counted in the smallest subnormal.
-/

namespace DumboDB.Foundation.Rounding

/-- The multiple of `d` nearest to `n`, counted in `d`, ties going to the even multiple. -/
def roundHalfEven (n d : Nat) : Nat :=
  if 2 * (n % d) < d ∨ (2 * (n % d) = d ∧ n / d % 2 = 0) then n / d else n / d + 1

theorem roundHalfEven_lower (n d : Nat) : n / d ≤ roundHalfEven n d := by
  unfold roundHalfEven
  split <;> omega

theorem roundHalfEven_upper (n d : Nat) : roundHalfEven n d ≤ n / d + 1 := by
  unfold roundHalfEven
  split <;> omega

theorem roundHalfEven_mul (q : Nat) {d : Nat} (positive : 0 < d) : roundHalfEven (q * d) d = q := by
  simp [roundHalfEven, positive]

theorem roundHalfEven_mono {n m : Nat} (d : Nat) (le : n ≤ m) : roundHalfEven n d ≤ roundHalfEven m d := by
  rcases Nat.lt_or_ge (n / d) (m / d) with less | ge
  · exact (roundHalfEven_upper n d).trans (Nat.succ_le_of_lt less |>.trans (roundHalfEven_lower m d))
  · have same : n / d = m / d := Nat.le_antisymm (Nat.div_le_div_right le) ge
    have left := Nat.div_add_mod n d
    have right := Nat.div_add_mod m d
    rw [same] at left
    unfold roundHalfEven
    split <;> split <;> omega

theorem roundHalfEven_reflect {n h d : Nat} (positive : 0 < d) (le : n ≤ 2 * h * d) :
    roundHalfEven (2 * h * d - n) d + roundHalfEven n d = 2 * h := by
  have split := Nat.div_add_mod n d
  have small := Nat.mod_lt n positive
  generalize n / d = q at split
  generalize n % d = r at split small
  rcases Nat.eq_zero_or_pos r with rfl | rest
  · obtain rfl : n = q * d := by rw [← split]; ring
    have bound : q ≤ 2 * h := Nat.le_of_mul_le_mul_right le positive
    rw [← Nat.sub_mul, roundHalfEven_mul _ positive, roundHalfEven_mul _ positive]
    omega
  · have bound : q < 2 * h := by
      by_contra large
      nlinarith
    obtain ⟨p, high⟩ := Nat.exists_eq_add_of_lt bound
    have flipped : 2 * h * d - n = p * d + (d - r) := by
      have expand : 2 * h * d = q * d + p * d + d := by rw [high]; ring
      have product : d * q = q * d := Nat.mul_comm _ _
      omega
    have inside : d - r < d := by omega
    have quotient : (p * d + (d - r)) / d = p := by
      rw [Nat.mul_comm, Nat.mul_add_div positive, Nat.div_eq_of_lt inside, Nat.add_zero]
    have remainder : (p * d + (d - r)) % d = d - r := by
      rw [Nat.mul_comm, Nat.mul_add_mod, Nat.mod_eq_of_lt inside]
    have quotient' : n / d = q := by
      rw [← split, Nat.mul_add_div positive, Nat.div_eq_of_lt small, Nat.add_zero]
    have remainder' : n % d = r := by
      rw [← split, Nat.mul_add_mod, Nat.mod_eq_of_lt small]
    rw [flipped]
    unfold roundHalfEven
    split <;> split <;> omega

/-- The number with magnitude index `k`, in units of the smallest subnormal. -/
def unitsOfMag (k : Nat) : Nat := (k - (k / 2 ^ 52 - 1) * 2 ^ 52) * 2 ^ (k / 2 ^ 52 - 1)

theorem unitsOfMag_small {k : Nat} (small : k < 2 ^ 53) : unitsOfMag k = k := by
  have low : k / 2 ^ 52 - 1 = 0 := by omega
  simp only [unitsOfMag, low, Nat.zero_mul, Nat.sub_zero, pow_zero, Nat.mul_one]

theorem unitsOfMag_normal (s m : Nat) (lower : 2 ^ 52 ≤ m) (upper : m < 2 ^ 53) :
    unitsOfMag (s * 2 ^ 52 + m) = m * 2 ^ s := by
  have exponent : (s * 2 ^ 52 + m) / 2 ^ 52 - 1 = s := by omega
  simp only [unitsOfMag, exponent]
  congr 1
  omega

theorem unitsOfMag_carry (s : Nat) : unitsOfMag (s * 2 ^ 52 + 2 ^ 53) = 2 ^ 53 * 2 ^ s := by
  have shifted : s * 2 ^ 52 + 2 ^ 53 = (s + 1) * 2 ^ 52 + 2 ^ 52 := by ring
  rw [shifted, unitsOfMag_normal (s + 1) (2 ^ 52) (le_refl _) (by decide)]
  ring

theorem mag_cases (k : Nat) : k < 2 ^ 53 ∨ ∃ s m, 2 ^ 52 ≤ m ∧ m < 2 ^ 53 ∧ k = s * 2 ^ 52 + m := by
  rcases Nat.lt_or_ge k (2 ^ 53) with small | large
  · exact .inl small
  · refine .inr ⟨k / 2 ^ 52 - 1, k - (k / 2 ^ 52 - 1) * 2 ^ 52, ?_, ?_, ?_⟩ <;> omega

/-- The index of the number nearest to `n` units, ties going to the even significand. -/
def roundMag (n : Nat) : Nat :=
  (Nat.log2 n - 52) * 2 ^ 52 + roundHalfEven n (2 ^ (Nat.log2 n - 52))

theorem log2_sub_le {n s : Nat} (bound : n < 2 ^ (s + 53)) : Nat.log2 n - 52 ≤ s := by
  rcases Nat.eq_zero_or_pos n with rfl | positive
  · simp
  · have := (Nat.log2_lt positive.ne').mpr bound
    omega

theorem roundMag_normal (s m : Nat) (lower : 2 ^ 52 ≤ m) (upper : m < 2 ^ 53) :
    roundMag (m * 2 ^ s) = s * 2 ^ 52 + m := by
  have scale : Nat.log2 (m * 2 ^ s) = 52 + s := by
    rw [Nat.log2_eq_iff (by positivity)]
    constructor
    · rw [pow_add]
      exact Nat.mul_le_mul_right _ lower
    · rw [show 52 + s + 1 = 53 + s by ring, pow_add]
      exact Nat.mul_lt_mul_of_pos_right upper (by positivity)
  rw [roundMag, scale, Nat.add_sub_cancel_left, roundHalfEven_mul m (by positivity)]

theorem roundMag_small {n : Nat} (small : n < 2 ^ 53) : roundMag n = n := by
  have scale : Nat.log2 n - 52 = 0 := Nat.le_zero.mp (log2_sub_le small)
  have exact := roundHalfEven_mul n (d := 1) (by decide)
  rw [Nat.mul_one] at exact
  simp only [roundMag, scale, Nat.zero_mul, Nat.zero_add, pow_zero, exact]

theorem roundMag_unitsOfMag (k : Nat) : roundMag (unitsOfMag k) = k := by
  rcases mag_cases k with small | ⟨s, m, lower, upper, rfl⟩
  · rw [unitsOfMag_small small, roundMag_small small]
  · rw [unitsOfMag_normal s m lower upper, roundMag_normal s m lower upper]

theorem unitsOfMag_injective {j k : Nat} (same : unitsOfMag j = unitsOfMag k) : j = k := by
  rw [← roundMag_unitsOfMag j, same, roundMag_unitsOfMag]

theorem roundMag_mono {n m : Nat} (le : n ≤ m) : roundMag n ≤ roundMag m := by
  rcases Nat.eq_zero_or_pos n with rfl | positive
  · simp [roundMag_small]
  have logs : Nat.log2 n ≤ Nat.log2 m := by
    rw [Nat.log2_eq_log_two, Nat.log2_eq_log_two]
    exact Nat.log_mono_right le
  rcases Nat.lt_or_ge (Nat.log2 n - 52) (Nat.log2 m - 52) with less | ge
  · have high : roundHalfEven n (2 ^ (Nat.log2 n - 52)) ≤ 2 ^ 53 := by
      have bound : n ≤ 2 ^ 53 * 2 ^ (Nat.log2 n - 52) := by
        rw [← pow_add]
        have := (Nat.log2_lt (k := 53 + (Nat.log2 n - 52)) positive.ne').mp (by omega)
        exact this.le
      calc roundHalfEven n (2 ^ (Nat.log2 n - 52))
          ≤ roundHalfEven (2 ^ 53 * 2 ^ (Nat.log2 n - 52)) (2 ^ (Nat.log2 n - 52)) :=
            roundHalfEven_mono _ bound
        _ = 2 ^ 53 := roundHalfEven_mul _ (by positivity)
    have low : 2 ^ 52 ≤ roundHalfEven m (2 ^ (Nat.log2 m - 52)) := by
      have bound : 2 ^ 52 * 2 ^ (Nat.log2 m - 52) ≤ m := by
        rw [← pow_add, ← Nat.le_log2 (by omega)]
        omega
      calc 2 ^ 52 = roundHalfEven (2 ^ 52 * 2 ^ (Nat.log2 m - 52)) (2 ^ (Nat.log2 m - 52)) :=
            (roundHalfEven_mul _ (by positivity)).symm
        _ ≤ roundHalfEven m (2 ^ (Nat.log2 m - 52)) := roundHalfEven_mono _ bound
    unfold roundMag
    omega
  · have same : Nat.log2 n - 52 = Nat.log2 m - 52 := by omega
    unfold roundMag
    rw [same]
    have := roundHalfEven_mono (2 ^ (Nat.log2 m - 52)) le
    omega

theorem unitsOfMag_roundMag {n s : Nat} (grid : 2 ^ s ∣ n) (bound : n ≤ 2 ^ (s + 53)) :
    unitsOfMag (roundMag n) = n := by
  rcases Nat.lt_or_ge n (2 ^ 53) with small | large
  · rw [roundMag_small small, unitsOfMag_small small]
  rcases Nat.lt_or_eq_of_le bound with less | top
  · have positive : n ≠ 0 := by omega
    have high : 53 ≤ Nat.log2 n := (Nat.le_log2 positive).mpr large
    obtain ⟨t, scale⟩ : ∃ t, Nat.log2 n = t + 52 := ⟨Nat.log2 n - 52, by omega⟩
    have finer : t ≤ s := by
      have := log2_sub_le less
      omega
    obtain ⟨m, rfl⟩ := (pow_dvd_pow 2 finer).trans grid
    have lower := (Nat.le_log2 positive).mp scale.ge
    have upper := (Nat.log2_lt positive).mp (Nat.lt_of_le_of_lt scale.le (Nat.lt_succ_self _))
    rw [pow_add] at lower
    rw [show (t + 52).succ = t + 53 from rfl, pow_add] at upper
    have least := Nat.le_of_mul_le_mul_left lower (by positivity)
    have most := Nat.lt_of_mul_lt_mul_left upper
    rw [Nat.mul_comm, roundMag_normal t m least most, unitsOfMag_normal t m least most]
  · rw [top, show 2 ^ (s + 53) = 2 ^ 52 * 2 ^
      (s + 1) by ring, roundMag_normal (s + 1) (2 ^ 52) (le_refl _) (by decide),
      unitsOfMag_normal (s + 1) (2 ^ 52) (le_refl _) (by decide)]

end DumboDB.Foundation.Rounding
