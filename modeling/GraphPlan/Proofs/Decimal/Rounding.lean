import GraphPlan.Decimal.Notation
import Mathlib.Algebra.Group.Nat.Defs

namespace GraphPlan.Decimal.Double

theorem roundQuotient_near {n k : Nat} (hk : 0 < k) :
    2 * (k * roundQuotient n k) ≤ 2 * n + k ∧ 2 * n ≤ 2 * (k * roundQuotient n k) + k := by
  have hdiv := Nat.div_add_mod n k
  have hmod := Nat.mod_lt n hk
  simp only [roundQuotient]
  split
  · omega
  · split
    · rw [Nat.mul_succ]
      omega
    · rcases Nat.mod_two_eq_zero_or_one (n / k) with heven | hodd
      · rw [heven, Nat.add_zero]
        omega
      · rw [hodd, Nat.mul_succ]
        omega

variable {n : Nat}

theorem ratioPower_large (hlow : 2 ^ 63 ≤ n) (hhigh : n < 2 ^ 64) : ratioPower n 1 = 11 := by
  have hlog : n.log2 = 63 := (Nat.log2_eq_iff (by omega)).mpr ⟨hlow, hhigh⟩
  have hone : Nat.log2 1 = 0 := by decide
  simp [ratioPower, hlog, hone]
  omega

/-- The double `2048 * m`, where `m` has 53 bits or is the power of two after them. -/
def coarse (m : Nat) : Double := ofFields false (1085 * 2 ^ 52 + m)

theorem ofRatio_large (hlow : 2 ^ 63 ≤ n) (hhigh : n < 2 ^ 64) :
    ofRatio false n 1 = some (coarse (roundQuotient n 2048)) := by
  have hround := @roundQuotient_near n 2048 (by decide)
  have hscaled : roundScaled n 1 11 = roundQuotient n 2048 := rfl
  have hexponent : (11 + 1074 : Int).toNat <<< 52 = 1085 * 2 ^ 52 := by decide
  simp only [ofRatio, ratioPower_large hlow hhigh, hscaled, hexponent]
  rw [if_pos (by omega), coarse]

theorem nearest_large (hlow : 2 ^ 63 ≤ n) (hhigh : n < 2 ^ 64) :
    nearest n = coarse (roundQuotient n 2048) := by
  have hlength : decimalLength n ≤ 20 :=
    (Nat.length_toDigits_le_iff (by decide) (by decide)).mpr (by omega)
  have hscaled : ofScaled ⟨false, n, 0⟩ = ofRatio false n 1 := by
    simp only [ofScaled]
    rw [if_neg (by omega), if_neg (by omega)]
    simp
  have hsign : decide ((n : Int) < 0) = false := by simp
  rw [nearest, hsign, Int.natAbs_natCast, hscaled, ofRatio_large hlow hhigh, Option.getD_some]

variable {m : Nat}

theorem toNat_bits_coarse (hhigh : m ≤ 2 ^ 53) : (coarse m).bits.toNat = 1085 * 2 ^ 52 + m := by
  have hbits : (coarse m).bits.toNat = (0 + (1085 * 2 ^ 52 + m)) % 2 ^ 64 := UInt64.toNat_ofNat'
  omega

theorem magnitude_coarse (hhigh : m ≤ 2 ^ 53) : (coarse m).magnitude = 1085 * 2 ^ 52 + m := by
  rw [magnitude, toNat_bits_coarse hhigh, Nat.shiftLeft_eq]
  omega

theorem isNegative_coarse (hhigh : m ≤ 2 ^ 53) : (coarse m).isNegative = false := by
  rw [isNegative, toNat_bits_coarse hhigh, decide_eq_false_iff_not, Nat.shiftLeft_eq]
  omega

/-- The decimals that read back as the double of an integer: those near the integer. -/
structure Interval.Around (i : Interval) (v : Nat) : Prop where
  power : 0 ≤ i.power
  value : i.value * 2 ^ i.power.toNat = v
  low_le : i.low * 2 ^ i.power.toNat + 512 ≤ v
  le_low : v ≤ i.low * 2 ^ i.power.toNat + 1024
  le_high : v + 1024 ≤ i.high * 2 ^ i.power.toNat
  high_le : i.high * 2 ^ i.power.toNat ≤ v + 2048

/-- A significand that was rounded up to 54 bits belongs to the next power. -/
theorem significand_power_large (hlow : 2 ^ 52 ≤ m) (hhigh : m ≤ 2 ^ 53) :
    (m < 2 ^ 53 ∧ (coarse m).significand = m ∧ (coarse m).power = 11) ∨
      (m = 2 ^ 53 ∧ (coarse m).significand = 2 ^ 52 ∧ (coarse m).power = 12) := by
  simp only [significand, power, magnitude_coarse hhigh, Nat.reduceShiftLeft]
  rw [if_neg (by omega)]
  omega

theorem interval_around (hlow : 2 ^ 52 ≤ m) (hhigh : m ≤ 2 ^ 53) :
    (coarse m).interval.Around (2048 * m) := by
  rcases significand_power_large hlow hhigh with ⟨_, hm, hp⟩ | ⟨rfl, hm, hp⟩
  · -- either lower bound is near enough
    have hbound : 4 * m - 2 ≤ (coarse m).interval.low ∧ (coarse m).interval.low ≤ 4 * m - 1 := by
      simp only [interval, hm]
      split <;> omega
    have hvalue : (coarse m).interval.value = 4 * m := by rw [interval, hm]
    have hhigh : (coarse m).interval.high = 4 * m + 2 := by rw [interval, hm]
    have hpower : (coarse m).interval.power = 9 := by rw [interval, hp]; rfl
    refine ⟨?_, ?_, ?_, ?_, ?_, ?_⟩ <;> simp only [hpower, hvalue, hhigh, Int.reduceToNat] <;> omega
  · have hnearer : 2 ^ 52 = 1 <<< 52 ∧ 2 <<< 52 ≤ (coarse (2 ^ 53)).magnitude := by
      rw [magnitude_coarse hhigh]
      decide
    refine ⟨?_, ?_, ?_, ?_, ?_, ?_⟩ <;>
      simp only [interval, hm, hp, if_pos hnearer, Int.reduceSub, Int.reduceToNat] <;> omega

namespace Interval

variable {i : Interval}

theorem decimalPoint_whole (hp : 0 ≤ i.power) {exponent : Int} (candidate : Nat) :
    i.decimalPoint exponent candidate = candidate * 10 ^ exponent.toNat := by
  have hzero : (-i.power).toNat = 0 := by omega
  rw [decimalPoint, hzero, Nat.shiftLeft_zero, Nat.pow_eq]

theorem binaryPoint_whole {exponent : Int} (he : 0 ≤ exponent) (k : Nat) :
    i.binaryPoint exponent k = k * 2 ^ i.power.toNat := by
  have hzero : (-exponent).toNat = 0 := by omega
  rw [binaryPoint, hzero, Nat.shiftLeft_eq, Nat.pow_eq, Nat.pow_zero, Nat.mul_one]

theorem holds_of_between {exponent : Int} {candidate : Nat}
    (hlow : i.binaryPoint exponent i.low < i.decimalPoint exponent candidate)
    (hhigh : i.decimalPoint exponent candidate < i.binaryPoint exponent i.high) :
    i.holds exponent candidate = true := by
  simp only [holds]
  split
  · simp [Nat.le_of_lt hlow, Nat.le_of_lt hhigh]
  · simp [hlow, hhigh]

theorem between_of_holds {exponent : Int} {candidate : Nat}
    (h : i.holds exponent candidate = true) :
    i.binaryPoint exponent i.low ≤ i.decimalPoint exponent candidate ∧
      i.decimalPoint exponent candidate ≤ i.binaryPoint exponent i.high := by
  simp only [holds] at h
  split at h
  · simpa using h
  · rw [Bool.and_eq_true, decide_eq_true_iff, decide_eq_true_iff] at h
    exact ⟨Nat.le_of_lt h.1, Nat.le_of_lt h.2⟩

/-- What is found on a grid reads back. -/
theorem holds_of_onGrid {tie : Tie} {exponent : Int} {digits : Nat}
    (h : i.onGrid tie exponent = some digits) : i.holds exponent digits = true := by
  simp only [onGrid] at h
  split at h
  · next hbelow habove =>
    cases h
    have heither : ∀ above : Bool, i.holds exponent (if above then
        i.binaryPoint exponent i.value / i.decimalPoint exponent 1 + 1
        else i.binaryPoint exponent i.value / i.decimalPoint exponent 1) = true := by
      intro above
      cases above with
      | true => exact habove
      | false => exact hbelow
    exact heither _
  · next hbelow _ =>
    cases h
    exact hbelow
  · next _ habove =>
    cases h
    exact habove
  · cases h

theorem isSome_onGrid {tie : Tie} {exponent : Int}
    (h : i.holds exponent (i.binaryPoint exponent i.value / i.decimalPoint exponent 1) = true ∨
      i.holds exponent (i.binaryPoint exponent i.value / i.decimalPoint exponent 1 + 1) = true) :
    (i.onGrid tie exponent).isSome := by
  simp only [onGrid]
  split <;> simp_all

/-- A search finds something by the time it comes to a grid with a hit. -/
theorem search_spec {tie : Tie} {least : Int} (hgrid : (i.onGrid tie least).isSome) {steps : Nat}
    {exponent : Int} (hle : least ≤ exponent) (hsteps : exponent < least + steps) :
    least ≤ (i.search tie steps exponent).2 ∧
      i.holds (i.search tie steps exponent).2 (i.search tie steps exponent).1 = true := by
  induction steps generalizing exponent with
  | zero => omega
  | succ steps ih =>
    rw [search]
    split
    · next digits hfound => exact ⟨hle, holds_of_onGrid hfound⟩
    · next hnone =>
      have hne : exponent ≠ least := by
        rintro rfl
        rw [hnone] at hgrid
        cases hgrid
      exact ih (by omega) (by omega)

/-- Every interval around a large integer has a multiple of 1000. -/
theorem Around.isSome_onGrid {v : Nat} (h : i.Around v) (tie : Tie) : (i.onGrid tie 3).isSome := by
  have hpoint := fun c => @decimalPoint_whole i h.power 3 c
  have hbinary := fun k => @binaryPoint_whole i 3 (by decide) k
  have hlow := h.low_le
  have hhigh := h.le_high
  have hpow : (10 : Nat) ^ (3 : Int).toNat = 1000 := by decide
  simp only [hpow] at hpoint
  apply Interval.isSome_onGrid
  rw [hpoint, hbinary, h.value]
  -- the last multiple up to `v` is in the interval if it is nearer than the lower bound, else the next one is
  by_cases hrest : v % 1000 < 512
  · refine .inl (holds_of_between ?_ ?_) <;> rw [hpoint, hbinary] <;> omega
  · refine .inr (holds_of_between ?_ ?_) <;> rw [hpoint, hbinary] <;> omega

end Interval

/-- The shortest decimal of a large integer is a multiple of 1000 not far from it. -/
theorem shortest_large (hlow : 2 ^ 52 ≤ m) (hhigh : m ≤ 2 ^ 53) (tie : Tie) :
    ∃ digits exponent : Nat, 3 ≤ exponent ∧
      (coarse m).shortest tie = ⟨false, digits, exponent⟩ ∧
      2048 * m ≤ digits * 10 ^ exponent + 1024 ∧ digits * 10 ^ exponent ≤ 2048 * m + 2048 := by
  have haround := interval_around hlow hhigh
  have hstart : exponentAbove ((coarse m).significand.log2 + (coarse m).power) = 20 := by
    rcases significand_power_large hlow hhigh with ⟨hlt, hm, hp⟩ | ⟨rfl, hm, hp⟩
    · have hlog : m.log2 = 52 := (Nat.log2_eq_iff (by omega)).mpr ⟨hlow, hlt⟩
      rw [hm, hp, hlog]
      decide
    · rw [hm, hp, Nat.log2_two_pow]
      decide
  have hpositive : (coarse m).significand ≠ 0 := by
    rcases significand_power_large hlow hhigh with ⟨_, hm, _⟩ | ⟨_, hm, _⟩ <;> omega
  have hsearch := Interval.search_spec (haround.isSome_onGrid tie) (show 3 ≤ (20 : Int) by decide)
    (show (20 : Int) < 3 + (21 : Nat) by decide)
  rw [shortest, if_neg hpositive, hstart, isNegative_coarse hhigh]
  generalize (coarse m).interval.search tie 21 20 = found at hsearch ⊢
  obtain ⟨digits, exponent⟩ := found
  obtain ⟨hexponent, hholds⟩ : 3 ≤ exponent ∧ Interval.holds _ exponent digits = true := hsearch
  obtain ⟨k, rfl⟩ := Int.eq_ofNat_of_zero_le (show 0 ≤ exponent by omega)
  have hbetween := Interval.between_of_holds hholds
  rw [Interval.decimalPoint_whole haround.power, Interval.binaryPoint_whole (Int.natCast_nonneg k),
    Interval.binaryPoint_whole (Int.natCast_nonneg k), Int.toNat_natCast] at hbetween
  have hl := haround.le_low
  have hh := haround.high_le
  exact ⟨digits, k, by omega, rfl, by omega, by omega⟩

/-- A large integer is written as a multiple of 1000 not far from it. -/
theorem plain_nearest_large (hlow : 2 ^ 63 ≤ n) (hhigh : n < 2 ^ 64) :
    ∃ digits exponent : Nat, 3 ≤ exponent ∧
      (nearest n).plain = String.ofList (Nat.toDigits 10 digits ++ zeros exponent) ∧
      n ≤ digits * 10 ^ exponent + 2048 ∧ digits * 10 ^ exponent ≤ n + 3072 := by
  have hround := @roundQuotient_near n 2048 (by decide)
  rw [nearest_large hlow hhigh]
  generalize roundQuotient n 2048 = m at hround ⊢
  have hm : m ≤ 2 ^ 53 := by omega
  have hnan : (coarse m).isNan = false := by
    rw [isNan, magnitude_coarse hm, decide_eq_false_iff_not, Nat.shiftLeft_eq]
    omega
  have hfinite : (coarse m).isFinite = true := by
    rw [isFinite, magnitude_coarse hm, decide_eq_true_iff, Nat.shiftLeft_eq]
    omega
  obtain ⟨digits, exponent, hexponent, hshortest, hl, hh⟩ :=
    @shortest_large m (by omega) (by omega) .up
  refine ⟨digits, exponent, hexponent, ?_, by omega, by omega⟩
  simp [plain, hnan, hfinite, hshortest, positional, signed]

end GraphPlan.Decimal.Double
