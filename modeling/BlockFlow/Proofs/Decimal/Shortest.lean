import BlockFlow.Decimal.Shortest
import Mathlib.Algebra.Order.Field.Rat
import Mathlib.Algebra.Order.Field.Power
import Mathlib.Data.Nat.Cast.Order.Field
import Mathlib.Tactic.Linarith
import Mathlib.Tactic.NormNum
import Mathlib.Tactic.Positivity
import Mathlib.Tactic.Ring
import Mathlib.Tactic.FieldSimp

/-!
The shortest decimals on exact numbers. Each number of double precision owns the reals that round to
it, no real has two owners, and seventeen digits reach every owner. Main statement: the shortest
decimal of a number determines the number.
-/

namespace BlockFlow.Decimal

def Binary.toRat (b : Binary) : ℚ := b.significand * 2 ^ b.exponent

def Digits.toRat (d : Digits) : ℚ := d.digits * 10 ^ d.exponent

/-- The magnitudes of double precision: 53 digits, the first of which is zero only at the least
exponent. -/
structure Binary.Canonical (b : Binary) : Prop where
  significand_lt : b.significand < 2 ^ 53
  le_exponent : -1074 ≤ b.exponent
  normal : -1074 < b.exponent → 2 ^ 52 ≤ b.significand

theorem canonical_ofBits (bits : Nat) : (Binary.ofBits bits).Canonical := by
  have hfraction : bits % leastNormal < 2 ^ 52 := Nat.mod_lt _ (by decide)
  have hnormal : leastNormal = 2 ^ 52 := rfl
  unfold Binary.ofBits
  dsimp only
  split
  · exact ⟨by dsimp only; omega, le_rfl, fun h => absurd h (lt_irrefl _)⟩
  · rename_i hbiased
    refine ⟨?_, ?_, fun _ => ?_⟩ <;> dsimp only <;> omega

/-- Magnitudes differ when the bits other than the sign do. -/
theorem ofBits_injective {a b : Nat} (h : Binary.ofBits a = Binary.ofBits b) :
    a % 2 ^ 63 = b % 2 ^ 63 := by
  have hnormal : leastNormal = 2 ^ 52 := rfl
  have hleast : leastExponent = -1074 := rfl
  unfold Binary.ofBits at h
  rw [hnormal, hleast] at h
  have ha : a % 2 ^ 52 < 2 ^ 52 := Nat.mod_lt _ (by decide)
  have hb : b % 2 ^ 52 < 2 ^ 52 := Nat.mod_lt _ (by decide)
  dsimp only at h
  split at h <;> split at h <;> rw [Binary.mk.injEq] at h <;> omega

/-- How far down a number owns the reals, in quarters of its unit. -/
def Binary.below (b : Binary) : Nat :=
  if b.significand = leastNormal && leastExponent < b.exponent then 1 else 2

/-- The least real that a number owns, or half way to it. -/
def Binary.lower (b : Binary) : ℚ :=
  ((4 * b.significand - b.below : ℕ) : ℚ) * 2 ^ (b.exponent - 2)

def Binary.upper (b : Binary) : ℚ := ((4 * b.significand + 2 : ℕ) : ℚ) * 2 ^ (b.exponent - 2)

/-- A real rounds to a number. Half way, it rounds to the even significand. -/
structure Binary.Owns (b : Binary) (q : ℚ) : Prop where
  low : b.lower ≤ q
  high : q ≤ b.upper
  strict : b.significand % 2 = 1 → b.lower < q ∧ q < b.upper

section Scale

variable {a : ℚ} {b : Binary} {p q : ℤ} {m n : ℕ}

theorem zpow_mul_toNat (ha : a ≠ 0) (p : ℤ) : a ^ p * a ^ (-p).toNat = a ^ p.toNat := by
  rw [← zpow_natCast, ← zpow_natCast, ← zpow_add₀ ha]
  congr 1
  omega

theorem scaled_eq (m n : ℕ) (p q : ℤ) :
    (((m * 2 ^ q.toNat * 10 ^ (-p).toNat : ℕ) : ℚ) =
      m * 2 ^ q * (2 ^ (-q).toNat * 10 ^ (-p).toNat)) ∧
    (((n * (2 ^ (-q).toNat * 10 ^ p.toNat) : ℕ) : ℚ) =
      n * 10 ^ p * (2 ^ (-q).toNat * 10 ^ (-p).toNat)) := by
  have htwo := zpow_mul_toNat (a := 2) (by norm_num) q
  have hten := zpow_mul_toNat (a := 10) (by norm_num) p
  push_cast
  rw [← htwo, ← hten]
  constructor <;> ring

theorem scaled_le : m * 2 ^ q.toNat * 10 ^ (-p).toNat ≤ n * (2 ^ (-q).toNat * 10 ^ p.toNat) ↔
    (m : ℚ) * 2 ^ q ≤ n * 10 ^ p := by
  obtain ⟨hm, hn⟩ := scaled_eq m n p q
  rw [← Nat.cast_le (α := ℚ), hm, hn, mul_le_mul_iff_left₀ (by positivity)]

theorem le_scaled : n * (2 ^ (-q).toNat * 10 ^ p.toNat) ≤ m * 2 ^ q.toNat * 10 ^ (-p).toNat ↔
    (n : ℚ) * 10 ^ p ≤ m * 2 ^ q := by
  obtain ⟨hm, hn⟩ := scaled_eq m n p q
  rw [← Nat.cast_le (α := ℚ), hm, hn, mul_le_mul_iff_left₀ (by positivity)]

/-- The whole numbers that the search accepts are those that the number owns. -/
theorem contains_scale : (b.rounding.scale p).contains n = true ↔ b.Owns (n * 10 ^ p) := by
  have hlow : (b.rounding.scale p).low ≤ n * (b.rounding.scale p).denominator ↔
      b.lower ≤ n * 10 ^ p := scaled_le
  have hlow' : (b.rounding.scale p).low < n * (b.rounding.scale p).denominator ↔
      b.lower < n * 10 ^ p := not_le.symm.trans (le_scaled.not.trans not_le)
  have hhigh : n * (b.rounding.scale p).denominator ≤ (b.rounding.scale p).high ↔
      n * 10 ^ p ≤ b.upper := le_scaled
  have hhigh' : n * (b.rounding.scale p).denominator < (b.rounding.scale p).high ↔
      n * 10 ^ p < b.upper := not_le.symm.trans (scaled_le.not.trans not_le)
  have hclosed : (b.rounding.scale p).closed = (b.significand % 2 == 0) := rfl
  unfold Rounding.contains
  rw [hclosed]
  by_cases heven : b.significand % 2 = 0
  · simp only [heven, BEq.rfl, if_true, Bool.and_eq_true, decide_eq_true_eq, hlow, hhigh]
    exact ⟨fun h => ⟨h.1, h.2, by omega⟩, fun h => ⟨h.low, h.high⟩⟩
  · have hodd : b.significand % 2 = 1 := by omega
    have hfalse : (b.significand % 2 == 0) = false := by simp [hodd]
    simp only [hfalse, Bool.false_eq_true, if_false, Bool.and_eq_true, decide_eq_true_eq, hlow',
      hhigh']
    exact ⟨fun h => ⟨h.1.le, h.2.le, fun _ => h⟩, fun h => h.strict hodd⟩

end Scale

section Reach

variable {b : Binary} {q : ℚ} {p : ℤ} {r : Rounding}

theorem toRat_eq (b : Binary) : b.toRat = ((4 * b.significand : ℕ) : ℚ) * 2 ^ (b.exponent - 2) := by
  rw [Binary.toRat, zpow_sub₀ (by norm_num)]
  push_cast
  ring

theorem below_le_two (b : Binary) : b.below ≤ 2 := by
  unfold Binary.below
  split <;> omega

/-- Downwards a number owns at least the last of its 54 binary places. -/
theorem toRat_le_below (hb : b.Canonical) :
    b.toRat ≤ 2 ^ 54 * (b.below * 2 ^ (b.exponent - 2)) := by
  rw [toRat_eq]
  unfold Binary.below
  split
  · rename_i hpower
    have hleast : b.significand = 2 ^ 52 := by
      simp only [Bool.and_eq_true, decide_eq_true_eq] at hpower
      exact hpower.1
    rw [hleast]
    norm_num
  · have hle : ((4 * b.significand : ℕ) : ℚ) ≤ 2 ^ 55 := by
      have hnat : 4 * b.significand ≤ 2 ^ 55 := by
        have hbound := hb.significand_lt
        omega
      exact_mod_cast hnat
    calc ((4 * b.significand : ℕ) : ℚ) * 2 ^ (b.exponent - 2)
        ≤ 2 ^ 55 * 2 ^ (b.exponent - 2) := by gcongr
      _ = 2 ^ 54 * ((2 : ℕ) * 2 ^ (b.exponent - 2)) := by push_cast; ring

/-- A number owns what is nearer than the last of its 54 binary places. -/
theorem owns_of_near (hb : b.Canonical) (hs : b.significand ≠ 0)
    (h : 2 ^ 54 * |q - b.toRat| < b.toRat) : b.Owns q := by
  have hlower : b.lower = b.toRat - b.below * 2 ^ (b.exponent - 2) := by
    have hle : b.below ≤ 4 * b.significand := by
      have htwo := below_le_two b
      omega
    rw [Binary.lower, toRat_eq, Nat.cast_sub hle]
    ring
  have hupper : b.upper = b.toRat + 2 * 2 ^ (b.exponent - 2) := by
    rw [Binary.upper, toRat_eq]
    push_cast
    ring
  have hnear : |q - b.toRat| < b.below * 2 ^ (b.exponent - 2) := by
    have hbelow := toRat_le_below hb
    linarith
  have hwide : (b.below : ℚ) * 2 ^ (b.exponent - 2) ≤ 2 * 2 ^ (b.exponent - 2) := by
    have htwo : (b.below : ℚ) ≤ 2 := by exact_mod_cast below_le_two b
    gcongr
  obtain ⟨hdown, hup⟩ := abs_lt.mp hnear
  have hinside : b.lower < q ∧ q < b.upper := by
    rw [hlower, hupper]
    constructor <;> linarith
  exact ⟨hinside.1.le, hinside.2.le, fun _ => hinside⟩

theorem contains_of_nearest? {n : ℕ} (h : r.nearest? = some n) : r.contains n = true := by
  unfold Rounding.nearest? at h
  dsimp only at h
  split at h
  · split at h <;> cases h <;> assumption
  · cases h
    assumption
  · cases h
    assumption
  · cases h

theorem scale_zero (r : Rounding) : r.scale 0 = r := by
  cases r
  simp [Rounding.scale]

theorem denominator_scale_pos (b : Binary) (p : ℤ) : 0 < (b.rounding.scale p).denominator := by
  change 0 < Nat.pow 2 _ * Nat.pow 10 _
  exact Nat.mul_pos (Nat.pow_pos (by norm_num)) (Nat.pow_pos (by norm_num))

theorem value_scale (b : Binary) (p : ℤ) :
    ((b.rounding.scale p).value : ℚ) / (b.rounding.scale p).denominator = b.toRat / 10 ^ p := by
  obtain ⟨hv, -⟩ := scaled_eq (4 * b.significand) 0 p (b.exponent - 2)
  obtain ⟨-, hd⟩ := scaled_eq 0 1 p (b.exponent - 2)
  have hnum : ((b.rounding.scale p).value : ℚ) =
      b.toRat * (2 ^ (-(b.exponent - 2)).toNat * 10 ^ (-p).toNat) := by
    rw [toRat_eq]
    exact hv
  have hden : ((b.rounding.scale p).denominator : ℚ) =
      10 ^ p * (2 ^ (-(b.exponent - 2)).toNat * 10 ^ (-p).toNat) := by
    rw [one_mul, Nat.cast_one, one_mul] at hd
    exact hd
  rw [hnum, hden, mul_div_mul_right]
  positivity

/-- One of the two whole numbers around the value is owned when they lie close enough. -/
theorem owns_around (hb : b.Canonical) (hs : b.significand ≠ 0) (h : 10 ^ (p + 16) ≤ b.toRat)
    {n : ℕ} (hn : n = (b.rounding.scale p).value / (b.rounding.scale p).denominator) :
    b.Owns (n * 10 ^ p) ∨ b.Owns ((n + 1 : ℕ) * 10 ^ p) := by
  have hunit : (0 : ℚ) < 10 ^ p := by positivity
  have hten : (10 : ℚ) ^ (p + 16) = 10 ^ 16 * 10 ^ p := by
    rw [zpow_add₀ (by norm_num), mul_comm]
    norm_cast
  have hdenominator := denominator_scale_pos b p
  have hbelow : (n : ℚ) ≤ b.toRat / 10 ^ p := by
    rw [hn, ← value_scale]
    exact Nat.cast_div_le
  have habove : b.toRat / 10 ^ p < n + 1 := by
    rw [hn, ← value_scale, div_lt_iff₀ (by exact_mod_cast hdenominator), mul_comm]
    exact_mod_cast Nat.lt_mul_div_succ (b.rounding.scale p).value hdenominator
  rw [le_div_iff₀ hunit] at hbelow
  rw [div_lt_iff₀ hunit] at habove
  by_cases hhalf : b.toRat - n * 10 ^ p ≤ 10 ^ p / 2
  · left
    refine owns_of_near hb hs ?_
    rw [abs_sub_comm, abs_of_nonneg (by linarith)]
    linarith
  · right
    refine owns_of_near hb hs ?_
    push_cast
    rw [abs_of_nonneg (by linarith)]
    linarith

theorem exists_nearest? (hb : b.Canonical) (hs : b.significand ≠ 0)
    (h : 10 ^ (p + 16) ≤ b.toRat) : ∃ n, (b.rounding.scale p).nearest? = some n := by
  have hcontains := (owns_around hb hs h rfl).imp contains_scale.mpr contains_scale.mpr
  unfold Rounding.nearest?
  dsimp only
  split
  · split
    · exact ⟨_, rfl⟩
    · exact ⟨_, rfl⟩
  · exact ⟨_, rfl⟩
  · exact ⟨_, rfl⟩
  · rename_i hno hno'
    simp [hno, hno'] at hcontains

/-- The search ends at the first count of digits that reaches the interval. -/
theorem search_eq {magnitude : ℤ} {k : ℕ} (fuel count : ℕ) (hle : count ≤ k)
    (hlt : k < count + fuel) (h : ∃ n, (r.scale (magnitude - k)).nearest? = some n) :
    ∃ (n k : ℕ), (r.scale (magnitude - k)).nearest? = some n ∧
      r.search magnitude fuel count = ⟨n, magnitude - k⟩ := by
  induction fuel generalizing count with
  | zero => omega
  | succ fuel ih =>
    rw [Rounding.search]
    cases hfound : (r.scale (magnitude - count)).nearest? with
    | some n => exact ⟨n, count, hfound, rfl⟩
    | none =>
      obtain ⟨n, hn⟩ := h
      have hne : count ≠ k := by
        intro hex
        subst hex
        simp [hfound] at hn
      exact ih (count + 1) (by omega) (by omega)

theorem toRat_strip (fuel : ℕ) (d : Digits) : (d.strip fuel).toRat = d.toRat := by
  induction fuel generalizing d with
  | zero => rfl
  | succ fuel ih =>
    rw [Digits.strip]
    split
    · rename_i hzero
      rw [ih]
      have hdigits : (d.digits : ℚ) = (d.digits / 10 : ℕ) * 10 := by
        exact_mod_cast (Nat.div_mul_cancel (Nat.dvd_of_mod_eq_zero hzero)).symm
      simp only [Digits.toRat]
      rw [hdigits, zpow_add₀ (by norm_num), zpow_one]
      ring
    · rfl

/-- A number is not below the power of ten that its digits before the point tell. They are counted
after moving the point by `k` places. -/
theorem tenPower_le {v : ℚ} {n d k shift : ℕ} (hv : (n : ℚ) / d = v) (hd : 0 < d)
    (hshift : (shift : ℚ) = 10 ^ k) (hlarge : 1 ≤ v * 10 ^ k) :
    10 ^ (((Nat.toDigits 10 (n * shift / d)).length : ℤ) - k - 1) ≤ v := by
  have hdQ : (0 : ℚ) < d := by exact_mod_cast hd
  have hn : (n : ℚ) = v * d := (div_eq_iff hdQ.ne').mp hv
  set number := n * shift / d with hnumber
  have hpos : 0 < number := by
    refine Nat.div_pos ?_ hd
    have hle : (d : ℚ) ≤ n * shift := by
      rw [hn, hshift, mul_right_comm]
      exact le_mul_of_one_le_left hdQ.le hlarge
    exact_mod_cast hle
  have hlength : 0 < (Nat.toDigits 10 number).length := Nat.length_toDigits_pos
  have hdigits : 10 ^ ((Nat.toDigits 10 number).length - 1) ≤ number := by
    by_cases hone : (Nat.toDigits 10 number).length = 1
    · rw [hone]
      exact hpos
    · by_contra hlt
      have hle := (Nat.length_toDigits_le_iff (by norm_num) (by omega)).mpr (not_le.mp hlt)
      omega
  have hpower : (10 : ℚ) ^ ((Nat.toDigits 10 number).length - 1) ≤ v * 10 ^ k := by
    calc (10 : ℚ) ^ ((Nat.toDigits 10 number).length - 1) ≤ number := by exact_mod_cast hdigits
      _ ≤ (n * shift : ℕ) / d := Nat.cast_div_le
      _ = v * 10 ^ k := by
        rw [Nat.cast_mul, hn, hshift, mul_right_comm, mul_div_cancel_right₀ _ hdQ.ne']
  have hcount : ((Nat.toDigits 10 number).length : ℤ) - k - 1 =
      ((Nat.toDigits 10 number).length - 1 : ℕ) - (k : ℤ) := by omega
  rwa [hcount, zpow_sub₀ (by norm_num), zpow_natCast, zpow_natCast, div_le_iff₀ (by positivity)]

/-- No number but zero is so small that 400 places do not reach it. -/
theorem one_le_toRat_mul (hb : b.Canonical) (hs : b.significand ≠ 0) : 1 ≤ b.toRat * 10 ^ 400 := by
  have hten : (2 : ℚ) ^ 1074 ≤ 10 ^ 400 := by
    calc (2 : ℚ) ^ 1074 ≤ 2 ^ (27 * 40) := pow_le_pow_right₀ (by norm_num) (by norm_num)
      _ = (2 ^ 27) ^ 40 := pow_mul ..
      _ ≤ (10 ^ 10) ^ 40 := pow_le_pow_left₀ (by norm_num) (by norm_num) 40
      _ = 10 ^ (10 * 40) := (pow_mul ..).symm
  have hsignificand : (1 : ℚ) ≤ b.significand := by
    exact_mod_cast Nat.one_le_iff_ne_zero.mpr hs
  have hpower : (2 : ℚ) ^ (-1074 : ℤ) ≤ 2 ^ b.exponent :=
    zpow_le_zpow_right₀ (by norm_num) hb.le_exponent
  calc (1 : ℚ) = 1 * (2 ^ (-1074 : ℤ) * 2 ^ 1074) := by
        rw [one_mul, ← zpow_natCast, ← zpow_add₀ (by norm_num)]
        rfl
    _ ≤ b.significand * (2 ^ b.exponent * 10 ^ 400) := by gcongr
    _ = b.toRat * 10 ^ 400 := by rw [Binary.toRat, mul_assoc]

theorem magnitude_le (hb : b.Canonical) (hs : b.significand ≠ 0) :
    10 ^ (b.rounding.magnitude - 1) ≤ b.toRat := by
  have hden : 0 < b.rounding.denominator := Nat.pow_pos (by norm_num)
  have hvalue : (b.rounding.value : ℚ) / b.rounding.denominator = b.toRat := by
    have hscale := value_scale b 0
    rwa [scale_zero, zpow_zero, div_one] at hscale
  have hshift (k : ℕ) : ((Nat.pow 10 k : ℕ) : ℚ) = 10 ^ k := Nat.cast_pow 10 k
  exact tenPower_le hvalue hden (hshift _) (one_le_toRat_mul hb hs)

/-- Seventeen digits suffice: the shortest decimal of a number rounds to it. -/
theorem owns_shortest (hb : b.Canonical) (hs : b.significand ≠ 0) : b.Owns b.shortest.toRat := by
  have hmagnitude := magnitude_le hb hs
  have hreach : 10 ^ (b.rounding.magnitude - (17 : ℕ) + 16) ≤ b.toRat := by
    have hexponent : b.rounding.magnitude - (17 : ℕ) + 16 = b.rounding.magnitude - 1 := by
      push_cast
      ring
    rwa [hexponent]
  obtain ⟨n, k, hn, hsearch⟩ := search_eq (r := b.rounding) 17 1 (by norm_num) (by norm_num)
    (exists_nearest? hb hs hreach)
  have howned := contains_scale.mp (contains_of_nearest? hn)
  rw [Binary.shortest, if_neg hs]
  dsimp only
  rw [hsearch, toRat_strip]
  exact howned

end Reach

section Owners

variable {a b : Binary} {q : ℚ}

theorem lower_pos (hs : b.significand ≠ 0) : 0 < b.lower := by
  have hpos : 0 < 4 * b.significand - b.below := by
    unfold Binary.below
    split <;> omega
  unfold Binary.lower
  positivity

/-- One number lies above another when no real has both as owners. -/
def Binary.Above (b a : Binary) : Prop :=
  a.upper ≤ b.lower ∧ (a.upper = b.lower → a.significand % 2 = 1 ∨ b.significand % 2 = 1)

theorem Binary.Above.not_owns (h : b.Above a) (ha : a.Owns q) : ¬ b.Owns q := by
  intro hb
  have heq : a.upper = b.lower := le_antisymm h.1 (hb.low.trans ha.high)
  rcases h.2 heq with hodd | hodd
  · exact absurd (ha.strict hodd).2 (not_lt.mpr (heq.trans_le hb.low))
  · exact absurd (hb.strict hodd).1 (not_lt.mpr (ha.high.trans_eq heq))

theorem above_of_significand (he : a.exponent = b.exponent) (h : a.significand < b.significand) :
    b.Above a := by
  have hunit : (0 : ℚ) < 2 ^ (b.exponent - 2) := by positivity
  have hbelow : 1 ≤ b.below ∧ b.below ≤ 2 := by
    unfold Binary.below
    split <;> omega
  unfold Binary.Above Binary.upper Binary.lower
  rw [he, mul_le_mul_iff_left₀ hunit, mul_left_inj' hunit.ne', Nat.cast_le, Nat.cast_inj]
  omega

/-- Above the least exponent significands have all their digits, so a larger unit means a larger
number. -/
theorem above_of_exponent (ha : a.Canonical) (hb : b.Canonical) (h : a.exponent < b.exponent) :
    b.Above a := by
  have hunit : (0 : ℚ) < 2 ^ (a.exponent - 2) := by positivity
  have hlt := ha.significand_lt
  have hge := hb.normal (ha.le_exponent.trans_lt h)
  have hquarters : 2 ^ 54 - 1 ≤ 4 * b.significand - b.below := by
    have hnormal : leastNormal = 2 ^ 52 := rfl
    unfold Binary.below
    split
    · omega
    · rename_i hpower
      have hne : b.significand ≠ leastNormal := by
        simpa [leastExponent, ha.le_exponent.trans_lt h] using hpower
      omega
  have hdouble : (2 : ℚ) * 2 ^ (a.exponent - 2) ≤ 2 ^ (b.exponent - 2) := by
    rw [← zpow_one_add₀ (by norm_num)]
    exact zpow_le_zpow_right₀ (by norm_num) (by omega)
  have hlower : ((2 ^ 55 - 2 : ℕ) : ℚ) * 2 ^ (a.exponent - 2) ≤ b.lower := by
    calc ((2 ^ 55 - 2 : ℕ) : ℚ) * 2 ^ (a.exponent - 2)
        = ((2 ^ 54 - 1 : ℕ) : ℚ) * (2 * 2 ^ (a.exponent - 2)) := by norm_num; ring
      _ ≤ ((4 * b.significand - b.below : ℕ) : ℚ) * 2 ^ (b.exponent - 2) := by gcongr
  have hupper : a.upper ≤ ((2 ^ 55 - 2 : ℕ) : ℚ) * 2 ^ (a.exponent - 2) := by
    have hle : 4 * a.significand + 2 ≤ 2 ^ 55 - 2 := by omega
    unfold Binary.upper
    gcongr
  refine ⟨hupper.trans hlower, fun heq => .inl ?_⟩
  have hfull := le_antisymm hupper (heq ▸ hlower)
  rw [Binary.upper, mul_left_inj' hunit.ne', Nat.cast_inj] at hfull
  omega

/-- No real rounds to two numbers. -/
theorem Binary.Owns.unique (ha : a.Canonical) (hb : b.Canonical) (h : a.Owns q) (k : b.Owns q) :
    a = b := by
  rcases lt_trichotomy a.exponent b.exponent with he | he | he
  · exact absurd k ((above_of_exponent ha hb he).not_owns h)
  · rcases lt_trichotomy a.significand b.significand with hs | hs | hs
    · exact absurd k ((above_of_significand he hs).not_owns h)
    · cases a
      cases b
      exact congrArg₂ Binary.mk hs he
    · exact absurd h ((above_of_significand he.symm hs).not_owns k)
  · exact absurd h ((above_of_exponent hb ha he).not_owns k)

/-- The shortest decimal of a number determines it. -/
theorem shortest_injective (ha : a.Canonical) (hb : b.Canonical)
    (h : a.shortest.toRat = b.shortest.toRat) : a = b := by
  have hzero {c : Binary} (hc : c.Canonical) (hs : c.significand = 0) :
      c = ⟨0, -1074⟩ ∧ c.shortest.toRat = 0 := by
    have hexponent : c.exponent = -1074 := by
      have hle := hc.le_exponent
      have hnormal := hc.normal
      omega
    refine ⟨?_, ?_⟩
    · cases c
      exact congrArg₂ Binary.mk hs hexponent
    · simp [Binary.shortest, hs, Digits.toRat]
  have hpos {c : Binary} (hc : c.Canonical) (hs : c.significand ≠ 0) : 0 < c.shortest.toRat :=
    (lower_pos hs).trans_le (owns_shortest hc hs).low
  by_cases hsa : a.significand = 0
  · by_cases hsb : b.significand = 0
    · rw [(hzero ha hsa).1, (hzero hb hsb).1]
    · rw [(hzero ha hsa).2] at h
      exact absurd h (hpos hb hsb).ne
  · by_cases hsb : b.significand = 0
    · rw [(hzero hb hsb).2] at h
      exact absurd h (hpos ha hsa).ne'
    · exact (owns_shortest ha hsa).unique ha hb (h ▸ owns_shortest hb hsb)

end Owners

end BlockFlow.Decimal
