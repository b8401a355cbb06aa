/-
The binary numbers of double precision, and their arithmetic.

A finite number is an integer of at most 53 bits times a power of two.  An operation
computes with the rational values and rounds the result to the nearest number, to the even
one where two are as near; a result that is too large becomes infinite.  Negative zero is
not told apart from zero.

* `round` — the nearest number, without a bound on the exponent;
* `round_of_isDouble`, `isDouble_round` — the numbers are what is rounded to itself;
* `round_le`, `le_round` — rounding does not step over a number;
* `nearest` — the nearest number to an integer, itself up to 2^53;
* `Number` — the numbers with the infinities and NaN, and their operations.
-/
import Mathlib.Data.Int.Log
import Mathlib.Data.Rat.Floor
import Mathlib.Tactic

namespace Double

/-! ### Rounding to integers -/

/-- The nearest integer, the even one of two. -/
def roundInt (q : ℚ) : ℤ :=
  if q - ⌊q⌋ < 1 / 2 then ⌊q⌋
  else if 1 / 2 < q - ⌊q⌋ then ⌊q⌋ + 1
  else ⌊q⌋ + ⌊q⌋ % 2

@[simp] theorem roundInt_intCast (n : ℤ) : roundInt (n : ℚ) = n := by
  simp [roundInt]

theorem roundInt_eq_floor_or (q : ℚ) : roundInt q = ⌊q⌋ ∨ roundInt q = ⌊q⌋ + 1 := by
  rw [roundInt]
  split_ifs
  · exact .inl rfl
  · exact .inr rfl
  · omega

theorem roundInt_le {q : ℚ} {n : ℤ} (h : q ≤ n) : roundInt q ≤ n := by
  rcases h.eq_or_lt with rfl | hlt
  · rw [roundInt_intCast]
  · have hfloor : ⌊q⌋ < n := Int.floor_lt.mpr hlt
    rcases roundInt_eq_floor_or q with hround | hround <;> omega

theorem le_roundInt {q : ℚ} {n : ℤ} (h : n ≤ q) : n ≤ roundInt q := by
  have hfloor : n ≤ ⌊q⌋ := Int.le_floor.mpr h
  rcases roundInt_eq_floor_or q with hround | hround <;> omega

theorem roundInt_neg (q : ℚ) : roundInt (-q) = -roundInt q := by
  by_cases hint : (⌊q⌋ : ℚ) = q
  · have hneg : -q = ((-⌊q⌋ : ℤ) : ℚ) := by rw [Int.cast_neg, hint]
    rw [hneg, roundInt_intCast]
    nth_rewrite 2 [← hint]
    rw [roundInt_intCast]
  · have hle := Int.floor_le q
    have hlt := Int.lt_floor_add_one q
    have hpos : (⌊q⌋ : ℚ) < q := lt_of_le_of_ne hle hint
    have hfloor : ⌊-q⌋ = -⌊q⌋ - 1 := by
      refine Int.floor_eq_iff.mpr ⟨?_, ?_⟩
      · push_cast
        linarith
      · push_cast
        linarith
    rw [roundInt, roundInt, hfloor]
    push_cast
    -- the distances to the two neighbours change places
    split_ifs
    all_goals first
      | omega
      | (exfalso; linarith)

/-! ### Rounding to numbers -/

/-- The exponent of the last place of a number of the size of `q`. -/
def quantum (q : ℚ) : ℤ := max (Int.log 2 |q| - 52) (-1074)

/-- The nearest number, if there were no largest one. -/
def round (q : ℚ) : ℚ := roundInt (q / 2 ^ quantum q) * 2 ^ quantum q

/-- An integer of 53 bits times a power of two, none smaller than the least. -/
def Scaled (q : ℚ) : Prop := ∃ m e : ℤ, |m| < 2 ^ 53 ∧ -1074 ≤ e ∧ q = m * 2 ^ e

/-- The finite numbers. -/
def IsDouble (q : ℚ) : Prop := Scaled q ∧ |q| < 2 ^ 1024

variable {q c : ℚ} {m e : ℤ}

theorem zpow_pos (e : ℤ) : (0 : ℚ) < 2 ^ e := by positivity

theorem zpow_add (a b : ℤ) : (2 : ℚ) ^ (a + b) = 2 ^ a * 2 ^ b :=
  zpow_add₀ (by norm_num) a b

/-- A multiple of a larger power of two is one of a smaller. -/
theorem exists_int_div {k : ℤ} (hk : k ≤ e) : ∃ n : ℤ, (m : ℚ) * 2 ^ e / 2 ^ k = n := by
  obtain ⟨d, rfl⟩ := Int.le.dest hk
  refine ⟨m * 2 ^ d, ?_⟩
  rw [zpow_add, zpow_natCast]
  push_cast
  field_simp

theorem abs_lt_of_scaled (hm : |m| < 2 ^ 53) : |(m : ℚ) * 2 ^ e| < 2 ^ (e + 53) := by
  have hm : |(m : ℚ)| < 2 ^ (53 : ℤ) := by exact_mod_cast hm
  rw [abs_mul, abs_of_pos (zpow_pos e), zpow_add, mul_comm]
  exact mul_lt_mul_of_pos_left hm (zpow_pos e)

/-- The last place of a number is not above that of any way to write it. -/
theorem quantum_le (hm : |m| < 2 ^ 53) (he : -1074 ≤ e) (hq : (m : ℚ) * 2 ^ e ≠ 0) :
    quantum ((m : ℚ) * 2 ^ e) ≤ e := by
  have hlog : Int.log 2 |(m : ℚ) * 2 ^ e| < e + 53 :=
    (Int.lt_zpow_iff_log_lt Nat.one_lt_two (abs_pos.mpr hq)).mp
      (by exact_mod_cast abs_lt_of_scaled hm)
  rw [quantum]
  omega

@[simp] theorem round_zero : round 0 = 0 := by
  rw [round, zero_div]
  have hzero : roundInt 0 = 0 := by exact_mod_cast roundInt_intCast 0
  rw [hzero, Int.cast_zero, zero_mul]

theorem round_of_scaled (h : Scaled q) : round q = q := by
  obtain ⟨m, e, hm, he, rfl⟩ := h
  by_cases hq : (m : ℚ) * 2 ^ e = 0
  · rw [hq, round_zero]
  · obtain ⟨n, hn⟩ := exists_int_div (m := m) (quantum_le hm he hq)
    rw [round, hn, roundInt_intCast, ← hn]
    exact div_mul_cancel₀ _ (zpow_pos _).ne'

theorem round_of_isDouble (h : IsDouble q) : round q = q := round_of_scaled h.1

/-- In units of the last place there are 53 bits. -/
theorem abs_div_quantum_lt (q : ℚ) : |q / 2 ^ quantum q| < 2 ^ 53 := by
  rw [abs_div, abs_of_pos (zpow_pos _), div_lt_iff₀ (zpow_pos _)]
  have hlt : |q| < 2 ^ (Int.log 2 |q| + 1) := by
    exact_mod_cast Int.lt_zpow_succ_log_self Nat.one_lt_two |q|
  refine hlt.trans_le ?_
  have hexp : (2 : ℚ) ^ 53 * 2 ^ quantum q = 2 ^ (53 + quantum q) := by
    rw [zpow_add]
    norm_cast
  rw [hexp]
  refine zpow_le_zpow_right₀ (by norm_num) ?_
  rw [quantum]
  omega

theorem scaled_round (q : ℚ) : Scaled (round q) := by
  have habs := abs_lt.mp (abs_div_quantum_lt q)
  have hle : roundInt (q / 2 ^ quantum q) ≤ 2 ^ 53 := roundInt_le (by push_cast; exact habs.2.le)
  have hge : -2 ^ 53 ≤ roundInt (q / 2 ^ quantum q) :=
    le_roundInt (by push_cast; exact habs.1.le)
  have hquantum : -1074 ≤ quantum q := le_max_right ..
  rw [round]
  generalize roundInt (q / 2 ^ quantum q) = n at hle hge
  by_cases hn : |n| < 2 ^ 53
  · exact ⟨n, quantum q, hn, hquantum, rfl⟩
  · -- the next power of two
    have hn : n = 2 ^ 53 ∨ n = -2 ^ 53 := by
      rw [abs_lt] at hn
      omega
    have hexp : (2 : ℚ) ^ (quantum q + 53) = 2 ^ 53 * 2 ^ quantum q := by
      rw [zpow_add, mul_comm]
      norm_cast
    rcases hn with rfl | rfl
    · refine ⟨1, quantum q + 53, by norm_num, by omega, ?_⟩
      rw [hexp]
      push_cast
      ring
    · refine ⟨-1, quantum q + 53, by norm_num, by omega, ?_⟩
      rw [hexp]
      push_cast
      ring

theorem isDouble_round (h : |round q| < 2 ^ 1024) : IsDouble (round q) := ⟨scaled_round q, h⟩

theorem Scaled.neg (h : Scaled q) : Scaled (-q) := by
  obtain ⟨m, e, hm, he, rfl⟩ := h
  refine ⟨-m, e, by rwa [abs_neg], he, ?_⟩
  push_cast
  ring

theorem IsDouble.neg (h : IsDouble q) : IsDouble (-q) := ⟨h.1.neg, by rw [abs_neg]; exact h.2⟩

/-- Rounding does not step over a number. -/
theorem round_le (hc : Scaled c) (h : q ≤ c) : round q ≤ c := by
  by_cases hzero : q = 0
  · rwa [hzero, round_zero, ← hzero]
  obtain ⟨m, e, hm, he, rfl⟩ := hc
  have hpos := zpow_pos (quantum q)
  rw [round, ← le_div_iff₀ hpos]
  by_cases hk : quantum q ≤ e
  · have hdiv : q / 2 ^ quantum q ≤ (m : ℚ) * 2 ^ e / 2 ^ quantum q := by gcongr
    obtain ⟨n, hn⟩ := exists_int_div (m := m) hk
    rw [hn] at hdiv ⊢
    exact_mod_cast roundInt_le hdiv
  · -- the number is smaller than all of the size of `q`, which hence is negative
    have hlog : Int.log 2 |q| = quantum q + 52 := by
      rw [quantum] at hk ⊢
      omega
    have hlarge : (2 : ℚ) ^ (quantum q + 52) ≤ |q| := by
      rw [← hlog]
      exact_mod_cast Int.zpow_log_le_self Nat.one_lt_two (abs_pos.mpr hzero)
    have hsmall : |(m : ℚ) * 2 ^ e| < 2 ^ (quantum q + 52) :=
      (abs_lt_of_scaled hm).trans_le (zpow_le_zpow_right₀ (by norm_num) (by omega))
    have hexp : (2 : ℚ) ^ (quantum q + 52) = 2 ^ 52 * 2 ^ quantum q := by
      rw [zpow_add, mul_comm]
      norm_cast
    rw [hexp] at hlarge hsmall
    obtain ⟨hlow, -⟩ := abs_lt.mp hsmall
    have hq : q ≤ -(2 ^ 52 * 2 ^ quantum q) := by
      rcases abs_cases q with ⟨habs, -⟩ | ⟨habs, -⟩
      · have hle := le_abs_self ((m : ℚ) * 2 ^ e)
        linarith
      · linarith
    have hround : roundInt (q / 2 ^ quantum q) ≤ -2 ^ 52 := by
      refine roundInt_le ?_
      rw [div_le_iff₀ hpos]
      push_cast
      linarith
    have hround : (roundInt (q / 2 ^ quantum q) : ℚ) ≤ -2 ^ 52 := by exact_mod_cast hround
    refine hround.trans ?_
    rw [le_div_iff₀ hpos]
    linarith

theorem round_neg (q : ℚ) : round (-q) = -round q := by
  rw [round, round, quantum, quantum, abs_neg, neg_div, roundInt_neg, Int.cast_neg, neg_mul]

theorem le_round (hc : Scaled c) (h : c ≤ q) : c ≤ round q := by
  have hneg : round (-q) ≤ -c := round_le hc.neg (neg_le_neg h)
  rw [round_neg] at hneg
  exact neg_le_neg_iff.mp hneg

/-! ### Integers -/

/-- Up to 2^53 every integer is a number. -/
theorem scaled_intCast {n : ℤ} (h : |n| ≤ 2 ^ 53) : Scaled n := by
  by_cases hlt : |n| < 2 ^ 53
  · refine ⟨n, 0, hlt, by norm_num, ?_⟩
    rw [zpow_zero, mul_one]
  · have hn : n = 2 ^ 53 ∨ n = -2 ^ 53 := by
      rcases abs_cases n with ⟨habs, -⟩ | ⟨habs, -⟩
      · exact .inl (by omega)
      · exact .inr (by omega)
    rcases hn with rfl | rfl
    · exact ⟨1, 53, by norm_num, by norm_num, by norm_num⟩
    · exact ⟨-1, 53, by norm_num, by norm_num, by norm_num⟩

theorem isDouble_intCast {n : ℤ} (h : |n| ≤ 2 ^ 53) : IsDouble n := by
  refine ⟨scaled_intCast h, ?_⟩
  calc |(n : ℚ)| ≤ 2 ^ 53 := by exact_mod_cast h
    _ < 2 ^ 1024 := pow_lt_pow_right₀ (by norm_num) (by norm_num)

/-- The whole part of a number is a number. -/
theorem Scaled.floor (h : Scaled q) : Scaled (⌊q⌋ : ℤ) := by
  obtain ⟨m, e, hm, he, rfl⟩ := h
  rcases le_or_gt 0 e with hwhole | hneg
  · obtain ⟨n, hn⟩ := exists_int_div (m := m) hwhole
    rw [zpow_zero, div_one] at hn
    rw [hn, Int.floor_intCast, ← hn]
    exact ⟨m, e, hm, he, rfl⟩
  · -- with a fraction it is below 2^53, where every integer is a number
    refine scaled_intCast ?_
    have hone : (2 : ℚ) ^ e ≤ 1 := zpow_le_one_of_nonpos₀ (by norm_num) hneg.le
    have hsmall : |(m : ℚ) * 2 ^ e| < 2 ^ 53 := by
      rw [abs_mul, abs_of_pos (zpow_pos e)]
      have hm' : |(m : ℚ)| < 2 ^ 53 := by exact_mod_cast hm
      exact (mul_le_of_le_one_right (abs_nonneg _) hone).trans_lt hm'
    rw [abs_lt] at hsmall
    have hlow : -(2 : ℤ) ^ 53 ≤ ⌊(m : ℚ) * 2 ^ e⌋ := by
      rw [Int.le_floor]
      push_cast
      exact hsmall.1.le
    have hhigh : ⌊(m : ℚ) * 2 ^ e⌋ < (2 : ℤ) ^ 53 := by
      rw [Int.floor_lt]
      push_cast
      exact hsmall.2
    rw [abs_le]
    exact ⟨hlow, hhigh.le⟩

theorem isDouble_zero : IsDouble 0 := by
  exact_mod_cast isDouble_intCast (n := 0) (by norm_num)

/-- The nearest number to an integer is an integer. -/
def nearest (n : ℤ) : ℤ := ⌊round n⌋

theorem nearest_of_le {n : ℤ} (h : |n| ≤ 2 ^ 53) : nearest n = n := by
  rw [nearest, round_of_scaled (scaled_intCast h), Int.floor_intCast]

theorem cast_nearest (n : ℤ) : (nearest n : ℚ) = round n := by
  by_cases h : |n| ≤ 2 ^ 53
  · rw [nearest_of_le h, round_of_scaled (scaled_intCast h)]
  · have hlarge : (2 : ℚ) ^ (53 : ℤ) ≤ |(n : ℚ)| := by exact_mod_cast (lt_of_not_ge h).le
    have hlog : 53 ≤ Int.log 2 |(n : ℚ)| :=
      (Int.zpow_le_iff_le_log Nat.one_lt_two (lt_of_lt_of_le (zpow_pos 53) hlarge)).mp
        (by exact_mod_cast hlarge)
    -- the last place is a whole power of two
    have hquantum : 0 ≤ quantum n := by
      rw [quantum]
      omega
    obtain ⟨d, hd⟩ := Int.eq_ofNat_of_zero_le hquantum
    have hint : round n = ((roundInt (n / 2 ^ quantum n) * 2 ^ d : ℤ) : ℚ) := by
      rw [round, hd, zpow_natCast]
      push_cast
      rfl
    rw [nearest, hint, Int.floor_intCast]

theorem scaled_nearest (n : ℤ) : Scaled (nearest n) := by
  rw [cast_nearest]
  exact scaled_round n

theorem Scaled.le_nearest {a n : ℤ} (ha : Scaled a) (h : a ≤ n) : a ≤ nearest n := by
  have hround : (a : ℚ) ≤ round n := le_round ha (by exact_mod_cast h)
  rw [← cast_nearest] at hround
  exact_mod_cast hround

theorem le_nearest {a n : ℤ} (ha : |a| ≤ 2 ^ 53) (h : a ≤ n) : a ≤ nearest n :=
  (scaled_intCast ha).le_nearest h

/-- The first integer that is no number. -/
theorem nearest_two_pow_add_one : nearest (2 ^ 53 + 1) = 2 ^ 53 := by
  have hlog : Int.log 2 |((2 ^ 53 + 1 : ℤ) : ℚ)| = 53 := by
    have hcast : |((2 ^ 53 + 1 : ℤ) : ℚ)| = ((2 ^ 53 + 1 : ℕ) : ℚ) := by norm_num
    rw [hcast, Int.log_natCast]
    norm_num
  have hquantum : quantum ((2 ^ 53 + 1 : ℤ) : ℚ) = 1 := by
    rw [quantum, hlog]
    rfl
  have hfloor : ⌊((2 ^ 53 + 1 : ℤ) : ℚ) / 2 ^ (1 : ℤ)⌋ = 2 ^ 52 := by
    refine Int.floor_eq_iff.mpr ⟨?_, ?_⟩ <;> norm_num
  have hround : round ((2 ^ 53 + 1 : ℤ) : ℚ) = ((2 ^ 53 : ℤ) : ℚ) := by
    rw [round, hquantum, roundInt, hfloor]
    norm_num
  rw [nearest, hround, Int.floor_intCast]

/-! ### The numbers with infinities and NaN -/

inductive Number
  | finite (q : ℚ) (h : IsDouble q)
  | infinity
  | negInfinity
  | nan

namespace Number

/-- The number for a rational value. -/
def ofRat (q : ℚ) : Number :=
  if h : |round q| < 2 ^ 1024 then .finite (round q) (isDouble_round h)
  else if 0 < q then .infinity
  else .negInfinity

def neg : Number → Number
  | finite q h => finite (-q) h.neg
  | infinity => negInfinity
  | negInfinity => infinity
  | nan => nan

def sub : Number → Number → Number
  | finite p _, finite q _ => ofRat (p - q)
  | nan, _ => nan
  | _, nan => nan
  | infinity, infinity => nan
  | negInfinity, negInfinity => nan
  | infinity, _ => infinity
  | _, negInfinity => infinity
  | negInfinity, _ => negInfinity
  | _, infinity => negInfinity

/-- Division; `q / 0` is taken to be by the positive zero. -/
def div : Number → Number → Number
  | finite p _, finite q _ =>
    if q = 0 then
      if p = 0 then nan else if 0 < p then infinity else negInfinity
    else ofRat (p / q)
  | finite _ _, infinity => finite 0 isDouble_zero
  | finite _ _, negInfinity => finite 0 isDouble_zero
  | infinity, finite q _ => if 0 ≤ q then infinity else negInfinity
  | negInfinity, finite q _ => if 0 ≤ q then negInfinity else infinity
  | _, _ => nan

/-- `x < y` -/
def lt : Number → Number → Bool
  | finite p _, finite q _ => p < q
  | finite _ _, infinity => true
  | negInfinity, finite _ _ => true
  | negInfinity, infinity => true
  | _, _ => false

/-- `x <= y` -/
def le : Number → Number → Bool
  | finite p _, finite q _ => p ≤ q
  | finite _ _, infinity => true
  | negInfinity, finite _ _ => true
  | negInfinity, infinity => true
  | infinity, infinity => true
  | negInfinity, negInfinity => true
  | _, _ => false

def isFinite : Number → Bool
  | finite _ _ => true
  | _ => false

/-- A number that is a natural number. -/
def natural : Number → Option ℕ
  | finite q _ => if q.den = 1 ∧ 0 ≤ q.num then some q.num.toNat else none
  | _ => none

theorem ofRat_of_round {p : ℚ} (h : IsDouble q) (hround : round p = q) :
    ofRat p = finite q h := by
  subst hround
  rw [ofRat, dif_pos h.2]

theorem ofRat_of_isDouble (h : IsDouble q) : ofRat q = finite q h :=
  ofRat_of_round h (round_of_isDouble h)

theorem natural_intCast {n : ℕ} (h : IsDouble ((n : ℤ) : ℚ)) :
    (finite ((n : ℤ) : ℚ) h).natural = some n := by
  rw [natural, if_pos ⟨Rat.den_intCast _, by rw [Rat.num_intCast]; exact Int.natCast_nonneg n⟩,
    Rat.num_intCast, Int.toNat_natCast]

end Number

end Double
