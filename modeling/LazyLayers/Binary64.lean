/-
The bit patterns of the numbers of double precision.

A pattern is a sign, eleven bits of an exponent and fifty-two bits of a fraction.  The
exponent of zeros is that of the numbers below 2^-1022, which have no hidden bit; the
exponent of ones is that of the infinities and of NaN.

* `ofBits` — the number of a pattern, of which any is one;
* `toBits` — the pattern of a number, which for zero and for NaN is one of several;
* `ofBits_toBits` — it is a pattern of that number;
* `ofBytes_toBytes` — so is what is written in eight bytes, the most significant first.
-/
import LazyLayers.Doubles
import LazyLayers.Sha256
import LazyLayers.MessagePack

namespace Double

/-! ### Patterns -/

/-- The eleven bits behind the sign. -/
def exponentField (w : ℕ) : ℕ := w / 2 ^ 52 % 2 ^ 11

def fractionField (w : ℕ) : ℕ := w % 2 ^ 52

/-- The sign is the first of sixty-four bits. -/
def signField (w : ℕ) : Bool := w / 2 ^ 63 % 2 = 1

/-- The size of a finite number. -/
def magnitude (w : ℕ) : ℚ :=
  if exponentField w = 0 then (fractionField w : ℤ) * 2 ^ (-1074 : ℤ)
  else ((2 ^ 52 + fractionField w : ℕ) : ℤ) * 2 ^ ((exponentField w : ℤ) - 1075)

theorem exponentField_lt (w : ℕ) : exponentField w < 2048 := Nat.mod_lt _ (by norm_num)

theorem fractionField_lt (w : ℕ) : fractionField w < 2 ^ 52 := Nat.mod_lt _ (by norm_num)

theorem isDouble_magnitude {w : ℕ} (h : exponentField w ≠ 2047) : IsDouble (magnitude w) := by
  have hexp := exponentField_lt w
  have hfrac := fractionField_lt w
  obtain ⟨m, e, hm, hlow, hhigh, heq⟩ : ∃ m e : ℤ, |m| < 2 ^ 53 ∧ -1074 ≤ e ∧ e ≤ 971 ∧
      magnitude w = m * 2 ^ e := by
    rw [magnitude]
    split_ifs with hzero
    · exact ⟨_, _, by rw [Nat.abs_cast]; omega, le_rfl, by norm_num, rfl⟩
    · exact ⟨_, _, by rw [Nat.abs_cast]; push_cast; omega, by omega, by omega, rfl⟩
  refine ⟨⟨m, e, hm, hlow, heq⟩, ?_⟩
  rw [heq]
  refine (abs_lt_of_scaled hm).trans_le ?_
  have htop : (2 : ℚ) ^ (e + 53) ≤ 2 ^ (1024 : ℤ) := zpow_le_zpow_right₀ (by norm_num) (by omega)
  exact_mod_cast htop

/-- The number of a pattern. -/
def ofBits (w : ℕ) : Number :=
  if h : exponentField w = 2047 then
    if fractionField w = 0 then if signField w then .negInfinity else .infinity else .nan
  else if signField w then .finite (-magnitude w) (isDouble_magnitude h).neg
  else .finite (magnitude w) (isDouble_magnitude h)

/-! ### The pattern of a number -/

/-- The exponent and the fraction of a finite number; the hidden bit raises the exponent
by one. -/
def magnitudeBits (q : ℚ) : ℕ :=
  if q = 0 then 0 else (quantum q + 1074).toNat * 2 ^ 52 + ⌊|q| / 2 ^ quantum q⌋.toNat

def toBits : Number → ℕ
  | .finite q _ => (if q < 0 then 2 ^ 63 else 0) + magnitudeBits q
  | .infinity => 2047 * 2 ^ 52
  | .negInfinity => 2 ^ 63 + 2047 * 2 ^ 52
  | .nan => 2047 * 2 ^ 52 + 2 ^ 51

variable {q : ℚ}

/-- A number is a whole number of units of its last place, as many as 53 bits hold.  Only
the least unit is not taken full. -/
theorem exists_units (h : IsDouble q) (hq : q ≠ 0) : ∃ m k : ℕ, |q| = m * 2 ^ ((k : ℤ) - 1074) ∧
    magnitudeBits q = k * 2 ^ 52 + m ∧ m < 2 ^ 53 ∧ k ≤ 2045 ∧ (2 ^ 52 ≤ m ∨ k = 0) := by
  have hpos := zpow_pos (quantum q)
  have hlow : -1074 ≤ quantum q := le_max_right ..
  obtain ⟨n, hn⟩ : ∃ n : ℕ, |q| / 2 ^ quantum q = n := by
    obtain ⟨⟨m, e, hm, he, rfl⟩, -⟩ := h
    obtain ⟨n, hn⟩ := exists_int_div (m := m) (quantum_le hm he hq)
    refine ⟨n.natAbs, ?_⟩
    have habs : |(m : ℚ) * 2 ^ e| / 2 ^ quantum ((m : ℚ) * 2 ^ e) = |(n : ℚ)| := by
      rw [← hn, abs_div, abs_of_pos hpos]
    rw [habs, Nat.cast_natAbs, Int.cast_abs]
  obtain ⟨k, hk⟩ := Int.eq_ofNat_of_zero_le (show 0 ≤ quantum q + 1074 by omega)
  have hquantum : quantum q = (k : ℤ) - 1074 := by omega
  have hlog : Int.log 2 |q| < 1024 :=
    (Int.lt_zpow_iff_log_lt Nat.one_lt_two (abs_pos.mpr hq)).mp (by exact_mod_cast h.2)
  refine ⟨n, k, ?_, ?_, ?_, ?_, ?_⟩
  · rw [← hquantum, ← hn, div_mul_cancel₀ _ hpos.ne']
  · rw [magnitudeBits, if_neg hq, hn, hk, Int.floor_natCast]
    rfl
  · have hlt := abs_div_quantum_lt q
    rw [abs_div, abs_of_pos hpos, hn] at hlt
    exact_mod_cast hlt
  · rw [quantum] at hquantum
    omega
  · by_cases hleast : k = 0
    · exact .inr hleast
    · -- the unit was chosen by the size of the number
      have hunit : quantum q = Int.log 2 |q| - 52 := by
        rw [quantum] at hquantum ⊢
        omega
      have hge : (2 : ℚ) ^ Int.log 2 |q| ≤ |q| :=
        Int.zpow_log_le_self Nat.one_lt_two (abs_pos.mpr hq)
      have hsplit : (2 : ℚ) ^ Int.log 2 |q| = 2 ^ 52 * 2 ^ quantum q := by
        rw [show Int.log 2 |q| = 52 + quantum q by omega, zpow_add]
        norm_cast
      rw [hsplit, ← le_div_iff₀ hpos, hn] at hge
      exact .inl (by exact_mod_cast hge)

theorem magnitudeBits_lt (h : IsDouble q) : magnitudeBits q < 2047 * 2 ^ 52 := by
  by_cases hq : q = 0
  · rw [magnitudeBits, if_pos hq]
    norm_num
  · obtain ⟨m, k, -, hbits, hm, hk, -⟩ := exists_units h hq
    omega

theorem toBits_lt (x : Number) : toBits x < 2 ^ 64 := by
  cases x with
  | finite q h =>
    have hlt := magnitudeBits_lt h
    rw [toBits]
    split_ifs <;> omega
  | infinity | negInfinity | nan => norm_num [toBits]

/-! ### Back again -/

/-- The sign does not touch the other fields. -/
theorem fields_add_sign {w : ℕ} (h : w < 2 ^ 63) (negative : Bool) :
    let w' := (if negative then 2 ^ 63 else 0) + w
    signField w' = negative ∧ exponentField w' = exponentField w ∧
      fractionField w' = fractionField w := by
  cases negative with
  | false =>
    simp only [signField, Bool.false_eq_true, if_false, zero_add, and_true]
    rw [Nat.div_eq_of_lt h]
    rfl
  | true =>
    simp only [signField, exponentField, fractionField, if_true, decide_eq_true_eq]
    omega

theorem magnitude_magnitudeBits (h : IsDouble q) :
    exponentField (magnitudeBits q) ≠ 2047 ∧ magnitude (magnitudeBits q) = |q| := by
  by_cases hq : q = 0
  · subst hq
    simp [magnitudeBits, magnitude, exponentField, fractionField]
  · obtain ⟨m, k, habs, hbits, hm, hk, hfull⟩ := exists_units h hq
    rw [hbits]
    by_cases hhidden : 2 ^ 52 ≤ m
    · have hexp : exponentField (k * 2 ^ 52 + m) = k + 1 := by
        rw [exponentField]
        omega
      have hfrac : 2 ^ 52 + fractionField (k * 2 ^ 52 + m) = m := by
        rw [fractionField]
        omega
      refine ⟨by omega, ?_⟩
      rw [magnitude, if_neg (by omega), hfrac, hexp, habs]
      push_cast
      congr 2
      ring
    · obtain rfl := hfull.resolve_left hhidden
      have hexp : exponentField (0 * 2 ^ 52 + m) = 0 := by
        rw [exponentField]
        omega
      have hfrac : fractionField (0 * 2 ^ 52 + m) = m := by
        rw [fractionField]
        omega
      refine ⟨by omega, ?_⟩
      rw [magnitude, if_pos hexp, hfrac, habs]
      simp

theorem ofBits_toBits (x : Number) : ofBits (toBits x) = x := by
  cases x with
  | finite q h =>
    obtain ⟨hfinite, hmagnitude⟩ := magnitude_magnitudeBits h
    have hlt : magnitudeBits q < 2 ^ 63 := (magnitudeBits_lt h).trans (by norm_num)
    have hfields := fields_add_sign hlt (decide (q < 0))
    simp only [decide_eq_true_eq] at hfields
    rw [toBits]
    obtain ⟨hsign, hexp, hfrac⟩ := hfields
    generalize (if q < 0 then 2 ^ 63 else 0) + magnitudeBits q = w at hsign hexp hfrac
    have hsame : magnitude w = |q| := by
      rw [← hmagnitude, magnitude, magnitude, hexp, hfrac]
    rw [ofBits, dif_neg (by rwa [hexp])]
    simp only [hsame, hsign, decide_eq_true_eq]
    split_ifs with hneg
    · simp only [abs_of_neg hneg, neg_neg]
    · simp only [abs_of_nonneg (not_lt.mp hneg)]
  | infinity | negInfinity | nan => rfl

/-! ### Bytes -/

theorem bigEndian_append (bytes : List UInt8) : ∀ l : List UInt8,
    DecodeValidation.bigEndian (bytes ++ l) =
      DecodeValidation.bigEndian bytes * 256 ^ l.length + DecodeValidation.bigEndian l := by
  intro l
  induction l using List.reverseRecOn with
  | nil => simp [DecodeValidation.bigEndian]
  | append_singleton l byte ih =>
    rw [DecodeValidation.bigEndian] at ih ⊢
    rw [← List.append_assoc, List.foldl_append, ih]
    simp only [DecodeValidation.bigEndian, List.foldl_append, List.foldl_cons, List.foldl_nil,
      List.length_append, List.length_singleton, pow_succ]
    ring

/-- What is written in enough bytes is read back. -/
theorem bigEndian_bigEndian (width n : ℕ) :
    DecodeValidation.bigEndian (Sha256.bigEndian width n) = n % 256 ^ width := by
  induction width with
  | zero => simp [Sha256.bigEndian, DecodeValidation.bigEndian, Nat.mod_one]
  | succ width ih =>
    have hcons := bigEndian_append [UInt8.ofNat (n / 256 ^ width % 256)] (Sha256.bigEndian width n)
    rw [List.singleton_append] at hcons
    rw [Sha256.bigEndian, hcons, ih, Sha256.length_bigEndian, pow_succ, Nat.mod_mul]
    simp [DecodeValidation.bigEndian]
    ring

/-- `DataView.setFloat64` -/
def toBytes (x : Number) : List UInt8 := Sha256.bigEndian 8 (toBits x)

/-- `DataView.getFloat64` -/
def ofBytes (bytes : List UInt8) : Number := ofBits (DecodeValidation.bigEndian bytes)

theorem length_toBytes (x : Number) : (toBytes x).length = 8 := Sha256.length_bigEndian 8 _

theorem ofBytes_toBytes (x : Number) : ofBytes (toBytes x) = x := by
  rw [ofBytes, toBytes, bigEndian_bigEndian, Nat.mod_eq_of_lt ((toBits_lt x).trans_eq (by norm_num)),
    ofBits_toBits]

end Double
