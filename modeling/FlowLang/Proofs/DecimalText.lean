import FlowLang.Decimal.Layout
import Mathlib.Algebra.Order.Field.Power
import Mathlib.Data.List.TakeWhile
import Mathlib.Data.Rat.Cast.Order
import Mathlib.Tactic.Linarith
import Mathlib.Tactic.Positivity
import Mathlib.Tactic.Ring

/-!
# The text of a number

The text of a double, as it is printed or listed, is a decimal that rounds to it and to no other
double, so two doubles with the same text are equal. Nothing is said here about the number of
digits.

* `Magnitude.Rounds x q`: the rational `q` is in the interval of the numbers that round to `x`.
* `Magnitude.shortest_rounds`: the decimal that is chosen for `x` is in the interval of `x`.
* `Magnitude.rounds_unique`: the intervals of different doubles have nothing in common.
* `Decimal.read_render`: the decimal can be read from its text, in every style.
* **`Binary64.text_inj`**: so the text of a double, in any style, says which one it is.
-/

namespace FlowLang

/-! ## The numbers that round to a double -/

/-- The exact value of a decimal. -/
def Decimal.value (d : Decimal) : ℚ := d.digits * 10 ^ d.exponent

/-- A power is the quotient of its positive and its negative part. -/
theorem zpow_mul_pow_toNat {a : ℚ} (ha : a ≠ 0) (e : ℤ) : a ^ e * a ^ (-e).toNat = a ^ e.toNat := by
  rw [← zpow_natCast, ← zpow_natCast, ← zpow_add₀ ha]
  congr 1
  omega

namespace Binary64.Magnitude

variable {x y : Magnitude}

/-- A quarter of the distance to the next larger double. -/
def step (x : Magnitude) : ℚ := 2 ^ x.exponent / 4

/-- The exact value. -/
def value (x : Magnitude) : ℚ := 4 * x.mantissa * x.step

/-- The lower end of the interval. -/
def low (x : Magnitude) : ℚ := (4 * x.mantissa - x.reachBelow : ℕ) * x.step

/-- The upper end of the interval. -/
def high (x : Magnitude) : ℚ := (4 * x.mantissa + 2 : ℕ) * x.step

/-- The number is in the interval. The ends belong to it if the mantissa is even. -/
def Rounds (x : Magnitude) (q : ℚ) : Prop :=
  if x.mantissa % 2 = 0 then x.low ≤ q ∧ q ≤ x.high else x.low < q ∧ q < x.high

theorem step_pos (x : Magnitude) : 0 < x.step := by
  unfold step
  positivity

/-- What a quarter is in units of `10 ^ p`. -/
theorem quarter_eq (x : Magnitude) (p : ℤ) :
    ((x.quarter p).1 : ℚ) * 10 ^ p = (x.quarter p).2 * x.step := by
  have h₂ := zpow_mul_pow_toNat (by norm_num : (2 : ℚ) ≠ 0) x.exponent
  have h₁₀ := zpow_mul_pow_toNat (by norm_num : (10 : ℚ) ≠ 0) p
  simp only [quarter, step, Nat.pow_eq, Nat.cast_mul, Nat.cast_pow, Nat.cast_ofNat]
  rw [← h₂, ← h₁₀]
  ring

theorem quarter_pos (x : Magnitude) (p : ℤ) : 0 < (x.quarter p).2 := by
  simp only [quarter, Nat.pow_eq]
  positivity

theorem mul_quarter (x : Magnitude) (p : ℤ) (a : ℕ) :
    (a * (x.quarter p).1 : ℕ) * (10 : ℚ) ^ p = a * x.step * (x.quarter p).2 := by
  rw [Nat.cast_mul, mul_assoc, x.quarter_eq p]
  ring

/-- Quarters are compared with units as the numbers that they stand for. -/
theorem mul_quarter_le (x : Magnitude) (p : ℤ) (a c : ℕ) :
    a * (x.quarter p).1 ≤ c * (x.quarter p).2 ↔ (a : ℚ) * x.step ≤ c * 10 ^ p := by
  have hd : (0 : ℚ) < (x.quarter p).2 := by exact_mod_cast x.quarter_pos p
  have hp : (0 : ℚ) < 10 ^ p := by positivity
  rw [← Nat.cast_le (α := ℚ), ← mul_le_mul_iff_left₀ hp, mul_quarter, Nat.cast_mul,
    mul_right_comm (c : ℚ), mul_le_mul_iff_left₀ hd]

theorem le_mul_quarter (x : Magnitude) (p : ℤ) (a c : ℕ) :
    c * (x.quarter p).2 ≤ a * (x.quarter p).1 ↔ (c : ℚ) * 10 ^ p ≤ a * x.step := by
  have hd : (0 : ℚ) < (x.quarter p).2 := by exact_mod_cast x.quarter_pos p
  have hp : (0 : ℚ) < 10 ^ p := by positivity
  rw [← Nat.cast_le (α := ℚ), ← mul_le_mul_iff_left₀ hp, mul_quarter, Nat.cast_mul,
    mul_right_comm (c : ℚ), mul_le_mul_iff_left₀ hd]

/-- The test in whole numbers is that of the interval. -/
theorem roundsFrom_iff (x : Magnitude) (p : ℤ) (c : ℕ) :
    x.roundsFrom (x.quarter p).1 (x.quarter p).2 c ↔ x.Rounds (c * 10 ^ p) := by
  unfold roundsFrom Rounds low high
  dsimp only
  split_ifs
  · simp [mul_quarter_le, le_mul_quarter]
  · simp only [Bool.and_eq_true, decide_eq_true_eq, ← not_le, mul_quarter_le, le_mul_quarter]

theorem rounds_pick {p : ℤ} {c : ℕ} (h : x.pick? p = some c) : x.Rounds (c * 10 ^ p) := by
  rw [← roundsFrom_iff]
  unfold pick? at h
  dsimp only at h
  split at h
  · rename_i hd hu
    cases h
    split_ifs
    · exact hu
    · exact hd
  · rename_i hd hu
    cases h
    exact hd
  · rename_i hd hu
    cases h
    exact hu
  · cases h

theorem value_exact (x : Magnitude) : x.exact.value = x.value := by
  have h₂ := zpow_mul_pow_toNat (by norm_num : (2 : ℚ) ≠ 0) x.exponent
  unfold exact value step Decimal.value
  split_ifs with he
  · have hz : (-x.exponent).toNat = 0 := by omega
    rw [hz, pow_zero, mul_one] at h₂
    simp only [Nat.pow_eq, Nat.cast_mul, Nat.cast_pow, Nat.cast_ofNat, ← h₂, zpow_zero]
    ring
  · have hz : x.exponent = -((-x.exponent).toNat : ℤ) := by omega
    have h₁₀ : (10 : ℚ) ^ x.exponent * 5 ^ (-x.exponent).toNat = 2 ^ x.exponent := by
      rw [hz, zpow_neg, zpow_neg, zpow_natCast, zpow_natCast, ← hz,
        show (10 : ℚ) = 2 * 5 by norm_num, mul_pow, mul_inv, mul_assoc,
        inv_mul_cancel₀ (by positivity), mul_one]
    simp only [Nat.pow_eq, Nat.cast_mul, Nat.cast_pow, Nat.cast_ofNat, ← h₁₀]
    ring

/-- A positive value is in its own interval. -/
theorem rounds_value (hx : 0 < x.mantissa) : x.Rounds x.value := by
  have hs := x.step_pos
  have hr : 0 < x.reachBelow := by
    unfold reachBelow
    split_ifs <;> omega
  have hlow : x.low < x.value := by
    unfold low value
    refine mul_lt_mul_of_pos_right ?_ hs
    exact_mod_cast (by omega : 4 * x.mantissa - x.reachBelow < 4 * x.mantissa)
  have hhigh : x.value < x.high := by
    unfold high value
    refine mul_lt_mul_of_pos_right ?_ hs
    push_cast
    linarith
  unfold Rounds
  split_ifs
  · exact ⟨hlow.le, hhigh.le⟩
  · exact ⟨hlow, hhigh⟩

theorem shortestFrom_rounds (hx : 0 < x.mantissa) (count : ℕ) (p : ℤ) :
    x.Rounds (x.shortestFrom count p).value := by
  induction count generalizing p with
  | zero =>
    rw [shortestFrom, value_exact]
    exact rounds_value hx
  | succ count ih =>
    rw [shortestFrom]
    split
    · rename_i c hc
      exact rounds_pick hc
    · exact ih _

/-- **The decimal that is chosen for a double rounds to it.** -/
theorem shortest_rounds (hx : 0 < x.mantissa) : x.Rounds x.shortest.value :=
  shortestFrom_rounds hx _ _

/-! ## Intervals of different doubles -/

/-- The magnitudes of doubles: mantissas are as large as they can be, except below the least
exponent. -/
structure Normal (x : Magnitude) : Prop where
  exponent : -1074 ≤ x.exponent
  pos : 0 < x.mantissa
  lt : x.mantissa < 2 * leadingBit
  leading : x.exponent ≠ -1074 → leadingBit ≤ x.mantissa

/-- Products are compared by their factors. -/
theorem mul_le_mul_of_scale {a b k : ℕ} {s t : ℚ} (hs : 0 < s) (ht : k * s ≤ t) (h : a ≤ k * b) :
    a * s ≤ b * t ∧ (a * s = b * t → a = k * b) := by
  have hle : (k * b : ℕ) * s ≤ b * t := by
    rw [Nat.cast_mul, mul_right_comm, mul_comm]
    exact mul_le_mul_of_nonneg_left ht b.cast_nonneg
  have hab : (a : ℚ) * s ≤ (k * b : ℕ) * s := mul_le_mul_of_nonneg_right (Nat.cast_le.mpr h) hs.le
  refine ⟨hab.trans hle, fun he => ?_⟩
  have hcast := mul_right_cancel₀ hs.ne' (hab.antisymm (he ▸ hle))
  exact_mod_cast hcast

/-- The interval of a smaller double ends before that of a larger one begins. If they touch, one of
the two does not have its ends. -/
theorem high_le_low (hx : x.Normal) (hy : y.Normal)
    (h : x.exponent < y.exponent ∨ x.exponent = y.exponent ∧ x.mantissa < y.mantissa) :
    x.high ≤ y.low ∧ (x.high = y.low → x.mantissa % 2 = 1 ∨ y.mantissa % 2 = 1) := by
  have hx₁ := hx.exponent
  have hx₂ := hx.lt
  have hy₁ := hy.pos
  rcases h with he | ⟨he, hm⟩
  · -- the larger one has a leading bit, and its steps are at least twice as wide
    have hy₂ := hy.leading (by omega)
    have hstep : (2 : ℕ) * x.step ≤ y.step := by
      have hp : (2 : ℚ) ^ (x.exponent + 1) ≤ 2 ^ y.exponent :=
        zpow_le_zpow_right₀ (by norm_num) (by omega)
      rw [zpow_add_one₀ (by norm_num)] at hp
      unfold step
      push_cast
      linarith
    have hne : y.exponent ≠ -1074 := by omega
    have hr : y.reachBelow = if y.mantissa = leadingBit then 1 else 2 := by simp [reachBelow, hne]
    have hmul := mul_le_mul_of_scale (a := 4 * x.mantissa + 2) (b := 4 * y.mantissa - y.reachBelow)
      x.step_pos hstep (by rw [hr, leadingBit] at *; split_ifs <;> omega)
    refine ⟨hmul.1, fun heq => .inl ?_⟩
    have h₂ := hmul.2 heq
    rw [hr] at h₂
    unfold leadingBit at *
    split_ifs at h₂ <;> omega
  · have hstep : (1 : ℕ) * x.step ≤ y.step := by
      unfold step
      rw [he, Nat.cast_one, one_mul]
    have hr : y.reachBelow = 1 ∨ y.reachBelow = 2 := by
      unfold reachBelow
      split_ifs
      · exact .inl rfl
      · exact .inr rfl
    have hmul := mul_le_mul_of_scale (a := 4 * x.mantissa + 2) (b := 4 * y.mantissa - y.reachBelow)
      x.step_pos hstep (by omega)
    refine ⟨hmul.1, fun heq => ?_⟩
    have h₂ := hmul.2 heq
    omega

/-- What is in the interval of a double is in that of no larger one. -/
theorem not_rounds_of_lt (hx : x.Normal) (hy : y.Normal)
    (h : x.exponent < y.exponent ∨ x.exponent = y.exponent ∧ x.mantissa < y.mantissa) {q : ℚ}
    (hxq : x.Rounds q) : ¬ y.Rounds q := by
  obtain ⟨hle, htouch⟩ := high_le_low hx hy h
  intro hyq
  unfold Rounds at hxq hyq
  split_ifs at hxq hyq with h₁ h₂
  · have := htouch (hle.antisymm (hyq.1.trans hxq.2))
    omega
  · exact absurd (hyq.1.trans_le (hxq.2.trans hle)) (lt_irrefl _)
  · exact absurd (hyq.1.trans_lt (hxq.2.trans_le hle)) (lt_irrefl _)
  · exact absurd (hyq.1.trans (hxq.2.trans_le hle)) (lt_irrefl _)

/-- **No number rounds to two doubles.** -/
theorem rounds_unique (hx : x.Normal) (hy : y.Normal) {q : ℚ} (hxq : x.Rounds q)
    (hyq : y.Rounds q) : x = y := by
  by_contra hne
  have hdiff : x.exponent ≠ y.exponent ∨ x.mantissa ≠ y.mantissa := by
    cases x
    cases y
    rw [mk.injEq, not_and_or] at hne
    exact hne.symm
  by_cases h : x.exponent < y.exponent ∨ x.exponent = y.exponent ∧ x.mantissa < y.mantissa
  · exact not_rounds_of_lt hx hy h hxq hyq
  · exact not_rounds_of_lt hy hx (by omega) hyq hxq

/-- Zero rounds to no positive double. -/
theorem Rounds.pos (hx : x.Normal) {q : ℚ} (h : x.Rounds q) : 0 < q := by
  have hlow : 0 < x.low := by
    have hp := hx.pos
    have hr : x.reachBelow ≤ 2 := by
      unfold reachBelow
      split_ifs <;> omega
    unfold low
    exact mul_pos (Nat.cast_pos.mpr (by omega)) x.step_pos
  unfold Rounds at h
  split_ifs at h
  · exact hlow.trans_le h.1
  · exact hlow.trans h.1

end Binary64.Magnitude

/-! ## Reading decimals -/

/-- What is not in a list differs from all that is. -/
theorem bne_of_not_mem {α : Type} [DecidableEq α] {l : List α} {a : α} (h : a ∉ l) :
    ∀ b ∈ l, (b != a) = true := by
  intro b hb
  rw [bne_iff_ne]
  rintro rfl
  exact h hb

namespace Decimal

/-- The number that digits stand for. -/
def readDigits (cs : List Char) : ℕ := Nat.ofDigitChars 10 cs 0

/-- An exponent with or without sign. -/
def readInt : List Char → ℤ
  | '-' :: cs => -(readDigits cs : ℤ)
  | cs => readDigits cs

/-- Digits with at most one point among them. -/
def readPositional (cs : List Char) : ℚ :=
  readDigits (cs.filter (· != '.')) / 10 ^ ((cs.dropWhile (· != '.')).drop 1).length

/-- A number in any style. -/
def read (cs : List Char) : ℚ :=
  readPositional (cs.takeWhile (· != 'e')) * 10 ^ readInt ((cs.dropWhile (· != 'e')).drop 1)

theorem readDigits_append (cs ds : List Char) :
    readDigits (cs ++ ds) = 10 ^ ds.length * readDigits cs + readDigits ds := by
  rw [readDigits, Nat.ofDigitChars_append, Nat.ofDigitChars_eq_ofDigitChars_zero]
  rfl

theorem readDigits_zeros (n : ℕ) : readDigits (List.replicate n '0') = 0 := by
  rw [readDigits, Nat.ofDigitChars_replicate_zero, Nat.mul_zero]

theorem readDigits_digitText (d : Decimal) : readDigits d.digitText = d.digits :=
  Nat.ofDigitChars_ten_toDigits

theorem not_mem_of_isDigit {cs : List Char} {c : Char} (h : ∀ d ∈ cs, d.isDigit)
    (hc : c.isDigit = false) : c ∉ cs := by
  intro hmem
  rw [h c hmem] at hc
  cases hc

theorem isDigit_digitText (d : Decimal) : ∀ c ∈ d.digitText, c.isDigit :=
  fun _ hc => Nat.isDigit_of_mem_toDigits (by omega) (by omega) hc

/-- An integer is written with its digits, and a minus sign if it is negative. -/
theorem toList_intRepr (n : ℤ) : ∃ k : ℕ, n.repr.toList = Nat.toDigits 10 k ∧ n = k ∨
    n.repr.toList = '-' :: Nat.toDigits 10 k ∧ n = -k := by
  cases n with
  | ofNat k => exact ⟨k, .inl ⟨Nat.toList_repr, rfl⟩⟩
  | negSucc k =>
    refine ⟨k + 1, .inr ⟨?_, rfl⟩⟩
    show ("-" ++ (k + 1).repr).toList = _
    rw [String.toList_append, Nat.toList_repr]
    rfl

theorem readInt_repr (n : ℤ) : readInt n.repr.toList = n := by
  obtain ⟨k, ⟨hr, hn⟩ | ⟨hr, hn⟩⟩ := toList_intRepr n
  · have hdigit : ∀ c ∈ Nat.toDigits 10 k, c.isDigit :=
      fun _ hc => Nat.isDigit_of_mem_toDigits (by omega) (by omega) hc
    rw [hr, hn]
    unfold readInt
    split
    · rename_i heq
      rw [heq] at hdigit
      exact absurd (hdigit '-' List.mem_cons_self) (by decide)
    · rw [readDigits, Nat.ofDigitChars_ten_toDigits]
  · rw [hr, hn]
    show -(readDigits (Nat.toDigits 10 k) : ℤ) = _
    rw [readDigits, Nat.ofDigitChars_ten_toDigits]

theorem readPositional_point {cs ds : List Char} (hc : '.' ∉ cs) (hd : '.' ∉ ds) :
    readPositional (cs ++ '.' :: ds) = readDigits (cs ++ ds) / 10 ^ ds.length := by
  unfold readPositional
  rw [List.dropWhile_append_of_pos (bne_of_not_mem hc), List.filter_append,
    List.filter_eq_self.mpr (bne_of_not_mem hc)]
  simp [List.filter_eq_self.mpr (bne_of_not_mem hd)]

theorem readPositional_whole {cs : List Char} (hc : '.' ∉ cs) :
    readPositional cs = readDigits cs := by
  unfold readPositional
  rw [List.filter_eq_self.mpr (bne_of_not_mem hc),
    List.dropWhile_eq_nil_iff.mpr (bne_of_not_mem hc)]
  simp

theorem read_positional {cs : List Char} (h : 'e' ∉ cs) : read cs = readPositional cs := by
  unfold read
  rw [List.takeWhile_eq_self_iff.mpr (bne_of_not_mem h),
    List.dropWhile_eq_nil_iff.mpr (bne_of_not_mem h)]
  simp [readInt, readDigits]

theorem read_scientific {cs : List Char} (h : 'e' ∉ cs) (n : ℤ) :
    read (cs ++ 'e' :: (toString n).toList) = readPositional cs * 10 ^ n := by
  unfold read
  rw [List.takeWhile_append_of_pos (bne_of_not_mem h),
    List.dropWhile_append_of_pos (bne_of_not_mem h)]
  simp [readInt_repr]

/-- Digits of which some stand after a point. -/
theorem value_eq {d : Decimal} {n : ℕ} (h : d.exponent = -(n : ℤ)) :
    d.value = (d.digits : ℚ) / 10 ^ n := by
  rw [value, h, zpow_neg, zpow_natCast, div_eq_mul_inv]

theorem readPositional_positional (d : Decimal) (wholePoint : Bool) :
    readPositional (d.positional wholePoint) = d.value := by
  have hpoint : '.' ∉ d.digitText := not_mem_of_isDigit d.isDigit_digitText (by decide)
  have hwhole : 0 ≤ d.exponent → d.value = 10 ^ d.exponent.toNat * d.digits := by
    intro he
    rw [value, ← zpow_natCast, Int.toNat_of_nonneg he, mul_comm]
  unfold positional
  split_ifs with he hw hp
  · rw [readPositional_point (by simp [hpoint]) (by simp), hwhole he]
    simp only [readDigits_append, readDigits_zeros, readDigits_digitText, List.length_replicate,
      List.length_singleton, show readDigits ['0'] = 0 from rfl, Nat.add_zero, Nat.cast_mul,
      Nat.cast_pow]
    push_cast
    ring
  · rw [readPositional_whole (by simp [hpoint]), hwhole he]
    simp [readDigits_append, readDigits_zeros, readDigits_digitText]
  · -- the point stands among the digits
    have hdrop : d.exponent = -((d.digitText.drop d.pointAfter.toNat).length : ℤ) := by
      rw [List.length_drop]
      unfold pointAfter at hp ⊢
      omega
    rw [readPositional_point (fun h => hpoint (List.mem_of_mem_take h))
      (fun h => hpoint (List.mem_of_mem_drop h)), List.take_append_drop, readDigits_digitText,
      value_eq hdrop]
  · -- zeros stand between the point and the digits
    have hlength : d.exponent =
        -((List.replicate (-d.pointAfter).toNat '0' ++ d.digitText).length : ℤ) := by
      rw [List.length_append, List.length_replicate]
      unfold pointAfter at hp ⊢
      omega
    show readPositional (['0'] ++ '.' ::
      (List.replicate (-d.pointAfter).toNat '0' ++ d.digitText)) = _
    rw [readPositional_point (by simp) (by simp [hpoint]), value_eq hlength, readDigits_append,
      readDigits_append, readDigits_zeros, readDigits_digitText, show readDigits ['0'] = 0 from rfl,
      Nat.mul_zero, Nat.mul_zero, Nat.zero_add, Nat.zero_add]

theorem e_not_mem_positional (d : Decimal) (wholePoint : Bool) : 'e' ∉ d.positional wholePoint := by
  have hdigits : 'e' ∉ d.digitText := not_mem_of_isDigit d.isDigit_digitText (by decide)
  have htake : ∀ n, 'e' ∉ d.digitText.take n := fun n h => hdigits (List.mem_of_mem_take h)
  have hdrop : ∀ n, 'e' ∉ d.digitText.drop n := fun n h => hdigits (List.mem_of_mem_drop h)
  unfold positional
  split_ifs <;> simp [hdigits, htake, hdrop]

theorem read_render_scientific (d : Decimal) : read d.scientific = d.value := by
  have hpoint : '.' ∉ d.digitText := not_mem_of_isDigit d.isDigit_digitText (by decide)
  have he : 'e' ∉ d.digitText := not_mem_of_isDigit d.isDigit_digitText (by decide)
  have hlength : 0 < d.digitText.length := Nat.length_toDigits_pos
  have hparts := List.take_append_drop 1 d.digitText
  have hten : (10 : ℚ) ^ (d.digitText.length - 1) ≠ 0 := by positivity
  -- the digits after the first are undone by the exponent
  have hvalue :
      (d.digits : ℚ) / 10 ^ (d.digitText.length - 1) * 10 ^ (d.pointAfter - 1) = d.value := by
    rw [value, div_mul_eq_mul_div, div_eq_iff hten, mul_assoc, ← zpow_natCast,
      ← zpow_add₀ (by norm_num)]
    congr 2
    unfold pointAfter
    omega
  unfold scientific
  dsimp only
  by_cases hf : (d.digitText.drop 1).isEmpty
  · have hone : d.digitText.drop 1 = [] := List.isEmpty_iff.mp hf
    rw [hone, List.append_nil] at hparts
    have hlen : d.digitText.length = 1 := by
      have := List.drop_eq_nil_iff.mp hone
      omega
    rw [if_pos hf, List.append_nil, hparts, read_scientific he, readPositional_whole hpoint,
      readDigits_digitText, ← hvalue, hlen]
    simp
  · have htake : ∀ c, c ∉ d.digitText → c ∉ d.digitText.take 1 :=
      fun c h hc => h (List.mem_of_mem_take hc)
    have hdrop : ∀ c, c ∉ d.digitText → c ∉ d.digitText.drop 1 :=
      fun c h hc => h (List.mem_of_mem_drop hc)
    have hnot : 'e' ∉ d.digitText.take 1 ++ '.' :: d.digitText.drop 1 := by
      rw [List.mem_append, List.mem_cons]
      rintro (h | h | h)
      · exact htake _ he h
      · cases h
      · exact hdrop _ he h
    rw [if_neg hf, read_scientific hnot, readPositional_point (htake _ hpoint) (hdrop _ hpoint),
      hparts, readDigits_digitText, List.length_drop, hvalue]

/-- **The value of a decimal can be read from its text.** -/
theorem read_render (style : Style) (d : Decimal) : read (d.render style) = d.value := by
  have hpositional : read (d.positional style.wholePoint) = d.value := by
    rw [read_positional (d.e_not_mem_positional _), readPositional_positional]
  unfold render
  split
  · exact hpositional
  · split_ifs
    · exact hpositional
    · exact d.read_render_scientific

/-- The text of a decimal begins with a digit. -/
theorem head?_render (style : Style) (d : Decimal) : ∃ c ∈ (d.render style).head?, c.isDigit := by
  have hlength : 0 < d.digitText.length := Nat.length_toDigits_pos
  have htake : ∀ n cs, 0 < n → ∃ c ∈ (d.digitText.take n ++ cs).head?, c.isDigit := by
    intro n cs hn
    cases h : d.digitText.take n with
    | nil =>
      have := congrArg List.length h
      rw [List.length_take, List.length_nil] at this
      omega
    | cons c rest =>
      have hmem : c ∈ d.digitText.take n := h ▸ List.mem_cons_self
      exact ⟨c, rfl, d.isDigit_digitText c (List.mem_of_mem_take hmem)⟩
  have hpositional : ∃ c ∈ (d.positional style.wholePoint).head?, c.isDigit := by
    unfold positional
    split_ifs with he hw hp
    · have h := htake _ (List.replicate d.exponent.toNat '0' ++ ['.', '0']) hlength
      rwa [List.take_length, ← List.append_assoc] at h
    · have h := htake _ (List.replicate d.exponent.toNat '0' ++ []) hlength
      rwa [List.take_length, ← List.append_assoc] at h
    · exact htake _ _ (by omega)
    · exact ⟨'0', rfl, rfl⟩
  unfold render
  split
  · exact hpositional
  · split_ifs
    · exact hpositional
    · unfold scientific
      dsimp only
      rw [List.append_assoc]
      exact htake 1 _ one_pos

/-- A letter, a digit, a point or a minus sign. -/
def Plain (c : Char) : Prop := c.isAlphanum ∨ c = '.' ∨ c = '-'

instance (c : Char) : Decidable (Plain c) := inferInstanceAs (Decidable (_ ∨ _))

theorem plain_of_isDigit {c : Char} (h : c.isDigit) : Plain c := .inl (by simp [Char.isAlphanum, h])

theorem plain_of_letters (cs : List Char) (h : cs.all Char.isAlphanum) : ∀ c ∈ cs, Plain c :=
  fun c hc => .inl (List.all_eq_true.mp h c hc)

theorem plain_zeros (n : ℕ) : ∀ c ∈ List.replicate n '0', Plain c := by
  intro c hc
  rw [List.eq_of_mem_replicate hc]
  exact .inl rfl

theorem plain_toDigits (n : ℕ) : ∀ c ∈ Nat.toDigits 10 n, Plain c :=
  fun _ hc => plain_of_isDigit (Nat.isDigit_of_mem_toDigits (by omega) (by omega) hc)

theorem plain_intRepr (n : ℤ) : ∀ c ∈ n.repr.toList, Plain c := by
  obtain ⟨k, ⟨hr, -⟩ | ⟨hr, -⟩⟩ := toList_intRepr n
  · rw [hr]
    exact plain_toDigits k
  · rw [hr]
    exact List.forall_mem_cons.mpr ⟨.inr (.inr rfl), plain_toDigits k⟩

theorem plain_render (style : Style) (d : Decimal) : ∀ c ∈ d.render style, Plain c := by
  have hdigits : ∀ c ∈ d.digitText, Plain c := plain_toDigits d.digits
  have hpoint : Plain '.' := .inr (.inl rfl)
  have htake : ∀ n, ∀ c ∈ d.digitText.take n, Plain c :=
    fun n c hc => hdigits c (List.mem_of_mem_take hc)
  have hdrop : ∀ n, ∀ c ∈ d.digitText.drop n, Plain c :=
    fun n c hc => hdigits c (List.mem_of_mem_drop hc)
  have hpositional : ∀ c ∈ d.positional style.wholePoint, Plain c := by
    unfold positional
    split_ifs
    · exact List.forall_mem_append.mpr ⟨List.forall_mem_append.mpr ⟨hdigits, plain_zeros _⟩,
        List.forall_mem_cons.mpr ⟨hpoint, List.forall_mem_singleton.mpr (.inl rfl)⟩⟩
    · exact List.forall_mem_append.mpr ⟨List.forall_mem_append.mpr ⟨hdigits, plain_zeros _⟩,
        List.forall_mem_nil _⟩
    · exact List.forall_mem_append.mpr ⟨htake _, List.forall_mem_cons.mpr ⟨hpoint, hdrop _⟩⟩
    · exact List.forall_mem_cons.mpr ⟨.inl rfl, List.forall_mem_cons.mpr
        ⟨hpoint, List.forall_mem_append.mpr ⟨plain_zeros _, hdigits⟩⟩⟩
  have hscientific : ∀ c ∈ d.scientific, Plain c := by
    unfold scientific
    dsimp only
    refine List.forall_mem_append.mpr ⟨List.forall_mem_append.mpr ⟨htake 1, ?_⟩,
      List.forall_mem_cons.mpr ⟨.inl rfl, plain_intRepr _⟩⟩
    split_ifs
    · exact List.forall_mem_nil _
    · exact List.forall_mem_cons.mpr ⟨hpoint, hdrop 1⟩
  unfold render
  split
  · exact hpositional
  · split_ifs
    · exact hpositional
    · exact hscientific

end Decimal

/-! ## Texts of doubles -/

namespace Binary64

namespace Shape

/-- Whether there is a minus sign in front. -/
def isNegative : Shape → Bool
  | .nan => false
  | .infinite negative | .zero negative | .finite negative _ => negative

/-- The text without sign. -/
def unsigned (style : Decimal.Style) : Shape → List Char
  | .nan => ['N', 'a', 'N']
  | .infinite _ => ['i', 'n', 'f']
  | .zero _ => Decimal.render style ⟨0, 0⟩
  | .finite _ m => m.shortest.render style

/-- Finite shapes have a magnitude of doubles. -/
def Normal : Shape → Prop
  | .finite _ m => m.Normal
  | _ => True

/-- Apart from the sign, the text of a shape determines it. -/
theorem unsigned_inj {style : Decimal.Style} {s t : Shape} (hs : s.Normal) (ht : t.Normal)
    (hn : s.isNegative = t.isNegative) (h : s.unsigned style = t.unsigned style) : s = t := by
  have hrender : ∀ (d : Decimal) (c : Char) (cs : List Char), c.isDigit = false →
      d.render style ≠ c :: cs := by
    intro d c cs hc he
    obtain ⟨c', hc', hd⟩ := d.head?_render style
    rw [he] at hc'
    cases hc'
    rw [hc] at hd
    cases hd
  have hread : ∀ {d d' : Decimal}, d.render style = d'.render style → d.value = d'.value := by
    intro d d' he
    rw [← Decimal.read_render style, he, Decimal.read_render]
  have hzero : ∀ m : Magnitude, m.Normal →
      m.shortest.render style ≠ Decimal.render style ⟨0, 0⟩ := by
    intro m hm he
    have hpos := (Magnitude.shortest_rounds hm.pos).pos hm
    rw [hread he] at hpos
    simp [Decimal.value] at hpos
  cases s with
  | nan =>
    cases t with
    | nan => rfl
    | infinite => cases h
    | zero => exact absurd h.symm (hrender _ _ _ (by decide))
    | finite => exact absurd h.symm (hrender _ _ _ (by decide))
  | infinite n =>
    cases t with
    | nan => cases h
    | infinite => exact congrArg _ hn
    | zero => exact absurd h.symm (hrender _ _ _ (by decide))
    | finite => exact absurd h.symm (hrender _ _ _ (by decide))
  | zero n =>
    cases t with
    | nan => exact absurd h (hrender _ _ _ (by decide))
    | infinite => exact absurd h (hrender _ _ _ (by decide))
    | zero => exact congrArg _ hn
    | finite _ m => exact absurd h.symm (hzero m ht)
  | finite n m =>
    cases t with
    | nan => exact absurd h (hrender _ _ _ (by decide))
    | infinite => exact absurd h (hrender _ _ _ (by decide))
    | zero => exact absurd h (hzero m hs)
    | finite n' m' =>
      have hm := Magnitude.shortest_rounds hs.pos
      rw [hread h] at hm
      rw [Magnitude.rounds_unique hs ht hm (Magnitude.shortest_rounds ht.pos)]
      exact congrArg (finite · m') hn

end Shape

theorem text_eq (style : Decimal.Style) (x : Binary64) :
    x.text style = signed x.shape.isNegative (x.shape.unsigned style) := by
  unfold text
  cases x.shape with
  | nan => rfl
  | _ => rfl

theorem signed_inj {n n' : Bool} {cs cs' : List Char} (hc : '-' ∉ cs.head?) (hc' : '-' ∉ cs'.head?)
    (h : signed n cs = signed n' cs') : n = n' ∧ cs = cs' := by
  have hl := String.ofList_injective h
  cases n with
  | false =>
    cases n' with
    | false => exact ⟨rfl, hl⟩
    | true => exact absurd (by rw [show cs = '-' :: cs' from hl]; rfl) hc
  | true =>
    cases n' with
    | false => exact absurd (by rw [← show '-' :: cs = cs' from hl]; rfl) hc'
    | true => exact ⟨rfl, (List.cons.inj hl).2⟩

theorem plain_signed (negative : Bool) {cs : List Char} (h : ∀ c ∈ cs, Decimal.Plain c) :
    ∀ c ∈ (signed negative cs).toList, Decimal.Plain c := by
  rw [signed, String.toList_ofList]
  split_ifs
  · exact List.forall_mem_cons.mpr ⟨.inr (.inr rfl), h⟩
  · exact h

theorem plain_text (style : Decimal.Style) (x : Binary64) :
    ∀ c ∈ (x.text style).toList, Decimal.Plain c := by
  rw [text_eq]
  refine plain_signed _ ?_
  cases x.shape with
  | nan => exact Decimal.plain_of_letters _ rfl
  | infinite => exact Decimal.plain_of_letters _ rfl
  | zero => exact Decimal.plain_render style _
  | finite => exact Decimal.plain_render style _

theorem plain_fixed (places : ℕ) (x : Binary64) :
    ∀ c ∈ (x.fixed places).toList, Decimal.Plain c := by
  have hpadded : ∀ k n : ℕ, ∀ c ∈ List.replicate k '0' ++ Nat.toDigits 10 n, Decimal.Plain c :=
    fun k n => List.forall_mem_append.mpr ⟨Decimal.plain_zeros k, Decimal.plain_toDigits n⟩
  have hplaces : ∀ n, ∀ c ∈ withPlaces places n, Decimal.Plain c :=
    fun n => List.forall_mem_append.mpr ⟨fun c hc => hpadded _ n c (List.mem_of_mem_take hc),
      List.forall_mem_cons.mpr ⟨.inr (.inl rfl),
        fun c hc => hpadded _ n c (List.mem_of_mem_drop hc)⟩⟩
  unfold fixed
  cases x.shape with
  | nan => exact plain_signed false (Decimal.plain_of_letters ['N', 'a', 'N'] rfl)
  | infinite negative => exact plain_signed negative (Decimal.plain_of_letters _ rfl)
  | zero negative => exact plain_signed negative (hplaces 0)
  | finite negative m => exact plain_signed negative (hplaces _)

/-! ## The fields of a double -/

theorem bits_eq (x : Binary64) : x.bits.toNat =
    (if x.isNegative then signBit else 0) + x.exponentField * leadingBit + x.fractionField := by
  have hlt := x.bits.toNat_lt
  unfold isNegative exponentField fractionField signBit leadingBit maxField
  split_ifs with h <;> simp only [decide_eq_true_eq] at h <;> omega

/-- The exponent field and the fraction field that a shape stands for. -/
def Shape.fields : Shape → ℕ × ℕ
  | .nan | .infinite _ => (maxField, 0)
  | .zero _ => (0, 0)
  | .finite _ m =>
    if m.mantissa < leadingBit then (0, m.mantissa)
    else ((m.exponent + 1075).toNat, m.mantissa - leadingBit)

theorem shape_cases (x : Binary64) : x.shape = .nan ∨ x.shape.isNegative = x.isNegative ∧
    x.shape.fields = (x.exponentField, x.fractionField) := by
  have hf : x.fractionField < leadingBit := Nat.mod_lt _ (by decide)
  unfold shape
  split_ifs with he h₀ he' h₀'
  · exact .inr ⟨rfl, by rw [he, h₀]; rfl⟩
  · exact .inl rfl
  · exact .inr ⟨rfl, by rw [he', h₀']; rfl⟩
  · exact .inr ⟨rfl, by rw [he']; exact if_pos hf⟩
  · refine .inr ⟨rfl, (if_neg (by simp)).trans ?_⟩
    simp

theorem shape_normal (x : Binary64) : x.shape.Normal := by
  have hf : x.fractionField < leadingBit := Nat.mod_lt _ (by decide)
  unfold shape
  split_ifs with he h₀ he' h₀'
  · trivial
  · trivial
  · trivial
  · exact ⟨le_refl _, by dsimp only; omega, by dsimp only; omega, fun h => absurd rfl h⟩
  · exact ⟨by dsimp only; omega, by dsimp only; omega, by dsimp only; omega,
      fun _ => by dsimp only; omega⟩

/-- A NaN has the one bit pattern that is used for it. -/
def Canonical (x : Binary64) : Prop := x.shape = .nan → x.bits = 0x7ff8000000000000

/-- Bits other than those of NaNs are determined by what they stand for. -/
theorem shape_inj {x y : Binary64} (hx : x.Canonical) (hy : y.Canonical) (h : x.shape = y.shape) :
    x = y := by
  have hbits : x.bits = y.bits := by
    rcases x.shape_cases with hn | ⟨hneg, hfields⟩
    · rw [hx hn, hy (h ▸ hn)]
    · rcases y.shape_cases with hn | ⟨hneg', hfields'⟩
      · rw [hx (h.trans hn), hy hn]
      · obtain ⟨he, hf⟩ := Prod.mk.inj (hfields.symm.trans (h ▸ hfields'))
        have hs : x.isNegative = y.isNegative := by rw [← hneg, h, hneg']
        rw [← UInt64.toNat_inj, bits_eq, bits_eq y, he, hf, hs]
  cases x
  cases y
  exact congrArg mk hbits

theorem fields_of_nan {x : Binary64} (h : x.shape = .nan) :
    x.exponentField = maxField ∧ x.fractionField ≠ 0 := by
  unfold shape at h
  split_ifs at h with he hf
  exact ⟨he, hf⟩

/-- Arithmetic gives no other NaN. -/
theorem ofFloat_canonical (f : Float) : (ofFloat f).Canonical := by
  intro hn
  obtain ⟨he, hf⟩ := fields_of_nan hn
  change f.toBits.toNat / 4503599627370496 % 2048 = 2047 at he
  change f.toBits.toNat % 4503599627370496 ≠ 0 at hf
  have hexponent :
      @Float.Model.UnpackedFloat.unpackExponent .binary64 f.toBits.toBitVec = -1#_ := by
    apply BitVec.eq_of_toNat_eq
    simpa [Float.Model.UnpackedFloat.unpackExponent, Nat.shiftRight_eq_div_pow] using he
  have hmantissa : @Float.Model.UnpackedFloat.unpackMantissa .binary64 f.toBits.toBitVec ≠ 0#_ := by
    intro h
    exact hf (by simpa [Float.Model.UnpackedFloat.unpackMantissa] using congrArg BitVec.toNat h)
  have hnan : Float.Model.UnpackedFloat.packedNaN .binary64 = 0x7ff8000000000000#64 := by decide
  exact UInt64.toBitVec_inj.mp ((f.toModel.valid.eq_packedNaN hexponent hmantissa).trans hnan)

/-- **The text of a double says which one it is.** -/
theorem text_inj {style : Decimal.Style} {x y : Binary64} (hx : x.Canonical) (hy : y.Canonical)
    (h : x.text style = y.text style) : x = y := by
  have hhead : ∀ s : Shape, '-' ∉ (s.unsigned style).head? := by
    intro s hs
    have hrender : ∀ d : Decimal, '-' ∉ (d.render style).head? := by
      intro d hd
      obtain ⟨c, hc, hdigit⟩ := d.head?_render style
      obtain rfl := Option.mem_unique hd hc
      cases hdigit
    cases s with
    | nan => cases hs
    | infinite => cases hs
    | zero => exact hrender _ hs
    | finite => exact hrender _ hs
  rw [text_eq, text_eq] at h
  obtain ⟨hn, hu⟩ := signed_inj (hhead _) (hhead _) h
  exact shape_inj hx hy (Shape.unsigned_inj x.shape_normal y.shape_normal hn hu)

end Binary64

end FlowLang
