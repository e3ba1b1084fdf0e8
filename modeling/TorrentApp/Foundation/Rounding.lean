import Mathlib.Algebra.Order.Field.Power
import Mathlib.Algebra.Order.Floor.Ring
import Mathlib.Algebra.Ring.Int.Parity
import Mathlib.Data.Int.Log
import Mathlib.Data.Rat.Floor
import Mathlib.Tactic.Linarith
import Mathlib.Tactic.NormNum
import Mathlib.Tactic.Positivity
import Mathlib.Tactic.FieldSimp
import Mathlib.Tactic.Ring

set_option autoImplicit false

/-!
# Round to nearest, ties to even

Binary floating point with `p` significant bits, on nonnegative rationals.  The
exponent is unbounded: quotients of 64-bit integers are far inside the normal
range of both IEEE formats used below, so neither overflow nor gradual underflow
can occur for them.

The last section is the C expression `(float)((double)a / (double)b)`, with the
exact condition under which it yields `1` although `a < b`.
-/

namespace TorrentApp.Foundation

/-! ## Rounding to an integer -/

/-- The integer nearest to `y`; the even one of the two when `y` is half way. -/
def roundHalfEven (y : ℚ) : ℤ :=
  if y - ⌊y⌋ < 1 / 2 then ⌊y⌋
  else if 1 / 2 < y - ⌊y⌋ then ⌊y⌋ + 1
  else if Even ⌊y⌋ then ⌊y⌋ else ⌊y⌋ + 1

@[simp] theorem roundHalfEven_intCast (n : ℤ) : roundHalfEven n = n := by
  simp [roundHalfEven]

theorem roundHalfEven_natCast (n : ℕ) : roundHalfEven n = n := by
  have h := roundHalfEven_intCast n
  simpa using h

/-- Rounding reaches an even integer exactly from half a unit below it. -/
theorem le_roundHalfEven_iff {n : ℤ} (hn : Even n) (y : ℚ) :
    n ≤ roundHalfEven y ↔ (n : ℚ) - 1 / 2 ≤ y := by
  have hlo := Int.floor_le y
  have hhi := Int.lt_floor_add_one y
  have hbelow : (n : ℚ) - 1 / 2 ≤ y → n ≤ ⌊y⌋ + 1 := by
    intro h
    have hlt : (n : ℚ) < ⌊y⌋ + 2 := by linarith
    have hlt' : n < ⌊y⌋ + 2 := by exact_mod_cast hlt
    omega
  have hfloor : n ≤ ⌊y⌋ → (n : ℚ) ≤ ⌊y⌋ := fun h => by exact_mod_cast h
  have hceil : n = ⌊y⌋ + 1 → (n : ℚ) = ⌊y⌋ + 1 := fun h => by rw [h]; push_cast; ring
  unfold roundHalfEven
  split_ifs with hlow hhigh heven
  · constructor
    · intro h; linarith [hfloor h]
    · intro h
      by_contra hlt
      linarith [hceil (by have := hbelow h; omega)]
  · constructor
    · intro h
      rcases Nat.lt_or_ge 0 (n - ⌊y⌋).toNat with hpos | hnonpos
      · linarith [hceil (by omega)]
      · linarith [hfloor (by omega)]
    · exact hbelow
  · -- exactly half way with an even floor: `n` cannot be the odd upper neighbour
    constructor
    · intro h; linarith [hfloor h]
    · intro h
      have hle := hbelow h
      have hne : n ≠ ⌊y⌋ + 1 := by
        rintro rfl
        exact Int.not_even_iff_odd.mpr heven.add_one hn
      omega
  · constructor
    · intro h
      rcases Nat.lt_or_ge 0 (n - ⌊y⌋).toNat with hpos | hnonpos
      · linarith [hceil (by omega)]
      · linarith [hfloor (by omega)]
    · exact hbelow

/-- Rounding stays at an even integer up to half a unit above it. -/
theorem roundHalfEven_le_iff {n : ℤ} (hn : Even n) (y : ℚ) :
    roundHalfEven y ≤ n ↔ y ≤ n + 1 / 2 := by
  have hlo := Int.floor_le y
  have hhi := Int.lt_floor_add_one y
  have hfloor : y ≤ (n : ℚ) + 1 / 2 → ⌊y⌋ ≤ n := by
    intro h
    have hlt : (⌊y⌋ : ℚ) < n + 1 := by linarith
    have hlt' : ⌊y⌋ < n + 1 := by exact_mod_cast hlt
    omega
  have hcast : ⌊y⌋ ≤ n → (⌊y⌋ : ℚ) ≤ n := fun h => by exact_mod_cast h
  have hsucc : ⌊y⌋ + 1 ≤ n → (⌊y⌋ : ℚ) + 1 ≤ n := fun h => by exact_mod_cast h
  unfold roundHalfEven
  split_ifs with hlow hhigh heven
  · exact ⟨fun h => by linarith [hcast h], hfloor⟩
  · refine ⟨fun h => by linarith [hsucc h], fun h => ?_⟩
    have hle := hfloor h
    have hne : ⌊y⌋ ≠ n := by
      intro he
      have hq : (⌊y⌋ : ℚ) = n := by exact_mod_cast he
      linarith
    omega
  · exact ⟨fun h => by linarith [hcast h], hfloor⟩
  · -- exactly half way with an odd floor: `n` cannot be that floor
    refine ⟨fun h => by linarith [hsucc h], fun h => ?_⟩
    have hle := hfloor h
    have hne : ⌊y⌋ ≠ n := fun he => heven (he ▸ hn)
    omega

/-- Rounding does not cross an integer bound from below. -/
theorem roundHalfEven_le {n : ℤ} {y : ℚ} (h : y ≤ n) : roundHalfEven y ≤ n := by
  have hlo := Int.floor_le y
  have hfloor : ⌊y⌋ ≤ n := by exact_mod_cast hlo.trans h
  have hstrict : ⌊y⌋ = n → y - ⌊y⌋ = 0 := by
    intro he
    have : (⌊y⌋ : ℚ) = n := by exact_mod_cast he
    linarith
  unfold roundHalfEven
  split_ifs with hlow hhigh heven
  · exact hfloor
  · rcases hfloor.lt_or_eq with hlt | he
    · omega
    · rw [hstrict he] at hhigh; norm_num at hhigh
  · exact hfloor
  · rcases hfloor.lt_or_eq with hlt | he
    · omega
    · rw [hstrict he] at hlow; norm_num at hlow

/-! ## Rounding to `p` significant bits -/

/-- The unit in the last place of `x` at precision `p`. -/
def ulp (p : ℕ) (x : ℚ) : ℚ := (2 : ℚ) ^ (Int.log 2 x + 1 - p)

/-- `x` rounded to `p` significant bits. -/
def roundTo (p : ℕ) (x : ℚ) : ℚ := roundHalfEven (x / ulp p x) * ulp p x

theorem ulp_pos (p : ℕ) (x : ℚ) : 0 < ulp p x := by
  unfold ulp; positivity

@[simp] theorem roundTo_zero (p : ℕ) : roundTo p 0 = 0 := by
  have h : roundHalfEven 0 = 0 := by simpa using roundHalfEven_intCast 0
  simp [roundTo, h]

/-- The binade of `x` determines its unit in the last place. -/
theorem ulp_eq {p : ℕ} {x : ℚ} {e : ℤ} (hlo : (2 : ℚ) ^ e ≤ x) (hhi : x < (2 : ℚ) ^ (e + 1)) :
    ulp p x = (2 : ℚ) ^ (e + 1 - p) := by
  have hx : 0 < x := lt_of_lt_of_le (by positivity) hlo
  have hle : e ≤ Int.log 2 x := (Int.zpow_le_iff_le_log (by norm_num) hx).mp (by exact_mod_cast hlo)
  have hlt : Int.log 2 x < e + 1 :=
    (Int.lt_zpow_iff_log_lt (by norm_num) hx).mp (by exact_mod_cast hhi)
  have : Int.log 2 x = e := by omega
  rw [ulp, this]

/-- An integer of at most `p` bits is representable. -/
theorem roundTo_natCast {p n : ℕ} (h : n < 2 ^ p) : roundTo p n = n := by
  rcases Nat.eq_zero_or_pos n with rfl | hpos
  · simp
  · have hlog : Int.log 2 (n : ℚ) = Nat.log 2 n := Int.log_natCast 2 n
    have hbits : Nat.log 2 n + 1 ≤ p := Nat.log_lt_of_lt_pow hpos.ne' h
    obtain ⟨k, hk⟩ := Nat.exists_eq_add_of_le hbits
    have hulp : ulp p (n : ℚ) = (2 : ℚ) ^ (-(k : ℤ)) := by
      rw [ulp, hlog, hk]; congr 1; push_cast; ring
    have hscaled : (n : ℚ) / ulp p n = ((n * 2 ^ k : ℕ) : ℚ) := by
      rw [hulp, zpow_neg, zpow_natCast, div_inv_eq_mul]; push_cast; ring
    rw [roundTo, hscaled, roundHalfEven_natCast, hulp, zpow_neg, zpow_natCast]
    push_cast
    field_simp

theorem roundTo_one {p : ℕ} (hp : 0 < p) : roundTo p 1 = 1 := by
  simpa using roundTo_natCast (p := p) (n := 1) (Nat.one_lt_two_pow hp.ne')

/-- In the binade below one the last place is worth `2 ^ (-p)`. -/
theorem roundTo_of_half_le {p : ℕ} {x : ℚ} (hlo : 1 / 2 ≤ x) (hhi : x < 1) :
    roundTo p x = roundHalfEven (x * 2 ^ p) / 2 ^ p := by
  have hulp : ulp p x = ((2 : ℚ) ^ p)⁻¹ := by
    have h := ulp_eq (p := p) (x := x) (e := -1) (by norm_num; linarith) (by norm_num; exact hhi)
    rw [h, show (-1 : ℤ) + 1 - p = -(p : ℤ) by ring, zpow_neg, zpow_natCast]
  rw [roundTo, hulp, div_inv_eq_mul, div_eq_mul_inv]

/-- A number below a half never rounds above a half. -/
theorem roundTo_le_half {p : ℕ} {x : ℚ} (h0 : 0 ≤ x) (hx : x < 1 / 2) :
    roundTo p x ≤ 1 / 2 := by
  rcases h0.eq_or_lt with rfl | hpos
  · simp
  · have hlog : Int.log 2 x + 1 ≤ -1 := by
      have : Int.log 2 x < -1 :=
        (Int.lt_zpow_iff_log_lt (by norm_num) hpos).mp (by norm_num; linarith)
      omega
    have hxlt : x < (2 : ℚ) ^ (Int.log 2 x + 1) := by
      have := Int.lt_zpow_succ_log_self (b := 2) (by norm_num) x
      exact_mod_cast this
    have htop : (2 : ℚ) ^ (Int.log 2 x + 1) = ((2 ^ p : ℤ) : ℚ) * ulp p x := by
      rw [ulp]; push_cast
      rw [← zpow_natCast, ← zpow_add₀ (by norm_num)]; congr 1; ring
    have hle : roundHalfEven (x / ulp p x) ≤ 2 ^ p := by
      refine roundHalfEven_le ?_
      rw [div_le_iff₀ (ulp_pos p x), ← htop]
      exact hxlt.le
    calc roundTo p x
        ≤ ((2 ^ p : ℤ) : ℚ) * ulp p x := by
          unfold roundTo
          exact mul_le_mul_of_nonneg_right (by exact_mod_cast hle) (ulp_pos p x).le
      _ = (2 : ℚ) ^ (Int.log 2 x + 1) := htop.symm
      _ ≤ (2 : ℚ) ^ (-1 : ℤ) := zpow_le_zpow_right₀ (by norm_num) hlog
      _ = 1 / 2 := by norm_num

/-- Between a half and one, an even multiple `n` of the last place is reached
exactly from half a last place below it. -/
theorem le_roundTo_iff {p : ℕ} (hp : 0 < p) {n : ℤ} (hn : Even n)
    (hlow : (2 : ℚ) ^ p / 2 + 1 / 2 < n) (hhigh : (n : ℚ) ≤ 2 ^ p) {x : ℚ} (h0 : 0 ≤ x)
    (h1 : x ≤ 1) : (n : ℚ) / 2 ^ p ≤ roundTo p x ↔ ((n : ℚ) - 1 / 2) / 2 ^ p ≤ x := by
  have hpow : (0 : ℚ) < 2 ^ p := by positivity
  rcases lt_or_ge x (1 / 2) with hlt | hge
  · have hr := roundTo_le_half (p := p) h0 hlt
    constructor
    · intro h
      have : (n : ℚ) ≤ 2 ^ p / 2 := by
        have := (div_le_iff₀ hpow).mp (h.trans hr); linarith
      linarith
    · intro h
      have := (div_le_iff₀ hpow).mp h
      nlinarith
  · rcases h1.lt_or_eq with hlt1 | rfl
    · rw [roundTo_of_half_le hge hlt1, div_le_div_iff_of_pos_right hpow, Int.cast_le,
        le_roundHalfEven_iff hn, div_le_iff₀ hpow]
    · rw [roundTo_one hp, div_le_iff₀ hpow, div_le_iff₀ hpow]
      constructor <;> intro _ <;> linarith

theorem roundTo_le_one {p : ℕ} (hp : 0 < p) {x : ℚ} (h0 : 0 ≤ x) (h1 : x ≤ 1) :
    roundTo p x ≤ 1 := by
  rcases lt_or_ge x (1 / 2) with hlt | hge
  · linarith [roundTo_le_half (p := p) h0 hlt]
  · rcases h1.lt_or_eq with hlt1 | rfl
    · rw [roundTo_of_half_le hge hlt1, div_le_one (by positivity)]
      have hle : roundHalfEven (x * 2 ^ p) ≤ 2 ^ p := by
        refine roundHalfEven_le ?_
        push_cast
        nlinarith [pow_pos (show (0 : ℚ) < 2 by norm_num) p]
      exact_mod_cast hle
    · exact (roundTo_one hp).le

theorem roundTo_nonneg {p : ℕ} {x : ℚ} (h0 : 0 ≤ x) : 0 ≤ roundTo p x := by
  have hdiv : (0 : ℚ) ≤ x / ulp p x := div_nonneg h0 (ulp_pos p x).le
  have h : (0 : ℤ) ≤ roundHalfEven (x / ulp p x) := by
    rw [le_roundHalfEven_iff Even.zero]
    push_cast
    linarith
  exact mul_nonneg (by exact_mod_cast h) (ulp_pos p x).le

/-- With at least two bits a number does not round below its binade. -/
theorem zpow_log_le_roundTo {p : ℕ} (hp : 2 ≤ p) {x : ℚ} (hx : 0 < x) :
    (2 : ℚ) ^ Int.log 2 x ≤ roundTo p x := by
  obtain ⟨q, rfl⟩ := Nat.exists_eq_add_of_le' (Nat.one_le_of_lt hp)
  have hlog : (2 : ℚ) ^ Int.log 2 x ≤ x := by
    have h := Int.zpow_log_le_self (b := 2) (by norm_num) hx
    exact_mod_cast h
  have hscale : (2 : ℚ) ^ Int.log 2 x = ((2 ^ q : ℤ) : ℚ) * ulp (q + 1) x := by
    rw [ulp]
    push_cast
    rw [← zpow_natCast, ← zpow_add₀ (by norm_num)]
    congr 1
    ring
  have heven : Even (2 ^ q : ℤ) := by
    rw [Int.even_pow]
    exact ⟨even_two, by omega⟩
  have hround : (2 ^ q : ℤ) ≤ roundHalfEven (x / ulp (q + 1) x) := by
    have hle : ((2 ^ q : ℤ) : ℚ) ≤ x / ulp (q + 1) x := by
      rw [le_div_iff₀ (ulp_pos _ x), ← hscale]
      exact hlog
    rw [le_roundHalfEven_iff heven]
    linarith
  rw [hscale, roundTo]
  exact mul_le_mul_of_nonneg_right (by exact_mod_cast hround) (ulp_pos _ x).le

/-- With at least two bits a positive number does not round to zero. -/
theorem roundTo_pos {p : ℕ} (hp : 2 ≤ p) {x : ℚ} (hx : 0 < x) : 0 < roundTo p x :=
  lt_of_lt_of_le (by positivity) (zpow_log_le_roundTo hp hx)

/-- A number from `2 ^ e` on does not round below `2 ^ e`. -/
theorem zpow_le_roundTo {p : ℕ} (hp : 2 ≤ p) {x : ℚ} {e : ℤ} (hx : (2 : ℚ) ^ e ≤ x) :
    (2 : ℚ) ^ e ≤ roundTo p x := by
  have hpos : 0 < x := lt_of_lt_of_le (by positivity) hx
  have hlog : e ≤ Int.log 2 x :=
    (Int.zpow_le_iff_le_log (by norm_num) hpos).mp (by exact_mod_cast hx)
  exact (zpow_le_zpow_right₀ (by norm_num) hlog).trans (zpow_log_le_roundTo hp hpos)

theorem one_le_roundTo {p : ℕ} (hp : 2 ≤ p) {x : ℚ} (hx : 1 ≤ x) : 1 ≤ roundTo p x := by
  simpa using zpow_le_roundTo (e := 0) hp (by simpa using hx)

/-- In the binade of one the last place is worth `2 ^ (-q)`, with `q + 1` bits. -/
theorem roundTo_of_lt_two {q : ℕ} {x : ℚ} (hlo : 1 ≤ x) (hhi : x < 2) :
    roundTo (q + 1) x = roundHalfEven (x * 2 ^ q) / 2 ^ q := by
  have hulp : ulp (q + 1) x = ((2 : ℚ) ^ q)⁻¹ := by
    have h := ulp_eq (p := q + 1) (x := x) (e := 0) (by norm_num; exact hlo)
      (by norm_num; exact hhi)
    rw [h, show (0 : ℤ) + 1 - (q + 1 : ℕ) = -(q : ℤ) by push_cast; ring, zpow_neg, zpow_natCast]
  rw [roundTo, hulp, div_inv_eq_mul, div_eq_mul_inv]

/-- Between one and two, an even multiple `n` of the last place is kept exactly up
to half a last place above it. -/
theorem roundTo_le_iff {q : ℕ} (hq : 0 < q) {n : ℤ} (hn : Even n)
    (hhigh : (n : ℚ) + 1 / 2 < 2 * 2 ^ q) {x : ℚ} (h1 : 1 ≤ x) :
    roundTo (q + 1) x ≤ (n : ℚ) / 2 ^ q ↔ x ≤ ((n : ℚ) + 1 / 2) / 2 ^ q := by
  have hpow : (0 : ℚ) < 2 ^ q := by positivity
  rcases lt_or_ge x 2 with hlt | hge
  · rw [roundTo_of_lt_two h1 hlt, div_le_div_iff_of_pos_right hpow, Int.cast_le,
      roundHalfEven_le_iff hn, le_div_iff₀ hpow]
  · have htwo : 2 ≤ roundTo (q + 1) x := by
      simpa using zpow_le_roundTo (p := q + 1) (e := 1) (by omega) (by simpa using hge)
    rw [le_div_iff₀ hpow, le_div_iff₀ hpow]
    constructor
    · intro h
      nlinarith
    · intro h
      nlinarith

/-! ## A single-precision quotient of two integers -/

/-- Significant bits of `double` and of `float`. -/
def doublePrecision : ℕ := 53

/-- Significant bits of `float`. -/
def singlePrecision : ℕ := 24

/-- `(float)((double)a / (double)b)` for a nonzero `b`. -/
def singleQuotient (a b : ℕ) : ℚ :=
  roundTo singlePrecision
    (roundTo doublePrecision (roundTo doublePrecision a / roundTo doublePrecision b))

/-- Up to one, a `double` rounds to the `float` 1 from half a last place of `float`
below one, and the half last place of `double` is made up by its own rounding. -/
theorem single_eq_one_of_le_one {x : ℚ} (h0 : 0 ≤ x) (h1 : x ≤ 1) :
    roundTo singlePrecision (roundTo doublePrecision x) = 1 ↔
      1 - (2 ^ 29 + 1) / 2 ^ 54 ≤ x := by
  have hd0 := roundTo_nonneg (p := doublePrecision) h0
  have hd1 := roundTo_le_one (p := doublePrecision) (by decide) h0 h1
  have hle := roundTo_le_one (p := singlePrecision) (by decide) hd0 hd1
  have houter := le_roundTo_iff (p := singlePrecision) (by decide) (n := 2 ^ 24)
    (by decide) (by norm_num [singlePrecision]) (by norm_num [singlePrecision]) hd0 hd1
  have hinner := le_roundTo_iff (p := doublePrecision) (by decide) (n := 2 ^ 53 - 2 ^ 28)
    (by decide) (by norm_num [doublePrecision]) (by norm_num [doublePrecision]) h0 h1
  have hone : ((2 ^ 24 : ℤ) : ℚ) / 2 ^ singlePrecision = 1 := by norm_num [singlePrecision]
  have hmid : (((2 ^ 24 : ℤ) : ℚ) - 1 / 2) / 2 ^ singlePrecision =
      ((2 ^ 53 - 2 ^ 28 : ℤ) : ℚ) / 2 ^ doublePrecision := by
    norm_num [singlePrecision, doublePrecision]
  have hlow : (((2 ^ 53 - 2 ^ 28 : ℤ) : ℚ) - 1 / 2) / 2 ^ doublePrecision =
      1 - (2 ^ 29 + 1) / 2 ^ 54 := by norm_num [doublePrecision]
  rw [hone, hmid, hinner, hlow] at houter
  rw [← houter]
  exact ⟨fun h => h.ge, fun h => le_antisymm hle h⟩

/-- From one on, likewise above. -/
theorem single_eq_one_of_one_le {x : ℚ} (h1 : 1 ≤ x) :
    roundTo singlePrecision (roundTo doublePrecision x) = 1 ↔
      x ≤ 1 + (2 ^ 29 + 1) / 2 ^ 53 := by
  have hd1 := one_le_roundTo (p := doublePrecision) (by decide) h1
  have hle := one_le_roundTo (p := singlePrecision) (by decide) hd1
  have houter : roundTo singlePrecision (roundTo doublePrecision x) ≤ _ ↔ _ :=
    roundTo_le_iff (q := 23) (by decide) (n := 2 ^ 23) (by decide) (by norm_num) hd1
  have hinner : roundTo doublePrecision x ≤ _ ↔ _ :=
    roundTo_le_iff (q := 52) (by decide) (n := 2 ^ 52 + 2 ^ 28) (by decide) (by norm_num) h1
  have hone : ((2 ^ 23 : ℤ) : ℚ) / 2 ^ 23 = 1 := by norm_num
  have hmid : (((2 ^ 23 : ℤ) : ℚ) + 1 / 2) / 2 ^ 23 =
      ((2 ^ 52 + 2 ^ 28 : ℤ) : ℚ) / 2 ^ 52 := by norm_num
  have hhigh : (((2 ^ 52 + 2 ^ 28 : ℤ) : ℚ) + 1 / 2) / 2 ^ 52 = 1 + (2 ^ 29 + 1) / 2 ^ 53 := by
    norm_num
  rw [hone, hmid, hinner, hhigh] at houter
  rw [← houter]
  exact ⟨fun h => h.le, fun h => le_antisymm h hle⟩

/-- Two numbers whose quotient the two roundings take to one: at most
`(2^29 + 1) / 2^54` of the divisor is missing, or at most `(2^29 + 1) / 2^53` is in
excess. -/
def NearlyEqual (a b : ℚ) : Prop :=
  (b - a) * 2 ^ 54 ≤ b * (2 ^ 29 + 1) ∧ (a - b) * 2 ^ 53 ≤ b * (2 ^ 29 + 1)

instance (a b : ℚ) : Decidable (NearlyEqual a b) := inferInstanceAs (Decidable (_ ∧ _))

theorem nearlyEqual_self {b : ℚ} (hb : 0 ≤ b) : NearlyEqual b b := by
  constructor
  · linarith
  · linarith

theorem single_div_eq_one_iff {a b : ℚ} (ha : 0 ≤ a) (hb : 0 < b) :
    roundTo singlePrecision (roundTo doublePrecision (a / b)) = 1 ↔ NearlyEqual a b := by
  unfold NearlyEqual
  rcases le_total a b with hle | hle
  · have hx1 : a / b ≤ 1 := (div_le_one hb).mpr hle
    rw [single_eq_one_of_le_one (div_nonneg ha hb.le) hx1, le_div_iff₀ hb]
    constructor
    · intro h
      constructor
      · linarith
      · linarith
    · rintro ⟨h, -⟩
      linarith
  · have hx1 : 1 ≤ a / b := (one_le_div hb).mpr hle
    rw [single_eq_one_of_one_le hx1, div_le_iff₀ hb]
    constructor
    · intro h
      constructor
      · linarith
      · linarith
    · rintro ⟨-, h⟩
      linarith

/-- The quotient is one exactly when the two `double`s are nearly equal. -/
theorem singleQuotient_eq_one_iff_nearlyEqual {a b : ℕ} (hpos : 0 < b) :
    singleQuotient a b = 1 ↔
      NearlyEqual (roundTo doublePrecision a) (roundTo doublePrecision b) := by
  have hbq : (0 : ℚ) < b := by exact_mod_cast hpos
  exact single_div_eq_one_iff (roundTo_nonneg (by positivity)) (roundTo_pos (by decide) hbq)

end TorrentApp.Foundation
