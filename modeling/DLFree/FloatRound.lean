/-
**Rounding to a binary floating-point format.**

A format has a precision and a smallest exponent; its finite numbers are the multiples `m * 2 ^ e` of
a power of two with `e` not below the smallest exponent and `m` of at most `prec` digits.  A number is
rounded to the nearest multiple of the spacing of the format around it, to the even one of two that
are as near.  What becomes as large as `2 ^ maxExp` is infinite; an infinite number is kept as
`2 ^ maxExp` with its sign, which is no finite number of the format and compares with all of them as
an infinite one does.

Main definitions:

* `Format`, `Format.Representable` — a format and its numbers;
* `Format.round` — the rounding;
* `Format.add`, `Format.sumFrom` — the sum of two numbers, and of a list one after another.

Main results:

* `Format.le_round`, `Format.round_le` — **rounding does not pass a number of the format**;
* `Format.round_mono` — rounding is monotone;
* `Format.round_eq` — a number of the format is not changed;
* `Format.sumFrom_eq` — sums of multiples of one power of two are exact as long as they are small.
-/

import Mathlib.Algebra.Order.BigOperators.Group.List
import Mathlib.Algebra.Order.Floor.Ring
import Mathlib.Data.Int.Log
import Mathlib.Data.Rat.Floor
import Mathlib.Tactic.Linarith
import Mathlib.Tactic.NormNum

set_option relaxedAutoImplicit false
set_option autoImplicit false

namespace FloatRound

/-! ### Nearest integers -/

/-- The nearest integer, the even one of two. -/
def roundEven (x : ℚ) : ℤ :=
  if x - ⌊x⌋ < 1 / 2 ∨ (x - ⌊x⌋ = 1 / 2 ∧ ⌊x⌋ % 2 = 0) then ⌊x⌋ else ⌊x⌋ + 1

theorem le_roundEven {x : ℚ} {z : ℤ} (h : z ≤ x) : z ≤ roundEven x := by
  have hfloor : z ≤ ⌊x⌋ := Int.le_floor.2 h
  rw [roundEven]
  split <;> omega

theorem roundEven_le {x : ℚ} {z : ℤ} (h : x ≤ z) : roundEven x ≤ z := by
  have hfloor : (⌊x⌋ : ℚ) ≤ z := (Int.floor_le x).trans h
  rw [roundEven]
  split
  · exact_mod_cast hfloor
  · rename_i hup
    -- the number is above its integer part
    have hlt : (⌊x⌋ : ℚ) < z := by
      by_contra hle
      have heq : x - ⌊x⌋ < 1 / 2 := by linarith
      exact hup (Or.inl heq)
    have : ⌊x⌋ < z := by exact_mod_cast hlt
    omega

theorem roundEven_mono {x y : ℚ} (h : x ≤ y) : roundEven x ≤ roundEven y := by
  have hfloor : ⌊x⌋ ≤ ⌊y⌋ := Int.floor_le_floor h
  rcases eq_or_lt_of_le hfloor with heq | hlt
  · -- between two integers the larger number is rounded up when the smaller one is
    simp only [roundEven, heq]
    split <;> rename_i hx <;> split <;> rename_i hy
    · exact le_rfl
    · omega
    · rcases hy with hy | ⟨hy, heven⟩
      · exact absurd (Or.inl (by linarith)) hx
      · rcases eq_or_lt_of_le (show x - ⌊y⌋ ≤ 1 / 2 by linarith) with hhalf | hhalf
        · exact absurd (Or.inr ⟨hhalf, heven⟩) hx
        · exact absurd (Or.inl hhalf) hx
    · exact le_rfl
  · have hup : roundEven x ≤ ⌊x⌋ + 1 := by
      rw [roundEven]
      split <;> omega
    exact (hup.trans hlt).trans (le_roundEven (Int.floor_le y))

/-! ### Formats -/

/-- A binary floating-point format: the digits of its numbers, the exponent of its smallest positive
number, and the exponent from which on its numbers are infinite. -/
structure Format where
  prec : ℕ
  minExp : ℤ
  maxExp : ℕ
  deriving DecidableEq, Repr

namespace Format

variable (F : Format)

/-- What an infinite number is kept as. -/
def inf : ℚ := 2 ^ F.maxExp

/-- The numbers of the format, with no bound on the exponent. -/
def Representable (x : ℚ) : Prop :=
  ∃ m e : ℤ, |m| ≤ 2 ^ F.prec ∧ F.minExp ≤ e ∧ x = m * 2 ^ e

/-- The exponent of the spacing of the format around a number. -/
def gridExp (x : ℚ) : ℤ := max (Int.log 2 x + 1 - F.prec) F.minExp

/-- The nearest number of the format to one that is not negative, with no bound on the exponent. -/
def nearest (x : ℚ) : ℚ := roundEven (x / 2 ^ F.gridExp x) * 2 ^ F.gridExp x

/-- The rounding of a number that is not negative. -/
def roundPos (x : ℚ) : ℚ := min F.inf (F.nearest x)

/-- The rounding of a number. -/
def round (x : ℚ) : ℚ := if 0 ≤ x then F.roundPos x else -F.roundPos (-x)

/-- The sum of a number of the format and a finite one: an infinite sum stays as it is. -/
def add (x y : ℚ) : ℚ := if F.inf ≤ |x| then x else F.round (x + y)

/-- The numbers of a list added to `x` one after another. -/
def sumFrom (x : ℚ) (ys : List ℚ) : ℚ := ys.foldl F.add x

variable {F}

theorem representable_mul_zpow {m e : ℤ} (hm : |m| ≤ 2 ^ F.prec) (he : F.minExp ≤ e) :
    F.Representable (m * 2 ^ e) :=
  ⟨m, e, hm, he, rfl⟩

theorem representable_intCast (hF : F.minExp ≤ 0) {m : ℤ} (hm : |m| ≤ 2 ^ F.prec) :
    F.Representable m := by
  simpa using representable_mul_zpow hm hF

theorem Representable.neg {x : ℚ} (h : F.Representable x) : F.Representable (-x) := by
  obtain ⟨m, e, hm, he, rfl⟩ := h
  exact ⟨-m, e, by rwa [abs_neg], he, by push_cast; ring⟩

/-! ### Numbers of the format next to a number -/

theorem zpow_grid_pos (x : ℚ) : (0 : ℚ) < 2 ^ F.gridExp x := zpow_pos two_pos _

/-- A multiple of a power of two is one of each smaller power. -/
theorem exists_mul_zpow {m e g : ℤ} (hge : g ≤ e) : ∃ z : ℤ, (m : ℚ) * 2 ^ e = z * 2 ^ g := by
  obtain ⟨k, rfl⟩ := Int.le.dest hge
  refine ⟨m * 2 ^ k, ?_⟩
  rw [zpow_add₀ two_ne_zero, zpow_natCast]
  push_cast
  ring

/-- A number of the format that is not on the grid of `x` is at most the power of two below `x`,
and this power is on the grid. -/
theorem Representable.cases_grid {x r : ℚ} (hr : F.Representable r) (hp : 0 < F.prec) (hx : 0 < x) :
    (∃ z : ℤ, r = z * 2 ^ F.gridExp x) ∨
      ∃ z : ℤ, r ≤ z * 2 ^ F.gridExp x ∧ z * 2 ^ F.gridExp x ≤ x := by
  obtain ⟨m, e, hm, he, rfl⟩ := hr
  rcases le_or_gt (F.gridExp x) e with hge | hlt
  · exact Or.inl (exists_mul_zpow hge)
  · have hgrid : F.gridExp x = Int.log 2 x + 1 - F.prec := by
      rcases max_choice (Int.log 2 x + 1 - F.prec) F.minExp with h | h
      · exact h
      · rw [gridExp, h] at hlt
        omega
    -- the power of two below the number
    obtain ⟨k, hk⟩ : ∃ k : ℕ, F.prec = k + 1 := ⟨F.prec - 1, by omega⟩
    have hpow : ((2 ^ k : ℤ) : ℚ) * 2 ^ F.gridExp x = 2 ^ Int.log 2 x := by
      push_cast
      rw [← zpow_natCast, ← zpow_add₀ two_ne_zero, hgrid, hk]
      congr 1
      push_cast
      ring
    refine Or.inr ⟨2 ^ k, ?_, ?_⟩
    · have hm' : (m : ℚ) ≤ 2 ^ F.prec := by exact_mod_cast (le_abs_self m).trans hm
      calc (m : ℚ) * 2 ^ e ≤ 2 ^ F.prec * 2 ^ e :=
            mul_le_mul_of_nonneg_right hm' (zpow_pos two_pos e).le
        _ = 2 ^ (F.prec + e) := by rw [zpow_add₀ two_ne_zero, zpow_natCast]
        _ ≤ 2 ^ Int.log 2 x := by
            refine zpow_le_zpow_right₀ one_le_two ?_
            omega
        _ = _ := hpow.symm
    · rw [hpow]
      exact_mod_cast Int.zpow_log_le_self Nat.one_lt_two hx

/-! ### Rounding does not pass a number of the format -/

theorem le_nearest {x r : ℚ} (hr : F.Representable r) (hp : 0 < F.prec) (hx : 0 < x) (h : r ≤ x) :
    r ≤ F.nearest x := by
  obtain ⟨z, hrz, hzx⟩ : ∃ z : ℤ, r ≤ z * 2 ^ F.gridExp x ∧ z * 2 ^ F.gridExp x ≤ x := by
    rcases hr.cases_grid hp hx with ⟨z, rfl⟩ | hz
    · exact ⟨z, le_rfl, h⟩
    · exact hz
  have hz : z ≤ roundEven (x / 2 ^ F.gridExp x) :=
    le_roundEven ((le_div_iff₀ (zpow_grid_pos x)).2 hzx)
  exact hrz.trans (mul_le_mul_of_nonneg_right (by exact_mod_cast hz) (zpow_grid_pos x).le)

theorem nearest_le {x r : ℚ} (hr : F.Representable r) (hp : 0 < F.prec) (hx : 0 < x)
    (h : x ≤ r) : F.nearest x ≤ r := by
  obtain ⟨z, rfl⟩ : ∃ z : ℤ, r = z * 2 ^ F.gridExp x := by
    rcases hr.cases_grid hp hx with hz | ⟨z, hrz, hzx⟩
    · exact hz
    · -- the number of the format is between `x` and a point of the grid below it
      exact ⟨z, le_antisymm hrz (hzx.trans h)⟩
  have hz : roundEven (x / 2 ^ F.gridExp x) ≤ z :=
    roundEven_le ((div_le_iff₀ (zpow_grid_pos x)).2 h)
  exact mul_le_mul_of_nonneg_right (by exact_mod_cast hz) (zpow_grid_pos x).le

theorem nearest_mono (hp : 0 < F.prec) {x y : ℚ} (hx : 0 < x) (h : x ≤ y) :
    F.nearest x ≤ F.nearest y := by
  have hlog : Int.log 2 x ≤ Int.log 2 y := Int.log_mono_right hx h
  rcases eq_or_ne (F.gridExp x) (F.gridExp y) with hgrid | hgrid
  · rw [nearest, nearest, hgrid]
    have hdiv := div_le_div_of_nonneg_right h (zpow_grid_pos (F := F) y).le
    refine mul_le_mul_of_nonneg_right ?_ (zpow_grid_pos y).le
    exact_mod_cast roundEven_mono hdiv
  · -- a power of two lies between the numbers
    have hlt : Int.log 2 x < Int.log 2 y := by
      refine lt_of_le_of_ne hlog fun heq => hgrid ?_
      rw [gridExp, gridExp, heq]
    have hexp : F.minExp ≤ Int.log 2 y := by
      rw [gridExp, gridExp] at hgrid
      omega
    have hrep : F.Representable (2 ^ Int.log 2 y) := by
      have := representable_mul_zpow (F := F) (m := 1) (by rw [abs_one]; exact one_le_pow₀ one_le_two)
        hexp
      simpa using this
    have hxpow : x ≤ 2 ^ Int.log 2 y := by
      refine (Int.lt_zpow_succ_log_self Nat.one_lt_two x).le.trans ?_
      exact zpow_le_zpow_right₀ one_le_two hlt
    have hpowy : (2 : ℚ) ^ Int.log 2 y ≤ y := by
      exact_mod_cast Int.zpow_log_le_self Nat.one_lt_two (hx.trans_le h)
    exact (nearest_le hrep hp hx hxpow).trans (le_nearest hrep hp (hx.trans_le h) hpowy)

theorem inf_pos : 0 < F.inf := pow_pos two_pos _

theorem roundPos_zero : F.roundPos 0 = 0 := by
  have hzero : roundEven 0 = 0 := by norm_num [roundEven]
  rw [roundPos, nearest, zero_div, hzero, Int.cast_zero, zero_mul, min_eq_right inf_pos.le]

theorem roundPos_nonneg {x : ℚ} (hx : 0 ≤ x) : 0 ≤ F.roundPos x := by
  refine le_min inf_pos.le (mul_nonneg ?_ (zpow_grid_pos x).le)
  have hz : 0 ≤ roundEven (x / 2 ^ F.gridExp x) :=
    le_roundEven (by simpa using div_nonneg hx (zpow_grid_pos x).le)
  exact_mod_cast hz

theorem roundPos_mono (hp : 0 < F.prec) {x y : ℚ} (hx : 0 ≤ x) (h : x ≤ y) :
    F.roundPos x ≤ F.roundPos y := by
  rcases eq_or_lt_of_le hx with rfl | hx
  · rw [roundPos_zero]
    exact roundPos_nonneg h
  · exact min_le_min le_rfl (nearest_mono hp hx h)

theorem round_neg (x : ℚ) : F.round (-x) = -F.round x := by
  rcases lt_trichotomy x 0 with hx | rfl | hx
  · rw [round, round, if_pos (by linarith), if_neg (by linarith), neg_neg]
  · rw [neg_zero, round, if_pos le_rfl, roundPos_zero, neg_zero]
  · rw [round, round, if_neg (by linarith), if_pos hx.le, neg_neg]

/-- **Rounding does not go below a number of the format.** -/
theorem le_round {x r : ℚ} (hr : F.Representable r) (hp : 0 < F.prec) (hinf : |r| ≤ F.inf)
    (h : r ≤ x) : r ≤ F.round x := by
  rcases lt_trichotomy x 0 with hx | rfl | hx
  · rw [round, if_neg (by linarith)]
    have hle := nearest_le hr.neg hp (x := -x) (by linarith) (by linarith)
    have hround : F.roundPos (-x) ≤ -r := (min_le_right _ _).trans hle
    linarith
  · rwa [round, if_pos le_rfl, roundPos_zero]
  · rw [round, if_pos hx.le]
    exact le_min (le_of_abs_le hinf) (le_nearest hr hp hx h)

/-- **Rounding does not go above a number of the format.** -/
theorem round_le {x r : ℚ} (hr : F.Representable r) (hp : 0 < F.prec) (hinf : |r| ≤ F.inf)
    (h : x ≤ r) : F.round x ≤ r := by
  have hneg := le_round hr.neg hp (by rwa [abs_neg]) (neg_le_neg h)
  rw [round_neg] at hneg
  linarith

/-- **Rounding is monotone.** -/
theorem round_mono (hp : 0 < F.prec) {x y : ℚ} (h : x ≤ y) : F.round x ≤ F.round y := by
  rcases le_or_gt 0 x with hx | hx
  · rw [round, round, if_pos hx, if_pos (hx.trans h)]
    exact roundPos_mono hp hx h
  · rw [round, if_neg (not_le.2 hx)]
    rcases le_or_gt 0 y with hy | hy
    · rw [round, if_pos hy]
      have hxneg := roundPos_nonneg (F := F) (x := -x) (by linarith)
      have hynonneg := roundPos_nonneg (F := F) hy
      linarith
    · rw [round, if_neg (not_le.2 hy)]
      exact neg_le_neg (roundPos_mono hp (by linarith) (by linarith))

/-- A number of the format is not changed. -/
theorem round_eq {x : ℚ} (hx : F.Representable x) (hp : 0 < F.prec) (hinf : |x| ≤ F.inf) :
    F.round x = x :=
  le_antisymm (round_le hx hp hinf le_rfl) (le_round hx hp hinf le_rfl)

/-! ### Exact sums -/

/-- **Sums of multiples of one power of two are exact** as long as they have few digits. -/
theorem sumFrom_eq (hp : 0 < F.prec) {k : ℤ} (hk : F.minExp ≤ k) {ys : List ℚ}
    (hys : ∀ y ∈ ys, ∃ m : ℕ, y = m * 2 ^ k) {m : ℕ}
    (hdigits : m * 2 ^ k + ys.sum ≤ 2 ^ (F.prec : ℤ) * 2 ^ k)
    (hinf : m * 2 ^ k + ys.sum < F.inf) :
    F.sumFrom (m * 2 ^ k) ys = m * 2 ^ k + ys.sum := by
  induction ys generalizing m with
  | nil => simp [sumFrom]
  | cons y ys ih =>
      obtain ⟨j, rfl⟩ := hys y List.mem_cons_self
      have hrest : ∀ y ∈ ys, ∃ m : ℕ, y = m * 2 ^ k := fun y hy => hys y (List.mem_cons_of_mem _ hy)
      have hnonneg : 0 ≤ ys.sum := List.sum_nonneg fun y hy => by
        obtain ⟨i, rfl⟩ := hrest y hy
        exact mul_nonneg (Nat.cast_nonneg _) (zpow_pos two_pos k).le
      have hsum : (m : ℚ) * 2 ^ k + j * 2 ^ k = ((m + j : ℕ) : ℚ) * 2 ^ k := by
        push_cast
        ring
      have hpow : (0 : ℚ) < 2 ^ k := zpow_pos two_pos k
      rw [List.sum_cons, ← add_assoc, hsum] at hdigits hinf ⊢
      -- the next partial sum is a number of the format
      have hlt : ((m + j : ℕ) : ℚ) * 2 ^ k < F.inf := by linarith
      have hle : ((m + j : ℕ) : ℚ) ≤ 2 ^ F.prec := by
        refine le_of_mul_le_mul_right ?_ hpow
        rw [zpow_natCast] at hdigits
        linarith
      have hrep : F.Representable (((m + j : ℕ) : ℚ) * 2 ^ k) := by
        refine ⟨((m + j : ℕ) : ℤ), k, ?_, hk, by push_cast; ring⟩
        rw [Nat.abs_cast]
        exact_mod_cast hle
      have habs : ∀ i : ℕ, |(i : ℚ) * 2 ^ k| = i * 2 ^ k := fun i =>
        abs_of_nonneg (mul_nonneg (Nat.cast_nonneg _) hpow.le)
      have hbefore : |(m : ℚ) * 2 ^ k| < F.inf := by
        rw [habs]
        refine lt_of_le_of_lt (mul_le_mul_of_nonneg_right ?_ hpow.le) hlt
        exact_mod_cast Nat.le_add_right m j
      have hadd : F.add (m * 2 ^ k) (j * 2 ^ k) = ((m + j : ℕ) : ℚ) * 2 ^ k := by
        rw [add, if_neg (not_le.2 hbefore), hsum, round_eq hrep hp (by rw [habs]; exact hlt.le)]
      rw [sumFrom, List.foldl_cons, hadd]
      exact ih hrest hdigits hinf

end Format

end FloatRound
