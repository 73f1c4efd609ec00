import Mathlib.Data.Rat.Floor
import PythonInternals.Foundation.RunningTotal

/-!
# The generic and the specialised loop

The two loops of `tier2_demo.py`: `tier1_simulate` looks at the type of every element,
and `tier2_simulate`, which takes it as known that all elements are integers, adds up
those that are and passes over the others.

The results differ by the sum of the floats, each truncated toward zero
(`tier1Simulate_eq_add`), so they agree exactly when that sum is zero
(`tier2Simulate_eq_iff`).
-/

namespace Tier2

/-- A finite `float`: the number `mantissa * 2 ^ exponent`, in double precision. -/
structure FiniteFloat where
  mantissa : ℤ
  exponent : ℤ
  mantissa_lt : mantissa.natAbs < 2 ^ 53
  le_exponent : -1074 ≤ exponent
  exponent_le : exponent ≤ 971

namespace FiniteFloat

/-- The number that the float stands for. -/
def value (x : FiniteFloat) : ℚ := x.mantissa * 2 ^ x.exponent

/-- `int(x)`. -/
def trunc (x : FiniteFloat) : ℤ :=
  if 0 ≤ x.exponent then x.mantissa * 2 ^ x.exponent.toNat
  else x.mantissa.tdiv (2 ^ (-x.exponent).toNat)

/-- `int(x)` is the number rounded toward zero. -/
theorem trunc_eq (x : FiniteFloat) :
  x.trunc = if 0 ≤ x.value then ⌊x.value⌋ else ⌈x.value⌉
  := by
  by_cases hexp : 0 ≤ x.exponent
  · obtain ⟨k, hk⟩ := Int.eq_ofNat_of_zero_le hexp
    have hvalue : x.value = (x.mantissa * 2 ^ k : ℤ) := by
      rw [value, hk, zpow_natCast]
      push_cast
      rfl
    rw [trunc, if_pos hexp, hvalue, Int.floor_intCast, Int.ceil_intCast, ite_self, hk]
    rfl
  · obtain ⟨k, hk⟩ := Int.eq_ofNat_of_zero_le (a := -x.exponent) (by omega)
    have hvalue : x.value = x.mantissa / (2 ^ k : ℕ) := by
      rw [value, ← neg_neg x.exponent, hk, zpow_neg, zpow_natCast]
      push_cast
      rfl
    have hsign : 0 ≤ x.value ↔ 0 ≤ x.mantissa := by
      rw [hvalue, le_div_iff₀ (by positivity), zero_mul, Int.cast_nonneg_iff]
    rw [trunc, if_neg hexp, hk, Int.toNat_natCast]
    by_cases hm : 0 ≤ x.mantissa
    · rw [if_pos (hsign.mpr hm), hvalue, Rat.floor_intCast_div_natCast,
        Int.tdiv_eq_ediv_of_nonneg hm]
      rfl
    · rw [if_neg (hsign.not.mpr hm), hvalue, Rat.ceil_intCast_div_natCast,
        ← neg_neg x.mantissa, Int.neg_tdiv, Int.tdiv_eq_ediv_of_nonneg (by omega), neg_neg]
      rfl

end FiniteFloat

/-- An element of the list, by the types that the loops tell apart. -/
inductive Element where
  | int (n : ℤ)
  | bool (b : Bool)
  | float (x : FiniteFloat)
  | other

/-- A pass of the loop of `tier1_simulate`.  A `bool` is an instance of `int`. -/
def tier1Step (result : ℤ) : Element → ℤ
  | .int i => result + i
  | .bool i => result + i.toInt
  | .float i => result + i.trunc
  | .other => result + 0

/-- `tier1_simulate`. -/
def tier1Simulate (data : List Element) : ℤ := data.foldl tier1Step 0

/-- A pass of the loop of `tier2_simulate`. -/
def tier2Step (result : ℤ) : Element → ℤ
  | .int i => result + i
  | .bool i => result + i.toInt
  | _ => result

/-- `tier2_simulate`. -/
def tier2Simulate (data : List Element) : ℤ := data.foldl tier2Step 0

/-- The floats among the elements. -/
def floats (data : List Element) : List FiniteFloat :=
  data.filterMap (fun i => match i with | .float x => some x | _ => none)

/-- The sum of the truncated floats, element by element. -/
theorem sum_floats (data : List Element) :
  (data.map (fun i => ((floats [i]).map FiniteFloat.trunc).sum)).sum
    = ((floats data).map FiniteFloat.trunc).sum
  := by
  induction data with
  | nil => rfl
  | cons i data ih =>
      have hfloats : floats (i :: data) = floats [i] ++ floats data := by
        rw [floats, ← List.singleton_append, List.filterMap_append]
        rfl
      rw [List.map_cons, List.sum_cons, ih, hfloats, List.map_append, List.sum_append]

theorem tier2Step_eq (result : ℤ) (i : Element) :
  tier2Step result i = result + tier2Step 0 i
  := by
  cases i <;> simp [tier2Step]

/-- A generic pass adds what a specialised pass adds, and the floats truncated. -/
theorem tier1Step_eq (result : ℤ) (i : Element) :
  tier1Step result i = result + (tier2Step 0 i + ((floats [i]).map FiniteFloat.trunc).sum)
  := by
  cases i <;> simp [tier1Step, tier2Step, floats]

/-- The generic loop adds the truncated floats to what the specialised loop finds. -/
theorem tier1Simulate_eq_add (data : List Element) :
  tier1Simulate data = tier2Simulate data + ((floats data).map FiniteFloat.trunc).sum
  := by
  rw [tier1Simulate, tier2Simulate, RunningTotal.foldl_eq_add_sum tier1Step_eq,
    RunningTotal.foldl_eq_add_sum tier2Step_eq, List.sum_map_add, sum_floats, add_assoc]

/-- The two loops agree on a list exactly when its floats, truncated, add up to zero, so
they agree on every list without floats. -/
theorem tier2Simulate_eq_iff :
  (∀ data, tier2Simulate data = tier1Simulate data
      ↔ ((floats data).map FiniteFloat.trunc).sum = 0) ∧
    ∀ data, (∀ x, .float x ∉ data) → tier2Simulate data = tier1Simulate data
  := by
  constructor
  · intro data
    rw [tier1Simulate_eq_add, left_eq_add]
  · intro data hdata
    have hfloats : floats data = [] := by
      apply List.filterMap_eq_nil_iff.mpr
      intro i hi
      cases i with
      | float x => exact absurd hi (hdata x)
      | int n => rfl
      | bool b => rfl
      | other => rfl
    rw [tier1Simulate_eq_add, hfloats, List.map_nil, List.sum_nil, add_zero]

theorem tier2Simulate_without_floats :
  tier2Simulate [.int 1, .bool true, .other] = tier1Simulate [.int 1, .bool true, .other]
  := by
  apply tier2Simulate_eq_iff.2
  simp

/-- The float `1.5`. -/
def threeHalves : FiniteFloat where
  mantissa := 3
  exponent := -1
  mantissa_lt := by decide
  le_exponent := by decide
  exponent_le := by decide

theorem tier2Simulate_threeHalves :
  tier2Simulate [.int 1, .float threeHalves] ≠ tier1Simulate [.int 1, .float threeHalves]
  := by
  decide

end Tier2
