import Mathlib.Algebra.BigOperators.Group.List.Basic
import Mathlib.Algebra.Order.Monoid.Unbundled.Basic
import Mathlib.Order.Bounds.Basic
import Mathlib.Order.MinMax

/-!
# Running totals

The totals `total es k` of the first `k` entries of a list, and the pass over the list
that keeps the running total and the greatest total so far.  What the pass ends with is
the greatest of all running totals (`isGreatest_peak`).  A loop that adds something for
every entry ends with the sum of what it adds (`foldl_eq_add_sum`).
-/

namespace RunningTotal

variable {M : Type*}

/-- The sum of the first `k` entries. -/
def total [AddMonoid M] (es : List M) (k : ℕ) : M := (es.take k).sum

/-- A pass of the fold: the running total, and the greatest total so far. -/
def advance [Add M] [Max M] (s : M × M) (e : M) : M × M := (s.1 + e, max s.2 (s.1 + e))

/-- The greatest total that the pass over the list meets, the empty one included. -/
def peak [AddMonoid M] [Max M] (es : List M) : M := (es.foldl advance (0, 0)).2

section Total

variable [AddMonoid M]

@[simp]
theorem total_zero (es : List M) :
  total es 0 = 0
  := by
  simp [total]

@[simp]
theorem total_cons_succ (e : M) (es : List M) (k : ℕ) :
  total (e :: es) (k + 1) = e + total es k
  := by
  simp [total]

theorem total_succ {es : List M} {k : ℕ} (hk : k < es.length) :
  total es (k + 1) = total es k + es[k]
  := List.sum_take_succ es k hk

theorem total_append {es : List M} {k : ℕ} (hk : k ≤ es.length) (fs : List M) :
  total (es ++ fs) k = total es k
  := by
  rw [total, total, List.take_append_of_le_length hk]

theorem total_length (es : List M) :
  total es es.length = es.sum
  := by
  simp [total]

end Total

/-- Running totals of sums are sums of running totals. -/
theorem total_map_add {ι : Type*} [AddCommMonoid M] (f g : ι → M) (xs : List ι) (k : ℕ) :
  total (xs.map (fun x => f x + g x)) k = total (xs.map f) k + total (xs.map g) k
  := by
  simp only [total, ← List.map_take, List.sum_map_add]

/-- A loop whose passes add `f x` adds up the values of `f`. -/
theorem foldl_eq_add_sum {ι : Type*} [AddMonoid M] {step : M → ι → M} {f : ι → M}
    (hstep : ∀ r x, step r x = r + f x) (r : M) (xs : List ι) :
  xs.foldl step r = r + (xs.map f).sum
  := by
  induction xs generalizing r with
  | nil => simp
  | cons x xs ih => rw [List.foldl_cons, ih, hstep, List.map_cons, List.sum_cons, add_assoc]

section Peak

variable [AddMonoid M] [LinearOrder M]

/-- The fold entered at the total `t` ends with the greatest of the totals from `t` on,
or with the greatest so far. -/
theorem isGreatest_foldl_advance (es : List M) (t m : M) :
  IsGreatest (insert m {x | ∃ k, k < es.length ∧ x = t + total es (k + 1)})
    (es.foldl advance (t, m)).2
  := by
  induction es generalizing t m with
  | nil => simp [IsGreatest]
  | cons e es ih =>
      obtain ⟨hmem, hupper⟩ := ih (t + e) (max m (t + e))
      rw [List.foldl_cons, advance]
      constructor
      · obtain hmax | ⟨k, hk, hx⟩ := hmem
        · rw [hmax]
          rcases max_choice m (t + e) with h | h
          · left
            apply h
          · right
            use 0
            simp [h]
        · right
          use k + 1
          rw [hx, total_cons_succ, add_assoc]
          exact ⟨by simpa using hk, rfl⟩
      · have hle := hupper (Set.mem_insert _ _)
        rintro x (rfl | ⟨k, hk, rfl⟩)
        · apply (le_max_left _ _).trans hle
        · cases k with
          | zero =>
              rw [total_cons_succ, total_zero, add_zero]
              apply (le_max_right _ _).trans hle
          | succ k =>
              apply hupper
              right
              use k
              rw [total_cons_succ, add_assoc]
              exact ⟨by simpa using hk, rfl⟩

/-- The pass ends with the greatest running total. -/
theorem isGreatest_peak (es : List M) :
  IsGreatest {x | ∃ k ≤ es.length, x = total es k} (peak es)
  := by
  obtain ⟨hmem, hupper⟩ := isGreatest_foldl_advance es 0 0
  constructor
  · obtain hzero | ⟨k, hk, hx⟩ := hmem
    · use 0
      rw [total_zero]
      exact ⟨Nat.zero_le _, hzero⟩
    · use k + 1
      rw [zero_add] at hx
      exact ⟨hk, hx⟩
  · rintro x ⟨k, hk, rfl⟩
    apply hupper
    cases k with
    | zero =>
        left
        apply total_zero
    | succ k =>
        right
        use k
        rw [zero_add]
        exact ⟨hk, rfl⟩

theorem fst_foldl_advance (es : List M) (t m : M) :
  (es.foldl advance (t, m)).1 = t + es.sum
  := by
  induction es generalizing t m with
  | nil => simp
  | cons e es ih => rw [List.foldl_cons, advance, ih, List.sum_cons, add_assoc]

/-- A last entry that does not raise the total does not matter for the greatest one. -/
theorem peak_concat [AddLeftMono M] (es : List M) {e : M} (he : e ≤ 0) :
  peak (es ++ [e]) = peak es
  := by
  have htotal : es.sum ≤ peak es := (isGreatest_peak es).2 ⟨_, le_rfl, (total_length es).symm⟩
  have hlast : es.sum + e ≤ peak es := (add_le_of_nonpos_right he).trans htotal
  rw [peak, List.foldl_append, List.foldl_cons, List.foldl_nil, advance, fst_foldl_advance,
    zero_add]
  apply max_eq_left hlast

end Peak

end RunningTotal
