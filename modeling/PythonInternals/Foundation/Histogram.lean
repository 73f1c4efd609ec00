import Mathlib.Data.List.Count
import Mathlib.Data.Nat.Notation

/-!
# Histograms

A dictionary with numbers as its values, kept as the list of its items in the order of
insertion, and the loop that counts keys in it.  The number of a key is how often it was
counted (`get_tally`).
-/

/-- A dictionary from keys to numbers. -/
abbrev Histogram (κ : Type*) : Type _ := List (κ × ℕ)

namespace Histogram

variable {κ ι : Type*} [DecidableEq κ]

/-- `counts.get(key, default)`. -/
def get : Histogram κ → κ → ℕ → ℕ
  | [], _, default => default
  | (k, n) :: counts, key, default => if k = key then n else get counts key default

/-- `counts[key] = n`. -/
def set : Histogram κ → κ → ℕ → Histogram κ
  | [], key, n => [(key, n)]
  | (k, m) :: counts, key, n => if k = key then (k, n) :: counts else (k, m) :: set counts key n

/-- Count the key of every entry of a list. -/
def tally (f : ι → κ) (xs : List ι) : Histogram κ :=
  xs.foldl (fun counts x => set counts (f x) (get counts (f x) 0 + 1)) []

theorem get_set (counts : Histogram κ) (key : κ) (n : ℕ) (k : κ) (default : ℕ) :
  get (set counts key n) k default = if key = k then n else get counts k default
  := by
  induction counts with
  | nil => rfl
  | cons c counts ih =>
      obtain ⟨k', m⟩ := c
      by_cases hkey : k' = key
      · rw [set, if_pos hkey, get, get, hkey]
        split_ifs <;> rfl
      · rw [set, if_neg hkey, get, ih, get]
        split_ifs with hk hk'
        · exact absurd (hk.trans hk'.symm) hkey
        · rfl
        · rfl
        · rfl

theorem get_foldl (f : ι → κ) (xs : List ι) (counts : Histogram κ) (k : κ) :
  get (xs.foldl (fun counts x => set counts (f x) (get counts (f x) 0 + 1)) counts) k 0
    = get counts k 0 + xs.countP (fun x => f x = k)
  := by
  induction xs generalizing counts with
  | nil => rfl
  | cons x xs ih =>
      rw [List.foldl_cons, ih, get_set, List.countP_cons]
      by_cases h : f x = k
      · simp only [h, if_true, decide_true]
        omega
      · simp only [h, if_false, decide_false, Bool.false_eq_true, Nat.add_zero]

/-- The number of a key is the number of the entries that have it. -/
theorem get_tally (f : ι → κ) (xs : List ι) (k : κ) :
  get (tally f xs) k 0 = xs.countP (fun x => f x = k)
  := by
  rw [tally, get_foldl]
  apply Nat.zero_add

end Histogram
