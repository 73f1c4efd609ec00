import Mathlib.Algebra.Ring.Nat
import Mathlib.Data.List.Count
import Mathlib.Data.Nat.Find
import Mathlib.Tactic.Push
import PythonInternals.Foundation.Loop

/-!
# Linear probing

The items `0`, …, `n - 1` lie in the `2 ^ log2` slots of a table.  An item is looked for at its
home position and then in one slot after the other, round the end of the table, up to a slot that
is empty.

`Table log2 home n slots` says that every item can be found in this way.  It holds of the empty
table (`Table.replicate`), and it still holds when one more item is put into the first empty slot
after its home position (`Table.set`); as long as there are fewer items than slots, the search
ends, with the item or with the answer that there is none (`Table.run_find`, `Table.run_none`).
-/

namespace Probing

/-- The slot at the distance `d` of `start`. -/
def probe (log2 start d : ℕ) : ℕ := (start + d) % 2 ^ log2

/-- Leave the search at the slot `i`, or go on with the next slot. -/
def body {ρ : Type*} (log2 : ℕ) (exit : ℕ → Option ρ) (i : ℕ) : Except ρ ℕ :=
  match exit i with
  | some r => .error r
  | none => .ok ((i + 1) &&& (2 ^ log2 - 1))

theorem probe_lt (log2 start d : ℕ) :
  probe log2 start d < 2 ^ log2
  := Nat.mod_lt _ (Nat.two_pow_pos log2)

theorem probe_succ (log2 start d : ℕ) :
  (probe log2 start d + 1) &&& (2 ^ log2 - 1) = probe log2 start (d + 1)
  := by
  rw [Nat.and_two_pow_sub_one_eq_mod, probe, Nat.mod_add_mod]
  rfl

/-- Every slot is at some distance of `start`. -/
theorem exists_probe {log2 : ℕ} (start : ℕ) {i : ℕ} (hi : i < 2 ^ log2) :
  ∃ d < 2 ^ log2, probe log2 start d = i
  := by
  have hstart : start % 2 ^ log2 < 2 ^ log2 := Nat.mod_lt _ (Nat.two_pow_pos log2)
  have hprobe (d : ℕ) : probe log2 start d = (start % 2 ^ log2 + d) % 2 ^ log2 := by
    rw [probe, Nat.mod_add_mod]
  by_cases hle : start % 2 ^ log2 ≤ i
  · use i - start % 2 ^ log2, (by omega)
    rw [hprobe, Nat.add_sub_cancel' hle, Nat.mod_eq_of_lt hi]
  · use i + 2 ^ log2 - start % 2 ^ log2, (by omega)
    have hsum : start % 2 ^ log2 + (i + 2 ^ log2 - start % 2 ^ log2) = i + 2 ^ log2 := by omega
    rw [hprobe, hsum, Nat.add_mod_right, Nat.mod_eq_of_lt hi]

/-- The search is left at the first slot where it can be left. -/
theorem run_body {ρ : Type*} {log2 start d : ℕ} {exit : ℕ → Option ρ} {r : ρ}
    (hbefore : ∀ d' < d, exit (probe log2 start d') = none)
    (hexit : exit (probe log2 start d) = some r) {n : ℕ} (hn : d < n) :
  Loop.run (body log2 exit) n (probe log2 start 0) = some r
  := by
  have hrun (k : ℕ) (hk : k ≤ d) :
      Loop.run (body log2 exit) (k + 1) (probe log2 start (d - k)) = some r := by
    induction k with
    | zero =>
        apply Loop.run_of_error
        rw [body, Nat.sub_zero, hexit]
    | succ k ih =>
        have hnext : d - (k + 1) + 1 = d - k := by omega
        have hbody : body log2 exit (probe log2 start (d - (k + 1)))
            = .ok (probe log2 start (d - k)) := by
          rw [body, hbefore (d - (k + 1)) (by omega)]
          dsimp only
          rw [probe_succ, hnext]
        rw [Loop.run_of_ok hbody]
        exact ih (by omega)
  have hfirst := hrun d (Nat.le_refl d)
  rw [Nat.sub_self] at hfirst
  exact Loop.run_mono hn hfirst

/-- Every item is in a slot that a search which begins at its home position comes to. -/
structure Table (log2 : ℕ) (home : ℕ → ℕ) (n : ℕ) (slots : List (Option ℕ)) : Prop where
  length : slots.length = 2 ^ log2
  count : slots.countP Option.isSome = n
  bound : ∀ i e : ℕ, slots[i]? = some (some e) → e < n
  found : ∀ e < n, ∃ d, slots[probe log2 (home e) d]? = some (some e)
    ∧ ∀ d' < d, ∃ e' : ℕ, slots[probe log2 (home e) d']? = some (some e')

namespace Table

variable {log2 : ℕ} {home : ℕ → ℕ} {n : ℕ} {slots : List (Option ℕ)}

theorem replicate (log2 : ℕ) (home : ℕ → ℕ) :
  Table log2 home 0 (List.replicate (2 ^ log2) none)
  where
  length := List.length_replicate
  count := by simp [List.countP_replicate]
  bound i e h := by
    rw [List.getElem?_replicate] at h
    split at h <;> simp at h
  found e he := absurd he (Nat.not_lt_zero e)

/-- Only the home positions of the items matter. -/
theorem congr (h : Table log2 home n slots) {home' : ℕ → ℕ} (hhome : ∀ e < n, home e = home' e) :
  Table log2 home' n slots
  where
  length := h.length
  count := h.count
  bound := h.bound
  found e he := by
    rw [← hhome e he]
    exact h.found e he

theorem slot_cases (h : Table log2 home n slots) (start d : ℕ) :
  slots[probe log2 start d]? = some none ∨ ∃ e < n, slots[probe log2 start d]? = some (some e)
  := by
  have hlt : probe log2 start d < slots.length := by
    rw [h.length]
    exact probe_lt log2 start d
  have hslot := List.getElem?_eq_getElem hlt
  cases hentry : slots[probe log2 start d] with
  | none =>
      left
      rw [hslot, hentry]
  | some e =>
      right
      rw [hentry] at hslot
      exact ⟨e, h.bound _ _ hslot, hslot⟩

/-- When there are fewer items than slots, every search comes to an empty slot. -/
theorem exists_empty (h : Table log2 home n slots) (hn : n < 2 ^ log2) (start : ℕ) :
  ∃ d < 2 ^ log2, slots[probe log2 start d]? = some none
    ∧ ∀ d' < d, ∃ e < n, slots[probe log2 start d']? = some (some e)
  := by
  classical
  have hempty : ∃ d, d < 2 ^ log2 ∧ slots[probe log2 start d]? = some none := by
    have hcount : slots.countP Option.isSome ≠ slots.length := by
      rw [h.count, h.length]
      omega
    rw [Ne, List.countP_eq_length] at hcount
    push Not at hcount
    obtain ⟨slot, hmem, hnone⟩ := hcount
    obtain rfl : slot = none := by simpa using hnone
    obtain ⟨i, hi, hslot⟩ := List.getElem_of_mem hmem
    rw [h.length] at hi
    obtain ⟨d, hd, rfl⟩ := exists_probe start hi
    use d, hd
    rw [← hslot]
    exact List.getElem?_eq_getElem _
  obtain ⟨hlt, hslot⟩ := Nat.find_spec hempty
  use Nat.find hempty, hlt, hslot
  intro d' hd'
  obtain hnone | hsome := h.slot_cases start d'
  · exact absurd ⟨by omega, hnone⟩ (Nat.find_min hempty hd')
  · exact hsome

/-- One more item is put into the first empty slot after its home position. -/
theorem set (h : Table log2 home n slots) {d : ℕ}
    (hempty : slots[probe log2 (home n) d]? = some none)
    (hbefore : ∀ d' < d, ∃ e, slots[probe log2 (home n) d']? = some (some e)) :
  Table log2 home (n + 1) (slots.set (probe log2 (home n) d) (some n))
  := by
  obtain ⟨hlt, hnone⟩ := List.getElem?_eq_some_iff.mp hempty
  have hother {i : ℕ} {e : ℕ} (hi : slots[i]? = some (some e)) :
      (slots.set (probe log2 (home n) d) (some n))[i]? = some (some e) := by
    rw [List.getElem?_set_ne, hi]
    rintro rfl
    rw [hempty] at hi
    cases hi
  exact
    { length := by rw [List.length_set, h.length]
      count := by
        rw [List.countP_set hlt, hnone, h.count]
        rfl
      bound := by
        intro i e hi
        rw [List.getElem?_set] at hi
        split at hi
        · simp only [Option.some.injEq] at hi
          omega
        · exact Nat.lt_succ_of_lt (h.bound i e hi)
      found := by
        intro e he
        obtain hlt' | rfl := Nat.lt_succ_iff_lt_or_eq.mp he
        · obtain ⟨d', hslot, hpath⟩ := h.found e hlt'
          use d', hother hslot
          intro d'' hd''
          obtain ⟨e', he'⟩ := hpath d'' hd''
          exact ⟨e', hother he'⟩
        · use d, List.getElem?_set_self hlt
          intro d' hd'
          obtain ⟨e', he'⟩ := hbefore d' hd'
          exact ⟨e', hother he'⟩ }

/-- A search that passes all the other items and leaves at the item `e` finds it. -/
theorem run_find {ρ : Type*} (h : Table log2 home n slots) (exit : ℕ → Option ρ) {r : ℕ → ρ}
    {e : ℕ} (he : e < n)
    (hexit : ∀ i e', slots[i]? = some (some e') → exit i = if e' = e then some (r i) else none) :
  ∃ i, slots[i]? = some (some e)
    ∧ Loop.run (body log2 exit) (2 ^ log2) (probe log2 (home e) 0) = some (r i)
  := by
  classical
  obtain ⟨d, hslot, hpath⟩ := h.found e he
  have hitem : ∃ d, slots[probe log2 (home e) d]? = some (some e) := ⟨d, hslot⟩
  obtain ⟨d', hlt, hprobe⟩ := exists_probe (home e) (probe_lt log2 (home e) d)
  have hle : Nat.find hitem ≤ d' := Nat.find_min' hitem (by rwa [hprobe])
  have hfirst := Nat.find_spec hitem
  use probe log2 (home e) (Nat.find hitem), hfirst
  apply run_body _ _ (Nat.lt_of_le_of_lt hle hlt)
  · intro d'' hd''
    have hbefore := Nat.find_min hitem hd''
    have hle' := Nat.find_min' hitem hslot
    obtain ⟨e', he'⟩ := hpath d'' (by omega)
    rw [hexit _ e' he', if_neg]
    rintro rfl
    exact hbefore he'
  · rw [hexit _ e hfirst, if_pos rfl]

/-- A search that passes all the items is left at the first empty slot. -/
theorem run_none {ρ : Type*} (h : Table log2 home n slots) (hn : n < 2 ^ log2)
    (exit : ℕ → Option ρ) {r : ℕ → ρ} (start : ℕ)
    (hskip : ∀ i e, slots[i]? = some (some e) → exit i = none)
    (hexit : ∀ i, slots[i]? = some none → exit i = some (r i)) :
  ∃ d, slots[probe log2 start d]? = some none
    ∧ (∀ d' < d, ∃ e : ℕ, slots[probe log2 start d']? = some (some e))
    ∧ Loop.run (body log2 exit) (2 ^ log2) (probe log2 start 0) = some (r (probe log2 start d))
  := by
  obtain ⟨d, hlt, hslot, hpath⟩ := h.exists_empty hn start
  use d, hslot
  constructor
  · intro d' hd'
    obtain ⟨e, -, he⟩ := hpath d' hd'
    exact ⟨e, he⟩
  · apply run_body _ (hexit _ hslot) hlt
    intro d' hd'
    obtain ⟨e, -, he⟩ := hpath d' hd'
    exact hskip _ e he

end Table

end Probing
