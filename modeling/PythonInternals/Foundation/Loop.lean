import Mathlib.Logic.Relation
import Mathlib.Data.Nat.Basic

/-!
# Loops

A loop is given by its body, a function from the states of the loop to `Except ρ σ`:
`body s = .ok s'` when a pass over `s` goes round again with `s'`, and
`body s = .error r` when it leaves the loop with the result `r`.  `run body n s` is the
result of the loop entered at `s`, when it is left within `n` passes, and
`Visits body s s'` says that the loop entered at `s` comes to its head with `s'`.

The rules are the usual ones.  What every pass preserves holds at the head of the loop
(`Visits.invariant`) and gives what holds of the result (`run_post`); a quantity that
every pass decreases bounds the number of passes (`run_of_variant`); and the result
does not depend on how many passes are allowed, once they are enough (`run_unique`).
-/

namespace Loop

variable {σ ρ : Type*}

/-- The result of the loop entered at `s`, when it is left within `n` passes. -/
def run (body : σ → Except ρ σ) : ℕ → σ → Option ρ
  | 0, _ => none
  | n + 1, s =>
      match body s with
      | .ok s' => run body n s'
      | .error r => some r

/-- The loop entered at `s` comes to its head with `s'`. -/
def Visits (body : σ → Except ρ σ) : σ → σ → Prop :=
  Relation.ReflTransGen (fun s s' => body s = .ok s')

variable {body : σ → Except ρ σ}

theorem run_of_ok {n : ℕ} {s s' : σ} (h : body s = .ok s') :
  run body (n + 1) s = run body n s'
  := by
  simp only [run, h]

theorem run_of_error {n : ℕ} {s : σ} {r : ρ} (h : body s = .error r) :
  run body (n + 1) s = some r
  := by
  simp only [run, h]

/-- A loop left within `n` passes is left with the same result when more are allowed. -/
theorem run_mono {n m : ℕ} {s : σ} {r : ρ} (hnm : n ≤ m) (h : run body n s = some r) :
  run body m s = some r
  := by
  induction n generalizing m s with
  | zero => cases h
  | succ n ih =>
      obtain ⟨m, rfl⟩ : ∃ k, m = k + 1 := ⟨m - 1, by omega⟩
      cases hb : body s with
      | ok s' =>
          rw [run_of_ok hb] at h
          rw [run_of_ok hb]
          apply ih _ h
          omega
      | error r' =>
          rw [run_of_error hb] at h
          rw [run_of_error hb, h]

/-- Any two numbers of passes that are enough give the same result. -/
theorem run_unique {n m : ℕ} {s : σ} {r r' : ρ}
    (h : run body n s = some r) (h' : run body m s = some r') :
  r = r'
  := by
  have hr := run_mono (Nat.le_max_left n m) h
  have hr' := run_mono (Nat.le_max_right n m) h'
  rw [hr] at hr'
  apply Option.some.inj hr'

/-- A property that every pass preserves holds whenever the loop comes to its head. -/
theorem Visits.invariant {I : σ → Prop} (hstep : ∀ s s', I s → body s = .ok s' → I s')
    {s s' : σ} (h : Visits body s s') (hs : I s) :
  I s'
  := by
  induction h with
  | refl => exact hs
  | tail _ hpass ih => exact hstep _ _ ih hpass

/-- A loop that is left was at its head with a state that leaves it. -/
theorem exists_exit {n : ℕ} {s : σ} {r : ρ} (h : run body n s = some r) :
  ∃ s', Visits body s s' ∧ body s' = .error r
  := by
  induction n generalizing s with
  | zero => cases h
  | succ n ih =>
      cases hb : body s with
      | ok s₁ =>
          rw [run_of_ok hb] at h
          obtain ⟨s', hvisit, hexit⟩ := ih h
          use s', Relation.ReflTransGen.head hb hvisit
      | error r' =>
          rw [run_of_error hb] at h
          use s, Relation.ReflTransGen.refl
          rw [hb, Option.some.inj h]

/-- A loop that comes to a state that leaves it is left with the result of that state. -/
theorem exists_run_of_visits {s s' : σ} {r : ρ} (h : Visits body s s')
    (hexit : body s' = .error r) :
  ∃ n, run body n s = some r
  := by
  induction h using Relation.ReflTransGen.head_induction_on with
  | refl =>
      use 1
      apply run_of_error hexit
  | head hpass _ ih =>
      obtain ⟨n, hn⟩ := ih
      use n + 1
      rw [run_of_ok hpass, hn]

/-- What follows from the invariant on leaving the loop holds of its result. -/
theorem run_post {I : σ → Prop} {P : ρ → Prop} (hstep : ∀ s s', I s → body s = .ok s' → I s')
    (hexit : ∀ s r, I s → body s = .error r → P r)
    {n : ℕ} {s : σ} {r : ρ} (hs : I s) (h : run body n s = some r) :
  P r
  := by
  obtain ⟨s', hvisit, hr⟩ := exists_exit h
  apply hexit s' r _ hr
  apply hvisit.invariant hstep hs

/-- A loop is left within `n` passes when a quantity below `n` decreases at every pass
that goes round again. -/
theorem run_of_variant {I : σ → Prop} (μ : σ → ℕ)
    (hstep : ∀ s s', I s → body s = .ok s' → I s' ∧ μ s' < μ s)
    {n : ℕ} {s : σ} (hs : I s) (hn : μ s < n) :
  ∃ r, run body n s = some r
  := by
  induction n generalizing s with
  | zero => omega
  | succ n ih =>
      cases hb : body s with
      | ok s' =>
          rw [run_of_ok hb]
          obtain ⟨hs', hlt⟩ := hstep s s' hs hb
          apply ih hs'
          omega
      | error r =>
          use r
          apply run_of_error hb

end Loop
