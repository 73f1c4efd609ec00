import Mathlib.Algebra.BigOperators.Group.Finset.Basic
import Mathlib.Algebra.Order.Ring.Int
import Mathlib.Data.Fintype.BigOperators
import PythonInternals.Foundation.Interleaving

/-!
# The racing counter

The threads of `gil_demo.py`.  Each of them runs `increment`, whose statement
`counter += 1` is three bytecode steps: load the shared counter into a register, add one
to the register, store the register back.  The lock makes each step atomic and lets the
threads interleave between the steps.

The counter never exceeds the number of increments completed so far, and when all the
threads have finished it is at least 2, however many iterations they do
(`counter_bounds`).  Both bounds come from one invariant, which ties the counter and
every private register to the progress of the threads (`Invariant`).
-/

namespace Gil

open Interleaving

/-- How far a thread is with `counter += 1`: it is about to load the counter, to add one
to its register, or to store it. -/
inductive Phase where
  | load
  | add (register : ℤ)
  | store (register : ℤ)
  deriving DecidableEq

/-- A thread in the loop `for _ in range(n)`, with the iterations it has completed. -/
structure Thread where
  completed : ℕ
  phase : Phase
  deriving DecidableEq

/-- One bytecode step of `increment`, undefined when the loop is over. -/
def increment (n : ℕ) (counter : ℤ) (t : Thread) : Option (ℤ × Thread) :=
  match t.phase with
  | .load => if t.completed < n then some (counter, ⟨t.completed, .add counter⟩) else none
  | .add register => some (counter, ⟨t.completed, .store (register + 1)⟩)
  | .store register => some (register, ⟨t.completed + 1, .load⟩)

/-- The counter is 0, and no thread has started. -/
def start (τ : Type*) : Config τ ℤ Thread where
  shared := 0
  thread _ := ⟨0, .load⟩

/-- All the threads are through their `n` iterations. -/
def Finished {τ : Type*} (n : ℕ) (c : Config τ ℤ Thread) : Prop :=
  ∀ t, c.thread t = ⟨n, .load⟩

section Invariant

variable {τ : Type*} [Fintype τ]

/-- The increments completed by all the threads together. -/
def completed (c : Config τ ℤ Thread) : ℕ := ∑ t, (c.thread t).completed

/-- What a thread has in its register, when `total` increments are completed: a count that
is not too large, and not zero once the thread itself has completed an iteration. -/
def RegisterBounds (total : ℤ) (t : Thread) : Prop :=
  match t.phase with
  | .load => True
  | .add register => 0 ≤ register ∧ register ≤ total ∧ (1 ≤ t.completed → 1 ≤ register)
  | .store register =>
      1 ≤ register ∧ register ≤ total + 1 ∧ (1 ≤ t.completed → 2 ≤ register)

theorem RegisterBounds.mono {total total' : ℤ} {t : Thread} (hle : total ≤ total')
    (ht : RegisterBounds total t) :
  RegisterBounds total' t
  := by
  obtain ⟨k, _ | register | register⟩ := t
  · apply ht
  · obtain ⟨h₀, h₁, h₂⟩ := ht
    exact ⟨h₀, h₁.trans hle, h₂⟩
  · obtain ⟨h₀, h₁, h₂⟩ := ht
    exact ⟨h₀, by omega, h₂⟩

/-- The counter is between 0 and the completed increments, not 0 once any thread has
completed an iteration, and at least 2 when all the threads have finished. -/
structure Invariant (n : ℕ) (c : Config τ ℤ Thread) : Prop where
  counter_nonneg : 0 ≤ c.shared
  counter_le : c.shared ≤ completed c
  counter_pos : ∀ t, 1 ≤ (c.thread t).completed → 1 ≤ c.shared
  registers : ∀ t, RegisterBounds (completed c) (c.thread t)
  counter_final : Finished n c → 2 ≤ c.shared

theorem Invariant.start [Nonempty τ] {n : ℕ} (hn : 2 ≤ n) :
  Invariant n (start τ)
  where
  counter_nonneg := le_rfl
  counter_le := by simp [Gil.start]
  counter_pos t ht := by simp [Gil.start] at ht
  registers t := trivial
  counter_final hfin := by
    obtain ⟨t⟩ := ‹Nonempty τ›
    have hzero : 0 = n := congrArg Thread.completed (hfin t)
    omega

variable [DecidableEq τ]

/-- Only the thread that moves changes the number of completed increments. -/
theorem completed_update (c : Config τ ℤ Thread) (s : ℤ) (t : τ) (l : Thread) :
  completed ⟨s, Function.update c.thread t l⟩ + (c.thread t).completed
    = completed c + l.completed
  := by
  have hold := Finset.add_sum_erase Finset.univ (fun u => (c.thread u).completed)
    (Finset.mem_univ t)
  have hnew := Finset.add_sum_erase Finset.univ
    (fun u => (Function.update c.thread t l u).completed) (Finset.mem_univ t)
  have hrest : ∑ u ∈ Finset.univ.erase t, (Function.update c.thread t l u).completed
      = ∑ u ∈ Finset.univ.erase t, (c.thread u).completed := by
    apply Finset.sum_congr rfl
    intro u hu
    rw [Function.update_of_ne (Finset.ne_of_mem_erase hu)]
  simp only [Function.update_self] at hnew
  simp only [completed]
  omega

/-- A step that completes no iteration and leaves the counter alone keeps the invariant,
when the register of the thread that moves stays within its bounds. -/
theorem Invariant.update_register {n : ℕ} {c : Config τ ℤ Thread} (hc : Invariant n c) (t : τ)
    {phase : Phase} (hphase : phase ≠ .load)
    (hbounds : RegisterBounds (completed c) ⟨(c.thread t).completed, phase⟩) :
  Invariant n ⟨c.shared, Function.update c.thread t ⟨(c.thread t).completed, phase⟩⟩
  := by
  have htotal := completed_update c c.shared t ⟨(c.thread t).completed, phase⟩
  have htotal' : completed ⟨c.shared, Function.update c.thread t ⟨(c.thread t).completed, phase⟩⟩
      = completed c := by
    simp only at htotal
    omega
  constructor
  · apply hc.counter_nonneg
  · rw [htotal']
    apply hc.counter_le
  · intro u hu
    by_cases hut : u = t
    · subst hut
      simp only [Function.update_self] at hu
      apply hc.counter_pos u hu
    · simp only [Function.update_of_ne hut] at hu
      apply hc.counter_pos u hu
  · intro u
    rw [htotal']
    by_cases hut : u = t
    · subst hut
      simpa only [Function.update_self] using hbounds
    · simpa only [Function.update_of_ne hut] using hc.registers u
  · -- the thread that moves is not through its loop
    intro hfin
    have ht := hfin t
    simp only [Function.update_self, Thread.mk.injEq] at ht
    exact absurd ht.2 hphase

/-- The step that stores a register keeps the invariant. -/
theorem Invariant.update_counter {n : ℕ} (hn : 2 ≤ n) {c : Config τ ℤ Thread}
    (hc : Invariant n c) (t : τ) {register : ℤ}
    (hbounds : RegisterBounds (completed c) ⟨(c.thread t).completed, .store register⟩) :
  Invariant n ⟨register, Function.update c.thread t ⟨(c.thread t).completed + 1, .load⟩⟩
  := by
  simp only [RegisterBounds] at hbounds
  obtain ⟨hpos, hle, hone⟩ := hbounds
  have htotal := completed_update c register t ⟨(c.thread t).completed + 1, .load⟩
  simp only at htotal
  constructor
  · simp only
    omega
  · simp only
    omega
  · intro _ _
    apply hpos
  · intro u
    by_cases hut : u = t
    · subst hut
      simp only [Function.update_self]
      trivial
    · simp only [Function.update_of_ne hut]
      apply (hc.registers u).mono
      omega
  · -- a thread that completes its last iteration has completed one before
    intro hfin
    have ht := hfin t
    simp only [Function.update_self, Thread.mk.injEq] at ht
    simp only
    omega

/-- Every bytecode step of a thread keeps the invariant. -/
theorem Invariant.step {n : ℕ} (hn : 2 ≤ n) (c : Config τ ℤ Thread) (t : τ) (s : ℤ) (l : Thread)
    (hc : Invariant n c) (hact : increment n c.shared (c.thread t) = some (s, l)) :
  Invariant n ⟨s, Function.update c.thread t l⟩
  := by
  have hregister := hc.registers t
  have hpos := hc.counter_pos t
  cases hphase : (c.thread t).phase with
  | load =>
      simp only [increment, hphase] at hact
      split_ifs at hact
      obtain ⟨rfl, rfl⟩ := Prod.mk.inj (Option.some.inj hact)
      apply hc.update_register t (by simp)
      exact ⟨hc.counter_nonneg, hc.counter_le, hpos⟩
  | add register =>
      simp only [increment, hphase] at hact
      obtain ⟨rfl, rfl⟩ := Prod.mk.inj (Option.some.inj hact)
      simp only [RegisterBounds, hphase] at hregister
      apply hc.update_register t (by simp)
      simp only [RegisterBounds]
      omega
  | store register =>
      simp only [increment, hphase] at hact
      obtain ⟨rfl, rfl⟩ := Prod.mk.inj (Option.some.inj hact)
      apply hc.update_counter hn t
      simpa only [RegisterBounds, hphase] using hregister

/-- The invariant holds in every configuration that an interleaving leads to. -/
theorem Invariant.of_reachable [Nonempty τ] {n : ℕ} (hn : 2 ≤ n) {c : Config τ ℤ Thread}
    (hc : Reachable (increment n) (Gil.start τ) c) :
  Invariant n c
  := hc.invariant (Invariant.step hn) (Invariant.start hn)

end Invariant

/-! ### Two threads -/

/-- The two threads of the demo. -/
inductive ThreadId where
  | t1
  | t2
  deriving DecidableEq, Inhabited

instance : Fintype ThreadId := ⟨{.t1, .t2}, by rintro (_ | _) <;> decide⟩

/-- For every interleaving of the two threads, each doing `n ≥ 2` iterations: the counter
is at most the number of completed increments, and when both threads have finished it is
between 2 and `2 * n`. -/
theorem counter_bounds {n : ℕ} (hn : 2 ≤ n) {c : Config ThreadId ℤ Thread}
    (hc : Reachable (increment n) (start ThreadId) c) :
  c.shared ≤ (c.thread .t1).completed + (c.thread .t2).completed ∧
    (Finished n c → 2 ≤ c.shared ∧ c.shared ≤ 2 * n)
  := by
  obtain ⟨-, hle, -, -, hfinal⟩ := Invariant.of_reachable hn hc
  have hsum : completed c = (c.thread .t1).completed + (c.thread .t2).completed := by
    simp [completed, Finset.univ, Fintype.elems]
  constructor
  · omega
  · intro hfin
    have h₁ : (c.thread .t1).completed = n := by rw [hfin]
    have h₂ : (c.thread .t2).completed = n := by rw [hfin]
    use hfinal hfin
    omega

/-- A schedule in which each thread in turn overwrites what the other has counted. -/
def lossySchedule : List ThreadId :=
  [.t1, .t2, .t2, .t2, .t1, .t1, .t2, .t1, .t1, .t1, .t2, .t2]

/-- The schedule `lossySchedule` finishes two iterations of each thread with the counter
at the lower bound. -/
theorem lossySchedule_counter :
  ∃ c, runSchedule (increment 2) lossySchedule (start ThreadId) = some c ∧
    Finished 2 c ∧ c.shared = 2 ∧ 2 ≤ c.shared ∧ c.shared ≤ 2 * (2 : ℕ)
  := by
  have hrun : runSchedule (increment 2) lossySchedule (start ThreadId) = some _ := rfl
  have hreachable := reachable_of_runSchedule hrun
  refine ⟨_, hrun, ?_, rfl, ?_⟩
  · rintro (_ | _) <;> rfl
  · apply (counter_bounds le_rfl hreachable).2
    rintro (_ | _) <;> rfl

end Gil
