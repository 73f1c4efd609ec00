import Mathlib.Algebra.BigOperators.Ring.Finset
import Mathlib.Data.Finset.Piecewise
import Mathlib.Tactic.Ring
import PythonInternals.Gil

/-!
# What the racing counter can be

The bounds of the racing counter are sharp, and nothing between them is left out: when any
number of threads, but at least two, do `n ≥ 2` iterations each, the numbers that the counter
can end with are those from 2 to the number of all iterations (`exists_final_iff`).

A thread that is not interrupted counts (`reachable_advance`).  To end with `k`, the threads
first count to `k - 2`; then a thread loads the counter and holds its register until all the
others, but for one iteration of a second thread, are through, and the second thread loads
what the first has stored and holds it until the first is through.
-/

namespace Gil

open Interleaving

/-- A number up to the sum of the `b t` is a sum of numbers up to the `b t`. -/
theorem exists_sum_eq {τ : Type*} [DecidableEq τ] (b : τ → ℕ) (S : Finset τ) {m : ℕ}
    (hm : m ≤ ∑ t ∈ S, b t) :
  ∃ a : τ → ℕ, (∀ t, a t ≤ b t) ∧ ∑ t ∈ S, a t = m
  := by
  induction S using Finset.induction_on generalizing m with
  | empty =>
      use fun _ => 0
      simpa [eq_comm] using hm
  | insert t S ht ih =>
      rw [Finset.sum_insert ht] at hm
      obtain ⟨a, ha, hsum⟩ := ih (m := min m (∑ t ∈ S, b t)) (Nat.min_le_right _ _)
      use Function.update a t (m - min m (∑ t ∈ S, b t))
      constructor
      · intro u
        rw [Function.update_apply]
        split_ifs with hu
        · rw [hu]
          omega
        · apply ha
      · rw [Finset.sum_insert ht, Function.update_self, Finset.sum_update_of_notMem ht, hsum]
        omega

/-- Two of the threads leave one iteration each. -/
theorem sum_room {τ : Type*} [Fintype τ] [DecidableEq τ] {u v : τ} (huv : u ≠ v) {n : ℕ}
    (hn : 1 ≤ n) :
  (∑ t, if t = u ∨ t = v then n - 1 else n) + 2 = Fintype.card τ * n
  := by
  have hpair : ∑ t, (if t = u ∨ t = v then 1 else 0) = 2 := by
    rw [Finset.sum_boole, Finset.filter_or, Finset.filter_eq', Finset.filter_eq']
    simp [huv]
  rw [← hpair, ← Finset.sum_add_distrib]
  apply Finset.sum_const_nat
  intro t _
  split_ifs <;> omega

section Schedules

variable {τ : Type*} [DecidableEq τ] {n : ℕ}

/-- A thread moves. -/
theorem reachable_step {c : Config τ ℤ Thread} {t : τ} {s : ℤ} {l : Thread}
    (h : increment n c.shared (c.thread t) = some (s, l)) :
  Reachable (increment n) c ⟨s, Function.update c.thread t l⟩
  := by
  apply Relation.ReflTransGen.single
  use t
  rw [actBy, h]
  rfl

/-- A thread loads the counter and adds one to its register. -/
theorem reachable_hold {c : Config τ ℤ Thread} {t : τ} {k : ℕ} (ht : c.thread t = ⟨k, .load⟩)
    (hk : k < n) :
  Reachable (increment n) c
    ⟨c.shared, Function.update c.thread t ⟨k, .store (c.shared + 1)⟩⟩
  := by
  have hload := reachable_step (n := n) (c := c) (t := t) (s := c.shared)
    (l := ⟨k, .add c.shared⟩) (by simp [increment, ht, hk])
  have hadd := reachable_step (n := n)
    (c := ⟨c.shared, Function.update c.thread t ⟨k, .add c.shared⟩⟩) (t := t) (s := c.shared)
    (l := ⟨k, .store (c.shared + 1)⟩) (by simp [increment])
  rw [Function.update_idem] at hadd
  apply Relation.ReflTransGen.trans hload hadd

/-- A thread stores its register. -/
theorem reachable_store {c : Config τ ℤ Thread} {t : τ} {k : ℕ} {register : ℤ}
    (ht : c.thread t = ⟨k, .store register⟩) :
  Reachable (increment n) c ⟨register, Function.update c.thread t ⟨k + 1, .load⟩⟩
  := by
  apply reachable_step
  rw [ht]
  rfl

/-- A thread that is not interrupted counts its iterations. -/
theorem reachable_iterations {c : Config τ ℤ Thread} {t : τ} {k : ℕ}
    (ht : c.thread t = ⟨k, .load⟩) {m : ℕ} (hm : k + m ≤ n) :
  Reachable (increment n) c ⟨c.shared + m, Function.update c.thread t ⟨k + m, .load⟩⟩
  := by
  induction m with
  | zero =>
      have hself : Function.update c.thread t ⟨k + 0, .load⟩ = c.thread := by
        rw [Nat.add_zero, ← ht, Function.update_eq_self]
      rw [hself, Nat.cast_zero, add_zero]
      apply Relation.ReflTransGen.refl
  | succ m ih =>
      have hhold := reachable_hold (n := n)
        (c := ⟨c.shared + m, Function.update c.thread t ⟨k + m, .load⟩⟩) (t := t) (k := k + m)
        (Function.update_self _ _ _) (by omega)
      have hstore := reachable_store (n := n)
        (c := ⟨c.shared + m, Function.update c.thread t ⟨k + m, .store (c.shared + m + 1)⟩⟩)
        (Function.update_self _ _ _)
      rw [Function.update_idem] at hhold hstore
      rw [Nat.cast_succ, ← add_assoc, ← Nat.add_assoc]
      apply Relation.ReflTransGen.trans (ih (by omega))
      apply Relation.ReflTransGen.trans hhold hstore

/-- Threads that are not interrupted, one after the other, count their iterations. -/
theorem reachable_advance {c : Config τ ℤ Thread} {S : Finset τ} {k a : τ → ℕ}
    (hk : ∀ t ∈ S, c.thread t = ⟨k t, .load⟩) (ha : ∀ t ∈ S, k t ≤ a t ∧ a t ≤ n) :
  Reachable (increment n) c
    ⟨c.shared + ∑ t ∈ S, ((a t - k t : ℕ) : ℤ), S.piecewise (fun t => ⟨a t, .load⟩) c.thread⟩
  := by
  induction S using Finset.induction_on with
  | empty =>
      rw [Finset.sum_empty, add_zero, Finset.piecewise_empty]
      apply Relation.ReflTransGen.refl
  | insert t S ht ih =>
      have hbefore := ih (fun u hu => hk u (Finset.mem_insert_of_mem hu))
        (fun u hu => ha u (Finset.mem_insert_of_mem hu))
      obtain ⟨hle, hlt⟩ := ha t (Finset.mem_insert_self t S)
      have hthread : S.piecewise (fun t => ⟨a t, .load⟩) c.thread t = ⟨k t, .load⟩ := by
        rw [Finset.piecewise_eq_of_notMem _ _ _ ht, hk t (Finset.mem_insert_self t S)]
      have hlast := reachable_iterations (n := n)
        (c := ⟨c.shared + ∑ t ∈ S, ((a t - k t : ℕ) : ℤ),
          S.piecewise (fun t => ⟨a t, .load⟩) c.thread⟩)
        hthread (m := a t - k t) (by omega)
      have hcount : k t + (a t - k t) = a t := by omega
      rw [hcount] at hlast
      rw [Finset.sum_insert ht, Finset.piecewise_insert, add_comm (((a t - k t : ℕ) : ℤ)),
        ← add_assoc]
      apply Relation.ReflTransGen.trans hbefore hlast

/-- All the threads count, then `u` holds what it loads while the others go on, `v` up to its
last iteration. -/
theorem exists_held [Fintype τ] (u v : τ) {a : τ → ℕ} (ha : ∀ t, a t ≤ n) (hu : a u < n)
    (hv : a v < n) :
  ∃ c, Reachable (increment n) (start τ) c ∧
    c.thread u = ⟨a u, .store ((∑ t, a t : ℕ) + 1)⟩ ∧
    ∀ t, t ≠ u → c.thread t = ⟨if t = v then n - 1 else n, .load⟩
  := by
  have hcount := reachable_advance (n := n) (c := start τ) (S := Finset.univ) (k := fun _ => 0)
    (a := a) (fun _ _ => rfl) (fun t _ => ⟨Nat.zero_le _, ha t⟩)
  simp only [Finset.piecewise_univ, Nat.sub_zero, start, zero_add, ← Nat.cast_sum] at hcount
  have hload := reachable_hold (n := n) (t := u) (k := a u)
    (c := ⟨((∑ t, a t : ℕ) : ℤ), fun t => ⟨a t, .load⟩⟩) rfl hu
  have hothers := reachable_advance (n := n) (S := Finset.univ.erase u) (k := a)
    (a := fun t => if t = v then n - 1 else n)
    (c := ⟨((∑ t, a t : ℕ) : ℤ), Function.update (fun t => ⟨a t, .load⟩) u
      ⟨a u, .store ((∑ t, a t : ℕ) + 1)⟩⟩)
    (by
      intro t ht
      simp [Finset.ne_of_mem_erase ht])
    (by
      intro t _
      have hat := ha t
      split_ifs with h
      · rw [h]
        omega
      · omega)
  refine ⟨_, (Relation.ReflTransGen.trans hcount hload).trans hothers, ?_, ?_⟩
  · simp
  · intro t ht
    simp [ht]

/-- Then `v` holds what `u` stores while `u` goes on: of all the iterations, those before the
first load and two more are counted. -/
theorem exists_final [Fintype τ] {u v : τ} (huv : u ≠ v) {a : τ → ℕ} (ha : ∀ t, a t ≤ n)
    (hu : a u < n) (hv : a v < n) :
  ∃ c, Reachable (increment n) (start τ) c ∧ Finished n c ∧ c.shared = (∑ t, a t : ℕ) + 2
  := by
  obtain ⟨⟨s, threads⟩, hheld, hthreads, hrest⟩ := exists_held u v ha hu hv
  simp only at hthreads hrest
  have hstore := reachable_store (n := n) (c := ⟨s, threads⟩) hthreads
  have hload := reachable_hold (n := n) (t := v) (k := n - 1)
    (c := ⟨(∑ t, a t : ℕ) + 1, Function.update threads u ⟨a u + 1, .load⟩⟩)
    (by simp [huv.symm, hrest]) (by omega)
  have hlast := reachable_iterations (n := n) (t := u) (k := a u + 1)
    (c := ⟨(∑ t, a t : ℕ) + 1, Function.update (Function.update threads u ⟨a u + 1, .load⟩) v
      ⟨n - 1, .store ((∑ t, a t : ℕ) + 1 + 1)⟩⟩)
    (by simp [huv]) (m := n - (a u + 1)) (by omega)
  have hfinal := reachable_store (n := n) (t := v)
    (c := ⟨(∑ t, a t : ℕ) + 1 + (n - (a u + 1) : ℕ), Function.update (Function.update
      (Function.update threads u ⟨a u + 1, .load⟩) v
      ⟨n - 1, .store ((∑ t, a t : ℕ) + 1 + 1)⟩) u ⟨a u + 1 + (n - (a u + 1)), .load⟩⟩)
    (by
      simp only
      rw [Function.update_of_ne huv.symm, Function.update_self])
  refine ⟨_, (((hheld.trans hstore).trans hload).trans hlast).trans hfinal, ?_, by ring⟩
  intro t
  simp only
  by_cases htv : t = v
  · rw [htv, Function.update_self, Nat.sub_add_cancel (by omega)]
  · rw [Function.update_of_ne htv]
    by_cases htu : t = u
    · rw [htu, Function.update_self, Nat.add_sub_cancel' (by omega)]
    · simp [htv, htu, hrest]

end Schedules

/-- When at least two threads do `n ≥ 2` iterations each, in any interleaving, the counter can
end with the numbers from 2 to the number of all iterations, and with no others. -/
theorem exists_final_iff {τ : Type*} [Fintype τ] [DecidableEq τ] [Nontrivial τ] {n : ℕ}
    (hn : 2 ≤ n) (k : ℤ) :
  (∃ c, Reachable (increment n) (start τ) c ∧ Finished n c ∧ c.shared = k)
    ↔ 2 ≤ k ∧ k ≤ Fintype.card τ * n
  := by
  constructor
  · rintro ⟨c, hc, hfin, rfl⟩
    have hinv := Invariant.of_reachable hn hc
    have hall : completed c = Fintype.card τ * n :=
      Finset.sum_const_nat (fun t _ => by rw [hfin t])
    have hle := hinv.counter_le
    rw [hall] at hle
    use hinv.counter_final hfin
    exact_mod_cast hle
  · rintro ⟨hlow, hhigh⟩
    obtain ⟨u, v, huv⟩ := exists_pair_ne τ
    -- how many iterations of each thread come before the first load of the schedule
    have hroom := sum_room huv (show 1 ≤ n by omega)
    obtain ⟨a, ha, hsum⟩ := exists_sum_eq (fun t => if t = u ∨ t = v then n - 1 else n)
      Finset.univ (m := (k - 2).toNat) (by omega)
    have hau : a u ≤ n - 1 := by simpa using ha u
    have hav : a v ≤ n - 1 := by simpa using ha v
    obtain ⟨c, hc, hfin, hshared⟩ := exists_final (n := n) huv
      (fun t => (ha t).trans (by split_ifs <;> omega)) (by omega) (by omega)
    use c, hc, hfin
    rw [hshared, hsum]
    omega

instance : Nontrivial ThreadId := ⟨.t1, .t2, by decide⟩

/-- Two threads of a million iterations each can end with 1598372. -/
theorem exists_final_two_threads :
  ∃ c, Reachable (increment 1000000) (start ThreadId) c ∧ Finished 1000000 c ∧
    c.shared = 1598372
  := by
  apply (exists_final_iff (by omega) 1598372).2
  rw [show Fintype.card ThreadId = 2 from rfl]
  omega

end Gil
