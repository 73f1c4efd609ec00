import Mathlib.Data.List.Count
import Mathlib.Data.Nat.Notation

/-!
# Sequences of operations

A data type with operations is given by a function `step` from its states and the operations to
the state after the operation and what the operation gives, if it does not fail; `run step` is
its extension to sequences of operations.

Two such types are compared by a relation of their states that every operation keeps: then every
sequence of operations fails in both or in neither, and gives the same in both (`run_rel`).  The
cost of a sequence is bounded by the potential method (`totalCost_le`).
-/

namespace Operations

variable {σ τ ι ω : Type*}

/-- What a sequence of operations leads to, and what the operations give. -/
def run (step : σ → ι → Option (σ × ω)) (s : σ) : List ι → Option (σ × List ω)
  | [] => some (s, [])
  | i :: is =>
      match step s i with
      | none => none
      | some (s', o) => (run step s' is).map (fun r => (r.1, o :: r.2))

/-- The states are related and the outcomes are equal. -/
def Same {ω : Type*} (R : σ → τ → Prop) (a : σ × ω) (b : τ × ω) : Prop :=
  R a.1 b.1 ∧ a.2 = b.2

/-- When every operation keeps the relation, so does every sequence of operations. -/
theorem run_rel {step : σ → ι → Option (σ × ω)} {spec : τ → ι → Option (τ × ω)}
    {R : σ → τ → Prop} (hstep : ∀ s t i, R s t → Option.Rel (Same R) (step s i) (spec t i))
    {s : σ} {t : τ} (hst : R s t) (is : List ι) :
  Option.Rel (Same R) (run step s is) (run spec t is)
  := by
  induction is generalizing s t with
  | nil => exact Option.Rel.some ⟨hst, rfl⟩
  | cons i is ih =>
      have hrel := hstep s t i hst
      simp only [run]
      generalize step s i = a at hrel
      generalize spec t i = b at hrel
      cases hrel with
      | none => exact Option.Rel.none
      | @some a b hab =>
          obtain ⟨s', o⟩ := a
          obtain ⟨t', o'⟩ := b
          obtain ⟨hst', rfl⟩ : R s' t' ∧ o = o' := hab
          have hrun := ih hst'
          dsimp only
          generalize run step s' is = a at hrun
          generalize run spec t' is = b at hrun
          cases hrun with
          | none => exact Option.Rel.none
          | some hab =>
              apply Option.Rel.some
              exact ⟨hab.1, congrArg (o :: ·) hab.2⟩

/-- What every operation keeps holds after every sequence of operations. -/
theorem run_invariant {step : σ → ι → Option (σ × ω)} (Inv : σ → Prop)
    (hstep : ∀ s i s' o, Inv s → step s i = some (s', o) → Inv s') {s s' : σ} (hs : Inv s)
    {is : List ι} {os : List ω} (hrun : run step s is = some (s', os)) :
  Inv s'
  := by
  induction is generalizing s os with
  | nil =>
      obtain ⟨rfl, -⟩ := Prod.mk.inj (Option.some.inj hrun)
      exact hs
  | cons i is ih =>
      rw [run] at hrun
      cases hfirst : step s i with
      | none =>
          rw [hfirst] at hrun
          contradiction
      | some a =>
          rw [hfirst] at hrun
          obtain ⟨b, hb, heq⟩ := Option.map_eq_some_iff.mp hrun
          obtain ⟨rfl, -⟩ := Prod.mk.inj heq
          exact ih (hstep s i a.1 a.2 hs hfirst) hb

/-- The cost of a sequence of operations. -/
def totalCost (step : σ → ι → Option (σ × ω)) (cost : σ → ι → ℕ) (s : σ) : List ι → ℕ
  | [] => 0
  | i :: is =>
      match step s i with
      | none => 0
      | some (s', _) => cost s i + totalCost step cost s' is

/-- When the potential pays what an operation costs beyond the charge `b`, which only some of
the operations are asked for, a sequence costs no more than its charges and the potential that
it begins with. -/
theorem totalCost_le {step : σ → ι → Option (σ × ω)} {cost : σ → ι → ℕ} (Inv : σ → Prop)
    (potential : σ → ℕ) {charged : ι → Bool} {b : ℕ}
    (hinv : ∀ s i s' o, Inv s → step s i = some (s', o) → Inv s')
    (hcost : ∀ s i s' o, Inv s → step s i = some (s', o) →
      cost s i + potential s' ≤ (if charged i then b else 0) + potential s)
    {s : σ} (hs : Inv s) (is : List ι) :
  totalCost step cost s is ≤ is.countP charged * b + potential s
  := by
  induction is generalizing s with
  | nil => exact Nat.zero_le _
  | cons i is ih =>
      rw [totalCost, List.countP_cons]
      cases hfirst : step s i with
      | none => exact Nat.zero_le _
      | some a =>
          have hrest := ih (hinv s i a.1 a.2 hs hfirst)
          have hpaid := hcost s i a.1 a.2 hs hfirst
          cases hi : charged i with
          | true =>
              rw [hi] at hpaid
              simp only [if_true] at hpaid ⊢
              rw [Nat.succ_mul]
              omega
          | false =>
              rw [hi] at hpaid
              simp only [Bool.false_eq_true, if_false, Nat.add_zero] at hpaid ⊢
              omega

end Operations
