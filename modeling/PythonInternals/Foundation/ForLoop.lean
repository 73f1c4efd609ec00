import Mathlib.Data.List.Defs

/-!
# Loops over lists

A loop over a list is given by its body, which takes a state and an entry of the list to the
state after the pass; the loop `for x in xs` entered at `s` ends in `xs.foldl body s`.  The
body may go through states of its own, which `within` tells, as when it is a loop itself.
`During body within s xs t` says that `t` is one of the states that the loop goes through.

The state in which the loop ends is one of these (`During.exit`).  A loop invariant, which may
speak of the entries that are still to come, gives what holds of all of them
(`During.invariant`).  Of a loop whose passes may fail, `foldlM_invariant` gives what holds of
the state in which it ends.
-/

namespace ForLoop

variable {σ α : Type*}

/-- The states in between of a body that is a single step: there are none. -/
def Atomic : σ → α → σ → Prop := fun _ _ _ => False

/-- The loop over `xs` entered at `s` goes through the state `t`. -/
inductive During (body : σ → α → σ) (within : σ → α → σ → Prop) : σ → List α → σ → Prop where
  | head {s : σ} {xs : List α} : During body within s xs s
  | within {s t : σ} {x : α} {xs : List α} (h : within s x t) : During body within s (x :: xs) t
  | pass {s t : σ} {x : α} {xs : List α} (h : During body within (body s x) xs t) :
      During body within s (x :: xs) t

variable {body : σ → α → σ} {within : σ → α → σ → Prop}

/-- The loop goes through the state in which it ends. -/
theorem During.exit (s : σ) (xs : List α) :
  During body within s xs (xs.foldl body s)
  := by
  induction xs generalizing s with
  | nil => apply During.head
  | cons x xs ih => apply During.pass (ih (body s x))

/-- When every pass takes the invariant for the entries that are to come to the one for those
behind its own, then what follows from the invariant, at the head of the loop and within its
body, holds of every state that the loop goes through. -/
theorem During.invariant {I : List α → σ → Prop} {P : σ → Prop}
    (hhead : ∀ s xs, I xs s → P s)
    (hwithin : ∀ s x xs t, I (x :: xs) s → within s x t → P t)
    (hpass : ∀ s x xs, I (x :: xs) s → I xs (body s x))
    {s t : σ} {xs : List α} (h : During body within s xs t) (hs : I xs s) :
  P t
  := by
  induction h with
  | head => exact hhead _ _ hs
  | within hwith => exact hwithin _ _ _ _ hs hwith
  | pass _ ih => exact ih (hpass _ _ _ hs)

/-- What every pass preserves holds of the state in which a loop ends whose passes may fail. -/
theorem foldlM_invariant {step : σ → α → Option σ} {I : σ → Prop}
    (hstep : ∀ s x s', I s → step s x = some s' → I s') {xs : List α} {s s' : σ}
    (hrun : xs.foldlM step s = some s') (hs : I s) :
  I s'
  := by
  induction xs generalizing s with
  | nil =>
      obtain rfl := Option.some.inj hrun
      apply hs
  | cons x xs ih =>
      rw [List.foldlM_cons] at hrun
      obtain ⟨s₁, hx, hrest⟩ := Option.bind_eq_some_iff.mp hrun
      apply ih hrest (hstep s x s₁ hs hx)

end ForLoop
