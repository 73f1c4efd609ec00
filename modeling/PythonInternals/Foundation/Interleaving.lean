import Mathlib.Logic.Function.Basic
import Mathlib.Logic.Relation
import PythonInternals.Foundation.ForLoop

/-!
# Interleavings

Threads indexed by a type `τ` act on a shared state, each with a state of its own.  The
action of a thread is a partial function `act` of the shared state and its own state, the
same for all of them; a thread on whose states it is undefined cannot move.  A step lets
any thread that can move act once, so a run is an interleaving of the threads.

What every action preserves holds of every reachable configuration
(`Reachable.invariant`).  A schedule, the list of the threads that move, can be run
(`runSchedule`), and what it leads to is reachable (`reachable_of_runSchedule`).
-/

namespace Interleaving

/-- The shared state, and the state of each thread. -/
structure Config (τ S L : Type*) where
  shared : S
  thread : τ → L

variable {τ S L : Type*} [DecidableEq τ]

/-- Let the thread `t` act. -/
def actBy (act : S → L → Option (S × L)) (t : τ) (c : Config τ S L) : Option (Config τ S L) :=
  (act c.shared (c.thread t)).map (fun p => ⟨p.1, Function.update c.thread t p.2⟩)

/-- Some thread acts. -/
def Step (act : S → L → Option (S × L)) (c c' : Config τ S L) : Prop :=
  ∃ t, actBy act t c = some c'

/-- An interleaving leads from `c` to `c'`. -/
def Reachable (act : S → L → Option (S × L)) : Config τ S L → Config τ S L → Prop :=
  Relation.ReflTransGen (Step act)

/-- Let the threads of a schedule act one after another. -/
def runSchedule (act : S → L → Option (S × L)) (ts : List τ) (c : Config τ S L) :
    Option (Config τ S L) :=
  ts.foldlM (fun c t => actBy act t c) c

variable {act : S → L → Option (S × L)}

/-- The configuration after an action: the thread that moves has its new state, every
other thread keeps its own. -/
theorem actBy_eq_some {t : τ} {c c' : Config τ S L} (h : actBy act t c = some c') :
  ∃ s l, act c.shared (c.thread t) = some (s, l) ∧ c' = ⟨s, Function.update c.thread t l⟩
  := by
  obtain ⟨⟨s, l⟩, hact, rfl⟩ := Option.map_eq_some_iff.mp h
  use s, l, hact

/-- A property that every action preserves holds in every reachable configuration. -/
theorem Reachable.invariant {I : Config τ S L → Prop}
    (hact : ∀ c t s l, I c → act c.shared (c.thread t) = some (s, l) →
      I ⟨s, Function.update c.thread t l⟩)
    {c c' : Config τ S L} (h : Reachable act c c') (hc : I c) :
  I c'
  := by
  induction h with
  | refl => exact hc
  | tail _ hstep ih =>
      obtain ⟨t, ht⟩ := hstep
      obtain ⟨s, l, hsl, rfl⟩ := actBy_eq_some ht
      apply hact _ t s l ih hsl

/-- What a schedule leads to is reachable. -/
theorem reachable_of_runSchedule {ts : List τ} {c c' : Config τ S L}
    (h : runSchedule act ts c = some c') :
  Reachable act c c'
  := by
  apply ForLoop.foldlM_invariant (I := Reachable act c) _ h
  · apply Relation.ReflTransGen.refl
  · intro c₁ t c₂ hreach hstep
    apply hreach.tail ⟨t, hstep⟩

end Interleaving
