import Mathlib.Algebra.BigOperators.Group.Finset.Basic
import Mathlib.Algebra.Order.Ring.Int
import Mathlib.Data.Fintype.BigOperators
import PythonInternals.Gil

/-!
# The lock

The threads take the lock before they run bytecode, and give it up between two instructions
after every so many of them.  An instruction is a sequence of steps of C code.

At most one thread has the lock, and some thread can always go on until all of them are through
(`gil_safe`): a thread that waits is woken when the lock is given up.  So the steps of an
instruction are never interrupted, and whatever the threads do, they do by interleaving whole
instructions (`bytecodes_atomic`).  In particular no change of a reference count is lost, though
it is read and written in two steps (`refcnt_exact`).
-/

namespace Gil

open Interleaving

/-- Where a thread is: at the head of the loop of `take_gil`, in `COND_WAIT`, about to begin an
instruction, at the rest of an instruction, or through with its code. -/
inductive Status (S L : Type*) where
  | take
  | wait
  | begin
  | exec (rest : List (S × L → S × L))
  | done

namespace Status

variable {S L : Type*}

/-- The thread has the lock. -/
def holds : Status S L → Bool
  | begin => true
  | exec _ => true
  | _ => false

def waits : Status S L → Bool
  | wait => true
  | _ => false

end Status

/-- The lock, the shared state, and the threads with their own states. -/
structure Runtime (τ S L : Type*) where
  locked : Bool
  check_interval : ℤ
  shared : S
  status : τ → Status S L
  own : τ → L

section Model

variable {τ S L : Type*} [DecidableEq τ] [Fintype τ]

/-- The thread is at another place now. -/
def Runtime.goto (c : Runtime τ S L) (t : τ) (status : Status S L) : Runtime τ S L :=
  { c with status := Function.update c.status t status }

/-- `drop_gil`.  `COND_SIGNAL` wakes one of the threads that wait, if there are any. -/
def drop_gil (woken : Option τ) (c : Runtime τ S L) : Option (Runtime τ S L) :=
  match woken with
  | some u =>
      if (c.status u).waits then some (Runtime.goto { c with locked := false } u .take) else none
  | none => if ∀ u, (c.status u).waits = false then some { c with locked := false } else none

variable (fetch : L → Option (List (S × L → S × L))) (DEFAULT_INTERVAL : ℤ)

/-- What the thread `t` does next: a test of `locked` in `take_gil`, the beginning of an
instruction, a step of it, or the test of `check_interval` behind it. -/
def step (t : τ) (woken : Option τ) (c : Runtime τ S L) : Option (Runtime τ S L) :=
  match c.status t with
  | .take =>
      if c.locked then some (c.goto t .wait)
      else some (Runtime.goto { c with locked := true } t .begin)
  | .wait => none
  | .begin =>
      match fetch (c.own t) with
      | none => drop_gil woken (c.goto t .done)
      | some rest => some (c.goto t (.exec rest))
  | .exec (f :: rest) =>
      let (s, l) := f (c.shared, c.own t)
      some (Runtime.goto { c with shared := s, own := Function.update c.own t l } t (.exec rest))
  | .exec [] =>
      if c.check_interval - 1 ≤ 0 then
        if c.locked then
          drop_gil woken (Runtime.goto { c with check_interval := DEFAULT_INTERVAL } t .take)
        else some (Runtime.goto { c with check_interval := DEFAULT_INTERVAL } t .begin)
      else some (Runtime.goto { c with check_interval := c.check_interval - 1 } t .begin)
  | .done => none

/-- Some thread goes on. -/
def Step (c c' : Runtime τ S L) : Prop :=
  ∃ t woken, step fetch DEFAULT_INTERVAL t woken c = some c'

/-- The lock is free, and all the threads want it. -/
def init (s : S) (l : τ → L) : Runtime τ S L where
  locked := false
  check_interval := DEFAULT_INTERVAL
  shared := s
  status _ := .take
  own := l

/-- What can come of the threads. -/
def Run (s : S) (l : τ → L) : Runtime τ S L → Prop :=
  Relation.ReflTransGen (Step fetch DEFAULT_INTERVAL) (init DEFAULT_INTERVAL s l)

/-- Let the threads of a list go on, one after another; each comes with the thread that it wakes,
if it gives up the lock. -/
def schedule (ts : List (τ × Option τ)) (c : Runtime τ S L) : Option (Runtime τ S L) :=
  ts.foldlM (fun c p => step fetch DEFAULT_INTERVAL p.1 p.2 c) c

/-- The rest of an instruction, without interruption. -/
def finish (rest : List (S × L → S × L)) (p : S × L) : S × L := rest.foldl (fun p f => f p) p

/-- A whole instruction at once. -/
def instruction (s : S) (l : L) : Option (S × L) := (fetch l).map (fun rest => finish rest (s, l))

end Model

/-! ### What a step can do -/

section Cases

variable {τ S L : Type*} [DecidableEq τ] [Fintype τ] {c c' : Runtime τ S L}

/-- After `drop_gil` the lock is free, and if threads wait, one of them was woken. -/
theorem drop_gil_cases {woken : Option τ} (h : drop_gil woken c = some c') :
  (∃ u, (c.status u).waits = true ∧ c' = Runtime.goto { c with locked := false } u .take) ∨
    ((∀ u, (c.status u).waits = false) ∧ c' = { c with locked := false })
  := by
  cases woken with
  | none =>
      rw [drop_gil] at h
      split at h
      · next hnone =>
        right
        exact ⟨hnone, (Option.some.inj h).symm⟩
      · cases h
  | some u =>
      rw [drop_gil] at h
      split at h
      · next hu =>
        left
        exact ⟨u, hu, (Option.some.inj h).symm⟩
      · cases h

/-- `drop_gil` is possible always. -/
theorem exists_drop_gil (c : Runtime τ S L) :
  ∃ woken c', drop_gil woken c = some c'
  := by
  by_cases hwait : ∃ u, (c.status u).waits = true
  · obtain ⟨u, hu⟩ := hwait
    use some u
    rw [drop_gil, if_pos hu]
    exact ⟨_, rfl⟩
  · use none
    rw [drop_gil, if_pos]
    · exact ⟨_, rfl⟩
    · intro u
      apply Bool.eq_false_of_not_eq_true
      intro hu
      exact hwait ⟨u, hu⟩

variable {fetch : L → Option (List (S × L → S × L))} {DEFAULT_INTERVAL : ℤ}

/-- Everything that a thread can do next. -/
theorem step_cases {t : τ} {woken : Option τ}
    (h : step fetch DEFAULT_INTERVAL t woken c = some c') :
  (c.status t = .take ∧ c.locked = true ∧ c' = c.goto t .wait) ∨
  (c.status t = .take ∧ c.locked = false ∧ c' = Runtime.goto { c with locked := true } t .begin) ∨
  (c.status t = .begin ∧ fetch (c.own t) = none ∧ drop_gil woken (c.goto t .done) = some c') ∨
  (∃ rest, c.status t = .begin ∧ fetch (c.own t) = some rest ∧ c' = c.goto t (.exec rest)) ∨
  (∃ f rest, c.status t = .exec (f :: rest) ∧ c' = Runtime.goto { c with
    shared := (f (c.shared, c.own t)).1,
    own := Function.update c.own t (f (c.shared, c.own t)).2 } t (.exec rest)) ∨
  (∃ k, c.status t = .exec [] ∧ c' = Runtime.goto { c with check_interval := k } t .begin) ∨
  (∃ k, c.status t = .exec [] ∧ c.locked = true
    ∧ drop_gil woken (Runtime.goto { c with check_interval := k } t .take) = some c')
  := by
  rw [step] at h
  split at h
  · next hstatus =>
    split at h
    · next hlocked =>
      left
      exact ⟨hstatus, hlocked, (Option.some.inj h).symm⟩
    · next hlocked =>
      right; left
      exact ⟨hstatus, Bool.eq_false_of_not_eq_true hlocked, (Option.some.inj h).symm⟩
  · cases h
  · next hstatus =>
    split at h
    · next hfetch =>
      right; right; left
      exact ⟨hstatus, hfetch, h⟩
    · next rest hfetch =>
      right; right; right; left
      exact ⟨rest, hstatus, hfetch, (Option.some.inj h).symm⟩
  · next f rest hstatus =>
    right; right; right; right; left
    exact ⟨f, rest, hstatus, (Option.some.inj h).symm⟩
  · next hstatus =>
    right; right; right; right; right
    split at h
    · split at h
      · next hlocked =>
        right
        exact ⟨DEFAULT_INTERVAL, hstatus, hlocked, h⟩
      · left
        exact ⟨DEFAULT_INTERVAL, hstatus, (Option.some.inj h).symm⟩
    · left
      exact ⟨c.check_interval - 1, hstatus, (Option.some.inj h).symm⟩
  · cases h

end Cases

/-! ### Who has the lock -/

section Exclusion

variable {τ S L : Type*}

/-- The lock is locked exactly when a thread has it, and only one thread has it.  When it is
free and threads wait, another thread is about to take it. -/
structure Guarded (locked : Bool) (status : τ → Status S L) : Prop where
  holder : locked = true ↔ ∃ t, (status t).holds = true
  unique : ∀ t u, (status t).holds = true → (status u).holds = true → t = u
  awake : locked = false → (∃ t, (status t).waits = true) → ∃ u, status u = .take

namespace Guarded

variable {status status' : τ → Status S L} {t : τ}

/-- Nobody takes the lock or gives it up. -/
theorem congr (h : Guarded true status) (heq : ∀ u, (status' u).holds = (status u).holds) :
  Guarded true status'
  where
  holder := by
    simpa only [heq] using h.holder
  unique := by
    simp only [heq]
    exact h.unique
  awake hlocked := by cases hlocked

variable [DecidableEq τ]

/-- A thread that has the lock keeps it. -/
theorem keep {locked : Bool} (h : Guarded locked status) (ht : (status t).holds = true)
    {place : Status S L} (hplace : place.holds = true) :
  Guarded locked (Function.update status t place)
  := by
  obtain rfl : locked = true := h.holder.mpr ⟨t, ht⟩
  apply h.congr
  intro u
  rw [Function.update_apply]
  split
  · next hu => rw [hu, ht, hplace]
  · rfl

/-- A thread takes the lock that is free. -/
theorem grab (h : Guarded false status) :
  Guarded true (Function.update status t .begin)
  := by
  have hfree : ∀ u, (status u).holds = false := by
    intro u
    apply Bool.eq_false_of_not_eq_true
    intro hu
    cases h.holder.mpr ⟨u, hu⟩
  have hholds : ∀ u, (Function.update status t .begin u).holds = true → u = t := by
    intro u hu
    rw [Function.update_apply] at hu
    split at hu
    · next heq => exact heq
    · rw [hfree u] at hu
      cases hu
  constructor
  · refine iff_of_true rfl ⟨t, ?_⟩
    rw [Function.update_self]
    rfl
  · intro u w hu hw
    rw [hholds u hu, hholds w hw]
  · intro hlocked
    cases hlocked

variable [Fintype τ]

/-- A thread gives the lock up. -/
theorem drop {c c' : Runtime τ S L} (h : Guarded c.locked c.status) (ht : (c.status t).holds = true)
    {place : Status S L} (hplace : place.holds = false) {k : ℤ} {woken : Option τ}
    (hdrop : drop_gil woken (Runtime.goto { c with check_interval := k } t place) = some c') :
  Guarded c'.locked c'.status
  := by
  have hfree : ∀ u, (Function.update c.status t place u).holds = false := by
    intro u
    rw [Function.update_apply]
    split
    · exact hplace
    · next hu =>
      apply Bool.eq_false_of_not_eq_true
      intro hheld
      exact hu (h.unique u t hheld ht)
  rcases drop_gil_cases hdrop with ⟨u, hu, rfl⟩ | ⟨hnone, rfl⟩
  · have hfree' : ∀ w, (Function.update (Function.update c.status t place) u .take w).holds
        = false := by
      intro w
      rw [Function.update_apply]
      split
      · rfl
      · exact hfree w
    constructor
    · refine iff_of_false Bool.false_ne_true ?_
      rintro ⟨w, hw⟩
      exact Bool.false_ne_true ((hfree' w).symm.trans hw)
    · intro w _ hw
      exact absurd ((hfree' w).symm.trans hw) Bool.false_ne_true
    · intro _ _
      use u
      exact Function.update_self _ _ _
  · constructor
    · refine iff_of_false Bool.false_ne_true ?_
      rintro ⟨w, hw⟩
      exact Bool.false_ne_true ((hfree w).symm.trans hw)
    · intro w _ hw
      exact absurd ((hfree w).symm.trans hw) Bool.false_ne_true
    · rintro - ⟨w, hw⟩
      exact absurd ((hnone w).symm.trans hw) Bool.false_ne_true

/-- Every step keeps the lock. -/
theorem step {fetch : L → Option (List (S × L → S × L))} {DEFAULT_INTERVAL : ℤ}
    {c c' : Runtime τ S L} {woken : Option τ} (h : Guarded c.locked c.status)
    (hstep : step fetch DEFAULT_INTERVAL t woken c = some c') :
  Guarded c'.locked c'.status
  := by
  have hholds {place : Status S L} (hstatus : c.status t = place) (hplace : place.holds = true) :
      (c.status t).holds = true := by
    rw [hstatus, hplace]
  rcases step_cases hstep with ⟨hstatus, hlocked, rfl⟩ | ⟨hstatus, hlocked, rfl⟩ |
    ⟨hstatus, -, hdrop⟩ | ⟨rest, hstatus, -, rfl⟩ | ⟨f, rest, hstatus, rfl⟩ | ⟨k, hstatus, rfl⟩ |
    ⟨k, hstatus, -, hdrop⟩
  · dsimp only [Runtime.goto]
    rw [hlocked] at h ⊢
    apply h.congr
    intro u
    rw [Function.update_apply]
    split
    · next hu =>
      rw [hu, hstatus]
      rfl
    · rfl
  · rw [hlocked] at h
    exact h.grab
  · exact h.drop (k := c.check_interval) (hholds hstatus rfl) rfl hdrop
  · exact h.keep (hholds hstatus rfl) rfl
  · exact h.keep (hholds hstatus rfl) rfl
  · exact h.keep (hholds hstatus rfl) rfl
  · exact h.drop (hholds hstatus rfl) rfl hdrop

end Guarded

end Exclusion

/-! ### Whole instructions -/

section Atomicity

variable {τ S L : Type*}

/-- The configuration `a` is what `c` comes to when the instruction that a thread is in the
course of is finished. -/
structure Completed (c : Runtime τ S L) (a : Config τ S L) : Prop where
  running : ∀ t rest, c.status t = .exec rest →
    finish rest (c.shared, c.own t) = (a.shared, a.thread t)
  others : ∀ t, (∀ rest, c.status t ≠ .exec rest) → a.thread t = c.own t
  shared_eq : (∀ t rest, c.status t ≠ .exec rest) → a.shared = c.shared

namespace Completed

variable {c c' : Runtime τ S L} {a : Config τ S L}

/-- Threads go elsewhere, but not in the course of an instruction. -/
theorem move (h : Completed c a) (hshared : c'.shared = c.shared) (hown : c'.own = c.own)
    (hexec : ∀ t rest, c'.status t = .exec rest → c.status t = .exec rest)
    (hleft : ∀ t rest, c.status t = .exec rest → c'.status t = .exec rest ∨ rest = []) :
  Completed c' a
  where
  running t rest ht := by
    rw [hshared, hown]
    apply h.running t rest (hexec t rest ht)
  others t ht := by
    rw [hown]
    by_cases hex : ∃ rest, c.status t = .exec rest
    · obtain ⟨rest, hrest⟩ := hex
      rcases hleft t rest hrest with hstill | rfl
      · exact absurd hstill (ht rest)
      · exact (congrArg Prod.snd (h.running t [] hrest)).symm
    · apply h.others
      intro rest hrest
      exact hex ⟨rest, hrest⟩
  shared_eq hnone := by
    rw [hshared]
    by_cases hex : ∃ t rest, c.status t = .exec rest
    · obtain ⟨t, rest, hrest⟩ := hex
      rcases hleft t rest hrest with hstill | rfl
      · exact absurd hstill (hnone t rest)
      · exact (congrArg Prod.fst (h.running t [] hrest)).symm
    · apply h.shared_eq
      intro t rest hrest
      exact hex ⟨t, rest, hrest⟩

variable [DecidableEq τ]

/-- A thread goes from one place outside the instructions to another, or comes to the end of an
instruction. -/
theorem goto (h : Completed c a) (t : τ) (place : Status S L)
    (ht : ∀ rest, c.status t = .exec rest → rest = []) (hplace : ∀ rest, place ≠ .exec rest)
    (hshared : c'.shared = c.shared) (hown : c'.own = c.own)
    (hstatus : c'.status = Function.update c.status t place) :
  Completed c' a
  := by
  apply h.move hshared hown
  · intro u rest hu
    rw [hstatus, Function.update_apply] at hu
    split at hu
    · exact absurd hu (hplace rest)
    · exact hu
  · intro u rest hu
    rw [hstatus, Function.update_apply]
    split
    · next heq =>
      rw [heq] at hu
      right
      exact ht rest hu
    · left
      exact hu

variable [Fintype τ]

/-- Giving up the lock is no part of an instruction. -/
theorem drop_gil (h : Completed c a) {woken : Option τ} (hdrop : drop_gil woken c = some c') :
  Completed c' a
  := by
  rcases drop_gil_cases hdrop with ⟨u, hu, rfl⟩ | ⟨-, rfl⟩
  · refine h.goto u .take ?_ ?_ rfl rfl rfl
    · intro rest hrest
      rw [hrest] at hu
      cases hu
    · intro rest hrest
      cases hrest
  · exact h.move rfl rfl (fun _ _ ht => ht) (fun _ _ ht => Or.inl ht)

end Completed

variable [DecidableEq τ] {fetch : L → Option (List (S × L → S × L))} {DEFAULT_INTERVAL : ℤ}

/-- What the threads have done they could have done by whole instructions, up to the one that a
thread is in the course of; and those that are through have nothing left to do. -/
structure Traced (fetch : L → Option (List (S × L → S × L))) (s : S) (l : τ → L)
    (c : Runtime τ S L) : Prop where
  guarded : Guarded c.locked c.status
  exists_completed : ∃ a, Reachable (instruction fetch) ⟨s, l⟩ a ∧ Completed c a
  fetch_eq : ∀ t, c.status t = .done → fetch (c.own t) = none

namespace Traced

variable {s : S} {l : τ → L} {c c' : Runtime τ S L}

theorem init :
  Traced fetch s l (init DEFAULT_INTERVAL s l)
  where
  guarded := by
    constructor
    · refine iff_of_false Bool.false_ne_true ?_
      rintro ⟨t, ht⟩
      cases ht
    · intro t u ht
      cases ht
    · rintro - ⟨t, ht⟩
      cases ht
  exists_completed := by
    refine ⟨_, Relation.ReflTransGen.refl, ?_, ?_, ?_⟩
    · intro t rest ht
      cases ht
    · intro t _
      rfl
    · intro _
      rfl
  fetch_eq t ht := by cases ht

/-- When a thread has the lock, no other is in the course of an instruction. -/
theorem eq_of_exec (h : Traced fetch s l c) {t u : τ} (ht : (c.status t).holds = true)
    {rest : List (S × L → S × L)} (hu : c.status u = .exec rest) :
  u = t
  := by
  apply h.guarded.unique u t _ ht
  rw [hu]
  rfl

/-- A thread begins an instruction: then it is as good as done. -/
theorem begin (h : Traced fetch s l c) {t : τ} {rest : List (S × L → S × L)}
    (ht : c.status t = .begin) (hfetch : fetch (c.own t) = some rest) :
  ∃ a, Reachable (instruction fetch) ⟨s, l⟩ a ∧ Completed (c.goto t (.exec rest)) a
  := by
  obtain ⟨a, hreach, hcompleted⟩ := h.exists_completed
  have hnone : ∀ u rest', c.status u ≠ .exec rest' := by
    intro u rest' hu
    have hut := h.eq_of_exec (t := t) (by rw [ht]; rfl) hu
    rw [hut, ht] at hu
    cases hu
  have hshared : a.shared = c.shared := hcompleted.shared_eq hnone
  have hthread : ∀ u, a.thread u = c.own u := fun u => hcompleted.others u (hnone u)
  refine ⟨⟨(finish rest (c.shared, c.own t)).1,
    Function.update a.thread t (finish rest (c.shared, c.own t)).2⟩, hreach.tail ⟨t, ?_⟩, ?_⟩
  · rw [actBy, instruction, hshared, hthread, hfetch]
    rfl
  · constructor
    · intro u rest' hu
      dsimp only [Runtime.goto] at hu ⊢
      rw [Function.update_apply] at hu
      split at hu
      · next hut =>
        obtain rfl : rest = rest' := Status.exec.inj hu
        rw [hut, Function.update_self]
      · exact absurd hu (hnone u rest')
    · intro u hu
      have hut : u ≠ t := by
        rintro rfl
        apply hu rest
        exact Function.update_self _ _ _
      dsimp only [Runtime.goto]
      rw [Function.update_of_ne hut, hthread]
    · intro hall
      exact absurd (Function.update_self _ _ _) (hall t rest)

/-- A step of an instruction. -/
theorem exec (h : Traced fetch s l c) {t : τ} {f : S × L → S × L} {rest : List (S × L → S × L)}
    (ht : c.status t = .exec (f :: rest)) {a : Config τ S L} (ha : Completed c a) :
  Completed (Runtime.goto { c with
    shared := (f (c.shared, c.own t)).1,
    own := Function.update c.own t (f (c.shared, c.own t)).2 } t (.exec rest)) a
  := by
  have honly : ∀ u rest', c.status u = .exec rest' → u = t := by
    intro u rest' hu
    apply h.eq_of_exec _ hu
    rw [ht]
    rfl
  constructor
  · intro u rest' hu
    dsimp only [Runtime.goto] at hu ⊢
    rw [Function.update_apply] at hu
    split at hu
    · next hut =>
      obtain rfl : rest = rest' := Status.exec.inj hu
      rw [hut, Function.update_self]
      exact ha.running t (f :: rest) ht
    · next hut => exact absurd (honly u rest' hu) hut
  · intro u hu
    have hut : u ≠ t := by
      rintro rfl
      apply hu rest
      exact Function.update_self _ _ _
    dsimp only [Runtime.goto]
    rw [Function.update_of_ne hut]
    apply ha.others
    intro rest' hu'
    exact hut (honly u rest' hu')
  · intro hall
    exact absurd (Function.update_self _ _ _) (hall t rest)

/-- A thread that is through stays so, and has nothing left to do. -/
theorem fetch_eq_of_goto (h : Traced fetch s l c) {t : τ} {place : Status S L}
    (hplace : place = .done → fetch (c.own t) = none) {u : τ}
    (hu : Function.update c.status t place u = .done) :
  fetch (c.own u) = none
  := by
  rw [Function.update_apply] at hu
  split at hu
  · next hut =>
    rw [hut]
    exact hplace hu
  · exact h.fetch_eq u hu

variable [Fintype τ]

/-- Giving up the lock brings no thread to its end. -/
theorem fetch_eq_of_drop (h : Traced fetch s l c) {t : τ} {place : Status S L}
    (hplace : place = .done → fetch (c.own t) = none) {k : ℤ} {woken : Option τ}
    (hdrop : Gil.drop_gil woken (Runtime.goto { c with check_interval := k } t place) = some c')
    {u : τ} (hu : c'.status u = .done) :
  fetch (c'.own u) = none
  := by
  rcases drop_gil_cases hdrop with ⟨w, -, rfl⟩ | ⟨-, rfl⟩
  · dsimp only [Runtime.goto] at hu ⊢
    rw [Function.update_apply] at hu
    split at hu
    · cases hu
    · exact h.fetch_eq_of_goto hplace hu
  · exact h.fetch_eq_of_goto hplace hu

/-- Every step is a part of an interleaving of whole instructions. -/
theorem step (h : Traced fetch s l c) {t : τ} {woken : Option τ}
    (hstep : Gil.step fetch DEFAULT_INTERVAL t woken c = some c') :
  Traced fetch s l c'
  := by
  have hguarded := h.guarded.step hstep
  obtain ⟨a, hreach, ha⟩ := h.exists_completed
  rcases step_cases hstep with ⟨hstatus, -, rfl⟩ | ⟨hstatus, -, rfl⟩ | ⟨hstatus, hfetch, hdrop⟩ |
    ⟨rest, hstatus, hfetch, rfl⟩ | ⟨f, rest, hstatus, rfl⟩ | ⟨k, hstatus, rfl⟩ |
    ⟨k, hstatus, -, hdrop⟩
  · refine ⟨hguarded, ⟨a, hreach, ?_⟩, fun u => h.fetch_eq_of_goto (by simp)⟩
    refine ha.goto t .wait ?_ ?_ rfl rfl rfl <;> simp [hstatus]
  · refine ⟨hguarded, ⟨a, hreach, ?_⟩, fun u => h.fetch_eq_of_goto (by simp)⟩
    refine ha.goto t .begin ?_ ?_ rfl rfl rfl <;> simp [hstatus]
  · have hgoto : Completed (c.goto t .done) a := by
      refine ha.goto t .done ?_ ?_ rfl rfl rfl <;> simp [hstatus]
    refine ⟨hguarded, ⟨a, hreach, hgoto.drop_gil hdrop⟩, fun u => ?_⟩
    exact h.fetch_eq_of_drop (k := c.check_interval) (fun _ => hfetch) hdrop
  · exact ⟨hguarded, h.begin hstatus hfetch, fun u => h.fetch_eq_of_goto (by simp)⟩
  · refine ⟨hguarded, ⟨a, hreach, h.exec hstatus ha⟩, fun u hu => ?_⟩
    dsimp only [Runtime.goto] at hu ⊢
    rw [Function.update_apply] at hu ⊢
    split at hu
    · cases hu
    · next hut =>
      rw [if_neg hut]
      exact h.fetch_eq u hu
  · refine ⟨hguarded, ⟨a, hreach, ?_⟩, fun u => h.fetch_eq_of_goto (by simp)⟩
    refine ha.goto t .begin ?_ ?_ rfl rfl rfl <;> simp [hstatus]
  · have hgoto : Completed (Runtime.goto { c with check_interval := k } t .take) a := by
      refine ha.goto t .take ?_ ?_ rfl rfl rfl <;> simp [hstatus]
    refine ⟨hguarded, ⟨a, hreach, hgoto.drop_gil hdrop⟩, fun u => ?_⟩
    exact h.fetch_eq_of_drop (by simp) hdrop

/-- Every run keeps the invariant. -/
theorem of_run (hrun : Run fetch DEFAULT_INTERVAL s l c) :
  Traced fetch s l c
  := by
  induction hrun with
  | refl => exact init
  | tail _ hstep ih =>
      obtain ⟨t, woken, hstep⟩ := hstep
      exact ih.step hstep

/-- A thread that has the lock, or is about to take it, can go on. -/
theorem exists_step_of_awake (h : Traced fetch s l c) (DEFAULT_INTERVAL : ℤ) {t : τ}
    (ht : (c.status t).holds = true ∨ c.status t = .take) :
  ∃ woken, (Gil.step fetch DEFAULT_INTERVAL t woken c).isSome
  := by
  cases hstatus : c.status t with
  | take =>
      use none
      rw [Gil.step, hstatus]
      cases c.locked <;> rfl
  | wait => simp [hstatus, Status.holds] at ht
  | begin =>
      cases hfetch : fetch (c.own t) with
      | none =>
          obtain ⟨woken, c', hdrop⟩ := exists_drop_gil (c.goto t .done)
          use woken
          rw [Gil.step, hstatus]
          dsimp only
          rw [hfetch, hdrop]
          rfl
      | some rest =>
          use none
          rw [Gil.step, hstatus]
          dsimp only
          rw [hfetch]
          rfl
  | exec rest =>
      cases rest with
      | nil =>
          have hlocked : c.locked = true := by
            apply h.guarded.holder.mpr
            use t
            rw [hstatus]
            rfl
          obtain ⟨woken, c', hdrop⟩ := exists_drop_gil
            (Runtime.goto { c with check_interval := DEFAULT_INTERVAL } t .take)
          use woken
          rw [Gil.step, hstatus]
          dsimp only
          rw [if_pos hlocked, hdrop]
          split <;> rfl
      | cons f rest =>
          use none
          rw [Gil.step, hstatus]
          rfl
  | done => simp [hstatus, Status.holds] at ht

/-- What a list of threads comes to is a run. -/
theorem run_of_schedule {ts : List (τ × Option τ)}
    (h : schedule fetch DEFAULT_INTERVAL ts (Gil.init DEFAULT_INTERVAL s l) = some c) :
  Run fetch DEFAULT_INTERVAL s l c
  := by
  apply ForLoop.foldlM_invariant (I := Run fetch DEFAULT_INTERVAL s l) _ h
  · apply Relation.ReflTransGen.refl
  · intro c₁ p c₂ hrun hstep
    apply hrun.tail ⟨p.1, p.2, hstep⟩

/-- Some thread can go on, as long as not all of them are through: the one that has the lock, or
one that is about to take it. -/
theorem exists_step (h : Traced fetch s l c) {t : τ} (ht : c.status t ≠ .done) :
  ∃ c', Step fetch DEFAULT_INTERVAL c c'
  := by
  obtain ⟨u, hu⟩ : ∃ u, (c.status u).holds = true ∨ c.status u = .take := by
    cases hlocked : c.locked with
    | true =>
        obtain ⟨u, hu⟩ := h.guarded.holder.mp hlocked
        exact ⟨u, Or.inl hu⟩
    | false =>
        by_cases hwait : ∃ u, (c.status u).waits = true
        · obtain ⟨u, hu⟩ := h.guarded.awake hlocked hwait
          exact ⟨u, Or.inr hu⟩
        · use t
          cases hstatus : c.status t with
          | take => exact Or.inr rfl
          | wait => exact absurd ⟨t, by rw [hstatus]; rfl⟩ hwait
          | begin => exact Or.inl rfl
          | exec rest => exact Or.inl rfl
          | done => exact absurd hstatus ht
  obtain ⟨woken, hstep⟩ := h.exists_step_of_awake DEFAULT_INTERVAL hu
  obtain ⟨c', hc'⟩ := Option.isSome_iff_exists.mp hstep
  exact ⟨c', u, woken, hc'⟩

end Traced

variable [Fintype τ]

/-- Whatever the threads do, at most one of them has the lock, the lock is locked exactly when
one has it, and as long as not all of them are through, one can go on. -/
theorem gil_safe {s : S} {l : τ → L} {c : Runtime τ S L} (hrun : Run fetch DEFAULT_INTERVAL s l c) :
  (∀ t u, (c.status t).holds = true → (c.status u).holds = true → t = u)
    ∧ (c.locked = true ↔ ∃ t, (c.status t).holds = true)
    ∧ ((∃ t, c.status t ≠ .done) → ∃ c', Step fetch DEFAULT_INTERVAL c c')
  := by
  have h := Traced.of_run hrun
  refine ⟨h.guarded.unique, h.guarded.holder, ?_⟩
  rintro ⟨t, ht⟩
  exact h.exists_step ht

/-- Whenever no thread is in the course of an instruction, the threads have done what comes of
an interleaving of whole instructions. -/
theorem bytecodes_atomic {s : S} {l : τ → L} {c : Runtime τ S L}
    (hrun : Run fetch DEFAULT_INTERVAL s l c) (hbetween : ∀ t rest, c.status t ≠ .exec rest) :
  Reachable (instruction fetch) ⟨s, l⟩ ⟨c.shared, c.own⟩
  := by
  obtain ⟨a, hreach, ha⟩ := (Traced.of_run hrun).exists_completed
  have heq : a = ⟨c.shared, c.own⟩ := by
    obtain ⟨shared, thread⟩ := a
    obtain rfl : shared = c.shared := ha.shared_eq hbetween
    obtain rfl : thread = c.own := funext (fun t => ha.others t (hbetween t))
    rfl
  rwa [heq] at hreach

end Atomicity

/-! ### Reference counts -/

/-- `Py_INCREF` or `Py_DECREF`. -/
inductive RefOp where
  | incref
  | decref

def RefOp.delta : RefOp → ℤ
  | incref => 1
  | decref => -1

/-- What a number of operations add to the count. -/
def balance : List RefOp → ℤ
  | [] => 0
  | op :: ops => op.delta + balance ops

/-- A thread with the operations that it has still to do, and a register. -/
structure Worker where
  ops : List RefOp
  register : ℤ

/-- `op->ob_refcnt++` or `--op->ob_refcnt`: the count is read, and then it is written.  What
`Py_DECREF` does when the count is 0 is left out. -/
def fetchRefOp (w : Worker) : Option (List (ℤ × Worker → ℤ × Worker)) :=
  match w.ops with
  | [] => none
  | op :: ops =>
      some [fun (ob_refcnt, w) => (ob_refcnt, { w with register := ob_refcnt }),
        fun (_, w) => (w.register + op.delta, { w with ops := ops })]

section RefCounts

variable {τ : Type*} [Fintype τ] [DecidableEq τ]

/-- What the threads have done to the count and what they have still to do is the same at all
times. -/
theorem balance_eq {n : ℤ} {l : τ → Worker} {c : Config τ ℤ Worker}
    (h : Reachable (instruction fetchRefOp) ⟨n, l⟩ c) :
  c.shared + ∑ t, balance (c.thread t).ops = n + ∑ t, balance (l t).ops
  := by
  apply h.invariant (I := fun c => c.shared + ∑ t, balance (c.thread t).ops
    = n + ∑ t, balance (l t).ops) _ rfl
  intro c t s' w hc hact
  obtain ⟨rest, hfetch, hfinish⟩ := Option.map_eq_some_iff.mp hact
  rw [← hc]
  cases hops : (c.thread t).ops with
  | nil =>
      rw [fetchRefOp, hops] at hfetch
      cases hfetch
  | cons op ops =>
      rw [fetchRefOp, hops] at hfetch
      obtain rfl := Option.some.inj hfetch
      obtain ⟨rfl, rfl⟩ := Prod.mk.inj hfinish
      have hold := Finset.add_sum_erase Finset.univ (fun u => balance (c.thread u).ops)
        (Finset.mem_univ t)
      have hrest : ∑ u ∈ Finset.univ.erase t, balance
            (Function.update c.thread t { register := c.shared, ops := ops } u).ops
          = ∑ u ∈ Finset.univ.erase t, balance (c.thread u).ops := by
        apply Finset.sum_congr rfl
        intro u hu
        rw [Function.update_of_ne (Finset.ne_of_mem_erase hu)]
      have hnew := Finset.add_sum_erase Finset.univ (fun u => balance
        (Function.update c.thread t { register := c.shared, ops := ops } u).ops) (Finset.mem_univ t)
      simp only [Function.update_self] at hnew
      simp only [hops, balance] at hold
      dsimp only [finish, List.foldl_cons, List.foldl_nil]
      omega

/-- When all the threads are through, the count has changed by all the operations of all of
them. -/
theorem refcnt_exact {DEFAULT_INTERVAL n : ℤ} {ops : τ → List RefOp} {c : Runtime τ ℤ Worker}
    (hrun : Run fetchRefOp DEFAULT_INTERVAL n (fun t => ⟨ops t, 0⟩) c)
    (hdone : ∀ t, c.status t = .done) :
  c.shared = n + ∑ t, balance (ops t)
  := by
  obtain ⟨a, hreach, ha⟩ := (Traced.of_run hrun).exists_completed
  have hnone : ∀ t rest, c.status t ≠ .exec rest := by
    intro t rest ht
    rw [hdone t] at ht
    cases ht
  have hsum := balance_eq hreach
  have hzero : ∑ t, balance (a.thread t).ops = 0 := by
    apply Finset.sum_eq_zero
    intro t _
    rw [ha.others t (hnone t)]
    have hfetch := (Traced.of_run hrun).fetch_eq t (hdone t)
    rw [fetchRefOp] at hfetch
    split at hfetch
    · next hops =>
      rw [hops]
      rfl
    · cases hfetch
  rw [ha.shared_eq hnone, hzero, add_zero] at hsum
  exact hsum

end RefCounts

/-! ### Two threads -/

/-- One thread takes two references, and the other gives one up. -/
def refOps : ThreadId → List RefOp
  | .t1 => [.incref, .incref]
  | .t2 => [.decref]

/-- The threads take turns after every instruction. -/
def refSchedule : List (ThreadId × Option ThreadId) :=
  [(.t1, none), (.t2, none), (.t1, none), (.t1, none), (.t1, none), (.t1, some .t2),
    (.t2, none), (.t1, none), (.t2, none), (.t2, none), (.t2, none), (.t2, some .t1),
    (.t1, none), (.t1, none), (.t1, none), (.t1, none), (.t1, none),
    (.t2, none), (.t2, none), (.t1, none), (.t1, none)]

/-- At the fourth step of `refSchedule` the first thread has the lock, and can go on. -/
theorem gil_safe_two_threads :
  ∃ c, schedule fetchRefOp 1 (refSchedule.take 4) (init 1 1 (fun t => ⟨refOps t, 0⟩)) = some c
    ∧ c.locked = true ∧ ∃ c', Step fetchRefOp 1 c c'
  := by
  have hschedule : schedule fetchRefOp 1 (refSchedule.take 4)
    (init 1 1 (fun t => ⟨refOps t, 0⟩)) = some _ := rfl
  obtain ⟨-, hlock, hstep⟩ := gil_safe (Traced.run_of_schedule hschedule)
  refine ⟨_, hschedule, ?_, ?_⟩
  · apply hlock.mpr
    use .t1
    rfl
  · apply hstep
    use .t1
    intro hdone
    cases hdone

/-- Before the twelfth step of `refSchedule` each thread has done an instruction. -/
theorem bytecodes_atomic_two_threads :
  ∃ c, schedule fetchRefOp 1 (refSchedule.take 12) (init 1 1 (fun t => ⟨refOps t, 0⟩)) = some c
    ∧ c.shared = 1
    ∧ Reachable (instruction fetchRefOp) ⟨1, fun t => ⟨refOps t, 0⟩⟩ ⟨c.shared, c.own⟩
  := by
  have hschedule : schedule fetchRefOp 1 (refSchedule.take 12)
    (init 1 1 (fun t => ⟨refOps t, 0⟩)) = some _ := rfl
  refine ⟨_, hschedule, rfl, bytecodes_atomic (Traced.run_of_schedule hschedule) ?_⟩
  rintro (_ | _) rest hexec <;> cases hexec

/-- At the end of `refSchedule` there is one reference more. -/
theorem refcnt_exact_two_threads :
  ∃ c, schedule fetchRefOp 1 refSchedule (init 1 1 (fun t => ⟨refOps t, 0⟩)) = some c
    ∧ c.shared = 2 ∧ c.shared = 1 + ∑ t, balance (refOps t)
  := by
  have hschedule : schedule fetchRefOp 1 refSchedule (init 1 1 (fun t => ⟨refOps t, 0⟩))
    = some _ := rfl
  refine ⟨_, hschedule, rfl, refcnt_exact (Traced.run_of_schedule hschedule) ?_⟩
  rintro (_ | _) <;> rfl

end Gil
