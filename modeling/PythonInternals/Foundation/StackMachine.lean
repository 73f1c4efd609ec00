import Mathlib.Data.List.Basic
import Mathlib.Logic.Function.Basic

/-!
# Stack machines over a domain of values

Straight-line programs of a machine with an evaluation stack and local variables.  What
the constants and the binary operators of a program mean is given by a domain, so that
one program runs over several of them: `run D p s` is the value that `p` returns from
the state `s` over the domain `D`, if it meets no fault.

When the meanings of the constants and of the operators of a program in `D` are matched by
those in `E`, up to a relation `R` of values, every run over `D` is matched by a run over
`E` (`Simulation.run`).
-/

namespace StackMachine

/-- The instructions of the machine. -/
inductive Instr where
  | nop
  | load (i : ℕ)
  | const (k : ℕ)
  | binary (o : ℕ)
  | store (i : ℕ)
  | ret
  deriving DecidableEq

/-- The meaning of the constants, and of the operators on the left and right operands. -/
structure Domain (V : Type*) where
  const : ℕ → Option V
  binary : ℕ → V → V → Option V

/-- The evaluation stack, its top first, and the local variables. -/
structure State (V : Type*) where
  stack : List V
  locals : ℕ → Option V

variable {V W : Type*}

/-- The state after an instruction other than `ret`, unless there is a fault. -/
def step (D : Domain V) : Instr → State V → Option (State V)
  | .nop, s => some s
  | .load i, ⟨stack, locals⟩ => (locals i).map (fun v => ⟨v :: stack, locals⟩)
  | .const k, ⟨stack, locals⟩ => (D.const k).map (fun v => ⟨v :: stack, locals⟩)
  | .binary o, ⟨r :: l :: stack, locals⟩ =>
      (D.binary o l r).map (fun v => ⟨v :: stack, locals⟩)
  | .store i, ⟨v :: stack, locals⟩ => some ⟨stack, Function.update locals i (some v)⟩
  | _, _ => none

/-- The value that the program returns. -/
def run (D : Domain V) : List Instr → State V → Option V
  | [], _ => none
  | .ret :: _, s => s.stack.head?
  | c :: p, s => (step D c s).bind (run D p)

theorem run_ret {D : Domain V} {p : List Instr} {s : State V} :
  run D (.ret :: p) s = s.stack.head?
  := by
  rw [run]

theorem run_cons {D : Domain V} {c : Instr} (hc : c ≠ .ret) {p : List Instr} {s : State V} :
  run D (c :: p) s = (step D c s).bind (run D p)
  := by
  rw [run]
  apply hc

/-! ### Simulation -/

/-- Every constant and every operator of the program `p` over `D` is matched over `E`, up
to `R`. -/
structure Simulation (R : V → W → Prop) (D : Domain V) (E : Domain W) (p : List Instr) :
    Prop where
  const : ∀ k, .const k ∈ p → ∀ v, D.const k = some v → ∃ w, E.const k = some w ∧ R v w
  binary : ∀ o, .binary o ∈ p → ∀ l r l' r' v, R l l' → R r r' → D.binary o l r = some v →
    ∃ w, E.binary o l' r' = some w ∧ R v w

/-- The stacks are related pointwise, and what is assigned in `s` is assigned in `t`. -/
structure Related (R : V → W → Prop) (s : State V) (t : State W) : Prop where
  stack : List.Forall₂ R s.stack t.stack
  locals : ∀ i v, s.locals i = some v → ∃ w, t.locals i = some w ∧ R v w

variable {R : V → W → Prop} {D : Domain V} {E : Domain W} {p q : List Instr}

theorem Simulation.mono (h : Simulation R D E p) (hq : q ⊆ p) :
  Simulation R D E q
  where
  const k hk := h.const k (hq hk)
  binary o ho := h.binary o (hq ho)

theorem Related.update {stack : List V} {stack' : List W} {locals : ℕ → Option V}
    {locals' : ℕ → Option W} (h : Related R ⟨stack, locals⟩ ⟨stack', locals'⟩)
    {v : V} {w : W} (hvw : R v w) (i : ℕ) :
  Related R ⟨stack, Function.update locals i (some v)⟩
    ⟨stack', Function.update locals' i (some w)⟩
  where
  stack := h.stack
  locals := by
    intro j x hx
    by_cases hj : j = i
    · subst hj
      obtain rfl : v = x := by simpa using hx
      use w
      simp [hvw]
    · simp only [Function.update_of_ne hj] at hx ⊢
      apply h.locals j x hx

/-- An instruction of the program keeps related states related. -/
theorem Simulation.step (h : Simulation R D E p) {s s' : State V} {t : State W}
    (hst : Related R s t) {c : Instr} (hc : c ∈ p) (hstep : step D c s = some s') :
  ∃ t', StackMachine.step E c t = some t' ∧ Related R s' t'
  := by
  obtain ⟨stack, locals⟩ := s
  obtain ⟨stack', locals'⟩ := t
  cases c with
  | nop =>
      cases hstep
      exact ⟨_, rfl, hst⟩
  | load i =>
      obtain ⟨v, hv, rfl⟩ := Option.map_eq_some_iff.mp hstep
      obtain ⟨w, hw, hvw⟩ := hst.locals i v hv
      exact ⟨_, Option.map_eq_some_iff.mpr ⟨w, hw, rfl⟩, .cons hvw hst.stack, hst.locals⟩
  | const k =>
      obtain ⟨v, hv, rfl⟩ := Option.map_eq_some_iff.mp hstep
      obtain ⟨w, hw, hvw⟩ := h.const k hc v hv
      exact ⟨_, Option.map_eq_some_iff.mpr ⟨w, hw, rfl⟩, .cons hvw hst.stack, hst.locals⟩
  | binary o =>
      obtain _ | ⟨hr, _ | ⟨hl, hstack⟩⟩ := hst.stack
      · cases hstep
      · cases hstep
      · obtain ⟨v, hv, rfl⟩ := Option.map_eq_some_iff.mp hstep
        obtain ⟨w, hw, hvw⟩ := h.binary o hc _ _ _ _ v hl hr hv
        exact ⟨_, Option.map_eq_some_iff.mpr ⟨w, hw, rfl⟩, .cons hvw hstack, hst.locals⟩
  | store i =>
      obtain _ | ⟨hvw, hstack⟩ := hst.stack
      · cases hstep
      · cases hstep
        exact ⟨_, rfl, Related.update ⟨hstack, hst.locals⟩ hvw i⟩
  | ret => cases hstep

/-- Every run over `D` is matched by a run over `E`. -/
theorem Simulation.run (h : Simulation R D E p) {s : State V} {t : State W} (hst : Related R s t)
    {v : V} (hrun : run D p s = some v) :
  ∃ w, StackMachine.run E p t = some w ∧ R v w
  := by
  induction p generalizing s t with
  | nil => cases hrun
  | cons c p ih =>
      by_cases hc : c = .ret
      · subst hc
        obtain ⟨stack, locals⟩ := s
        obtain ⟨stack', locals'⟩ := t
        rw [run_ret] at hrun ⊢
        obtain _ | ⟨hvw, -⟩ := hst.stack
        · cases hrun
        · cases hrun
          exact ⟨_, rfl, hvw⟩
      · rw [run_cons hc] at hrun ⊢
        obtain ⟨s', hs', hrun⟩ := Option.bind_eq_some_iff.mp hrun
        obtain ⟨t', ht', hst'⟩ := h.step hst List.mem_cons_self hs'
        obtain ⟨w, hw, hvw⟩ := ih (h.mono (List.subset_cons_self c p)) hst' hrun
        exact ⟨w, Option.bind_eq_some_iff.mpr ⟨t', ht', hw⟩, hvw⟩

end StackMachine
