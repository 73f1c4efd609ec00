import Mathlib.Data.List.Induction

/-!
# The latest write

The operations of a run may write to a register: `write o` is what the operation `o` writes,
if anything.  `latest write ops` is the last thing that a list of operations writes.  When a
run follows the writes, the register holds the latest one, and what it held before the run
when there is none (`read_foldlM`); a run that follows some of the values only holds the
latest one if it is one of these.
-/

namespace LatestWrite

variable {σ ω β : Type*}

/-- The last thing that the operations write. -/
def latest (write : ω → Option β) (ops : List ω) : Option β := (ops.filterMap write).getLast?

variable {write : ω → Option β}

@[simp]
theorem latest_nil :
  latest write [] = none
  := rfl

theorem latest_concat (ops : List ω) (o : ω) :
  latest write (ops ++ [o]) = (write o).or (latest write ops)
  := by
  rw [latest, List.filterMap_append, List.getLast?_append]
  cases h : write o with
  | none => simp [h, latest]
  | some b => simp [h]

/-- The latest write is written by one of the operations. -/
theorem exists_write_of_latest {ops : List ω} {b : β} (h : latest write ops = some b) :
  ∃ o ∈ ops, write o = some b
  := by
  apply List.mem_filterMap.mp
  apply List.mem_of_getLast? h

theorem latest_eq_none {ops : List ω} :
  latest write ops = none ↔ ∀ o ∈ ops, write o = none
  := by
  rw [latest, List.getLast?_eq_none_iff, List.filterMap_eq_nil_iff]

/-- The last step of a run whose steps may fail. -/
theorem exists_last_step {step : σ → ω → Option σ} {ops : List ω} {o : ω} {s s' : σ}
    (hrun : (ops ++ [o]).foldlM step s = some s') :
  ∃ s₁, ops.foldlM step s = some s₁ ∧ step s₁ o = some s'
  := by
  rw [List.foldlM_append] at hrun
  obtain ⟨s₁, hbefore, hlast⟩ := Option.bind_eq_some_iff.mp hrun
  use s₁, hbefore
  simpa using hlast

/-- A register that may be empty holds the latest write, and what it held before the run, if
there is none. -/
theorem read_foldlM_or {step : σ → ω → Option σ} (read : σ → Option β)
    (hstep : ∀ s s' o, step s o = some s' → read s' = (write o).or (read s))
    {ops : List ω} {s s' : σ} (hrun : ops.foldlM step s = some s') :
  read s' = (latest write ops).or (read s)
  := by
  induction ops using List.reverseRecOn generalizing s' with
  | nil =>
      obtain rfl := Option.some.inj hrun
      rfl
  | append_singleton ops o ih =>
      obtain ⟨s₁, hbefore, hlast⟩ := exists_last_step hrun
      rw [hstep s₁ s' o hlast, ih hbefore, latest_concat, Option.or_assoc]

/-- A run that follows the writes of `good` values holds the latest write, if it is good, and
what it held before, if there is none. -/
theorem read_foldlM {step : σ → ω → Option σ} (read : σ → β) (good : β → Prop)
    (hwrite : ∀ s s' o b, step s o = some s' → write o = some b → good b → read s' = b)
    (hkeep : ∀ s s' o, step s o = some s' → write o = none → read s' = read s)
    {ops : List ω} {s s' : σ} (hrun : ops.foldlM step s = some s') :
  (∀ b, latest write ops = some b → good b → read s' = b) ∧
    (latest write ops = none → read s' = read s)
  := by
  induction ops using List.reverseRecOn generalizing s' with
  | nil =>
      obtain rfl := Option.some.inj hrun
      simp
  | append_singleton ops o ih =>
      obtain ⟨s₁, hbefore, hstep⟩ := exists_last_step hrun
      obtain ⟨hlatest, hnone⟩ := ih hbefore
      rw [latest_concat]
      cases hw : write o with
      | some b =>
          simp only [Option.some_or, Option.some.injEq, reduceCtorEq, false_implies, and_true]
          rintro _ rfl hb
          apply hwrite s₁ s' o b hstep hw hb
      | none =>
          rw [Option.none_or, hkeep s₁ s' o hstep hw]
          exact ⟨hlatest, hnone⟩

/-- The same of a run whose operations always go through. -/
theorem read_foldl {step : σ → ω → σ} (read : σ → β) (good : β → Prop)
    (hwrite : ∀ s o b, write o = some b → good b → read (step s o) = b)
    (hkeep : ∀ s o, write o = none → read (step s o) = read s) (ops : List ω) (s : σ) :
  (∀ b, latest write ops = some b → good b → read (ops.foldl step s) = b) ∧
    (latest write ops = none → read (ops.foldl step s) = read s)
  := by
  have hrun : ops.foldlM (fun s o => some (step s o)) s = some (ops.foldl step s) :=
    List.foldlM_pure
  apply read_foldlM read good _ _ hrun
  · rintro s _ o b ⟨⟩
    apply hwrite
  · rintro s _ o ⟨⟩
    apply hkeep

end LatestWrite
