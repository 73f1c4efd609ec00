import Mathlib.Algebra.Order.BigOperators.Group.List
import Mathlib.Algebra.Order.Group.Nat
import Mathlib.Data.List.Nodup
import PythonInternals.Foundation.Loop

/-!
# Merging linear orders

Lists without duplicates are merged into one list that has all of them as sublists.  A pass of
`merge` takes the first head that is in the tail of no list, and takes it off all the lists; the
merge fails when every head is in some tail.

What is merged is an extension of the lists and has no other elements (`merge_extends`), and the
merge fails only where there is no extension at all (`merge_isSome_iff`).  Each element is the
first candidate of what the elements before it leave of the lists (`merge_candidate`).
-/

namespace Linearization

variable {κ : Type*} [DecidableEq κ]

/-- A list without duplicates that has all the given lists as sublists. -/
structure Extends (L : List κ) (seqs : List (List κ)) : Prop where
  nodup : L.Nodup
  sublist : ∀ s ∈ seqs, s.Sublist L

/-- The first head that is in the tail of no list. -/
def candidate (seqs : List (List κ)) : Option κ :=
  (seqs.filterMap List.head?).find? (fun c => decide (∀ s ∈ seqs, c ∉ s.tail))

/-- The list without `c`, when it starts with `c`. -/
def removeHead (c : κ) (s : List κ) : List κ := if s.head? = some c then s.tail else s

/-- What is merged so far, and the lists that are left. -/
structure MergeState (κ : Type*) where
  merged : List κ
  seqs : List (List κ)

/-- A pass of the merge, which ends with nothing when it fails. -/
def mergeStep (s : MergeState κ) : Except (Option (List κ)) (MergeState κ) :=
  if ∀ l ∈ s.seqs, l = [] then .error (some s.merged)
  else
    match candidate s.seqs with
    | none => .error none
    | some c => .ok { merged := s.merged ++ [c], seqs := s.seqs.map (removeHead c) }

/-- The length of all the lists together. -/
def total (seqs : List (List κ)) : ℕ := seqs.flatten.length

/-- Merge the lists, if that is possible. -/
def merge (seqs : List (List κ)) : Option (List κ) :=
  (Loop.run mergeStep (total seqs + 1) { merged := [], seqs := seqs }).join

/-! ### A pass -/

theorem candidate_eq_some {seqs : List (List κ)} {c : κ} (h : candidate seqs = some c) :
  (∃ s ∈ seqs, s.head? = some c) ∧ ∀ s ∈ seqs, c ∉ s.tail
  := by
  constructor
  · simpa using List.mem_of_find?_eq_some h
  · simpa using List.find?_some h

theorem not_mem_removeHead {c : κ} {s : List κ} (h : c ∉ s.tail) :
  c ∉ removeHead c s
  := by
  rw [removeHead]
  split_ifs with hhead
  · apply h
  · cases s with
    | nil => simp
    | cons d t =>
        simp only [List.head?_cons, Option.some.injEq] at hhead
        rw [List.mem_cons, not_or]
        exact ⟨Ne.symm hhead, h⟩

theorem removeHead_sublist (c : κ) (s : List κ) :
  (removeHead c s).Sublist s
  := by
  rw [removeHead]
  split_ifs
  · apply List.tail_sublist
  · apply List.Sublist.refl

/-- A pass that goes round again shortens the lists. -/
theorem total_removeHead_lt {seqs : List (List κ)} {c : κ}
    (h : ∃ s ∈ seqs, s.head? = some c) :
  total (seqs.map (removeHead c)) < total seqs
  := by
  rw [total, total, List.length_flatten, List.length_flatten, List.map_map]
  apply List.sum_lt_sum
  · intro s _
    apply (removeHead_sublist c s).length_le
  · obtain ⟨s, hs, hhead⟩ := h
    use s, hs
    obtain ⟨t, rfl⟩ := List.head?_eq_some_iff.mp hhead
    simp [removeHead]

theorem mergeStep_variant (s s' : MergeState κ) (h : mergeStep s = .ok s') :
  total s'.seqs < total s.seqs
  := by
  rw [mergeStep] at h
  split_ifs at h
  split at h
  · cases h
  · rename_i c hc
    cases h
    apply total_removeHead_lt (candidate_eq_some hc).1

/-- The merge comes to an end. -/
theorem exists_run_merge (seqs : List (List κ)) :
  ∃ r, Loop.run mergeStep (total seqs + 1) { merged := [], seqs := seqs } = some r
  := by
  apply Loop.run_of_variant (I := fun _ => True) (fun s => total s.seqs)
  · intro s s' _ h
    exact ⟨trivial, mergeStep_variant s s' h⟩
  · trivial
  · simp

/-! ### What is merged -/

/-- Of every list a first part is merged, in its order; nothing that is merged is left, and it
all comes from the lists. -/
structure Merging (seqs : List (List κ)) (s : MergeState κ) : Prop where
  split : ∀ l₀ ∈ seqs, ∃ l ∈ s.seqs, ∃ p, l₀ = p ++ l ∧ p.Sublist s.merged
  subset : ∀ l ∈ s.seqs, ∃ l₀ ∈ seqs, l ⊆ l₀
  nodup : s.merged.Nodup
  disjoint : ∀ c ∈ s.merged, ∀ l ∈ s.seqs, c ∉ l
  mem : ∀ c ∈ s.merged, ∃ l ∈ seqs, c ∈ l

omit [DecidableEq κ] in
theorem Merging.start (seqs : List (List κ)) :
  Merging seqs { merged := [], seqs := seqs }
  where
  split := by
    intro l hl
    use l, hl, []
    exact ⟨rfl, List.Sublist.refl _⟩
  subset l hl := ⟨l, hl, List.Subset.refl l⟩
  nodup := List.nodup_nil
  disjoint := by simp
  mem := by simp

theorem Merging.step {seqs : List (List κ)} (s s' : MergeState κ) (hs : Merging seqs s)
    (h : mergeStep s = .ok s') :
  Merging seqs s'
  := by
  rw [mergeStep] at h
  split_ifs at h
  split at h
  · cases h
  · rename_i c hc
    cases h
    obtain ⟨⟨l, hl, hhead⟩, htail⟩ := candidate_eq_some hc
    have hcl : c ∈ l := List.mem_of_mem_head? hhead
    constructor
    · intro l₀ hl₀
      obtain ⟨l', hl', p, rfl, hp⟩ := hs.split l₀ hl₀
      use removeHead c l', List.mem_map_of_mem hl'
      rw [removeHead]
      split_ifs with hhead'
      · obtain ⟨t, rfl⟩ := List.head?_eq_some_iff.mp hhead'
        use p ++ [c]
        simpa using hp
      · use p
        exact ⟨rfl, hp.trans (List.sublist_append_left _ _)⟩
    · simp only [List.mem_map]
      rintro _ ⟨l', hl', rfl⟩
      obtain ⟨l₀, hl₀, hsub⟩ := hs.subset l' hl'
      use l₀, hl₀
      exact List.Subset.trans (removeHead_sublist c l').subset hsub
    · rw [List.nodup_append]
      refine ⟨hs.nodup, List.nodup_singleton c, ?_⟩
      rintro d hd _ hc' rfl
      rw [List.mem_singleton] at hc'
      exact hs.disjoint d hd l hl (hc' ▸ hcl)
    · simp only [List.mem_append, List.mem_singleton, List.mem_map]
      rintro d hd _ ⟨l', hl', rfl⟩ hmem
      rcases hd with hd | rfl
      · exact hs.disjoint d hd l' hl' ((removeHead_sublist c l').subset hmem)
      · exact not_mem_removeHead (htail l' hl') hmem
    · simp only [List.mem_append, List.mem_singleton]
      rintro d (hd | rfl)
      · exact hs.mem d hd
      · obtain ⟨l₀, hl₀, hsub⟩ := hs.subset l hl
        use l₀, hl₀
        exact hsub hcl

/-- What is merged extends the lists, and all its elements are from them. -/
theorem merge_extends {seqs : List (List κ)} {L : List κ} (h : merge seqs = some L) :
  Extends L seqs ∧ ∀ c ∈ L, ∃ s ∈ seqs, c ∈ s
  := by
  rw [merge, Option.join_eq_some_iff] at h
  have hpost := Loop.run_post (I := Merging seqs)
    (P := fun r => ∀ L, r = some L → Extends L seqs ∧ ∀ c ∈ L, ∃ s ∈ seqs, c ∈ s)
    Merging.step ?_ (Merging.start seqs) h
  · apply hpost L rfl
  · rintro s _ hs hexit L rfl
    rw [mergeStep] at hexit
    split_ifs at hexit with hempty
    · cases hexit
      refine ⟨⟨hs.nodup, ?_⟩, hs.mem⟩
      intro l₀ hl₀
      obtain ⟨l, hl, p, rfl, hp⟩ := hs.split l₀ hl₀
      rw [hempty l hl, List.append_nil]
      exact hp
    · split at hexit <;> cases hexit

/-! ### Which extension is merged -/

/-- What is left of the lists without the elements of `p`. -/
def left (p : List κ) (seqs : List (List κ)) : List (List κ) :=
  seqs.map (List.filter (fun c => decide (c ∉ p)))

theorem left_nil (seqs : List (List κ)) :
  left [] seqs = seqs
  := by
  rw [left, List.map_congr_left (fun s _ => List.filter_eq_self.mpr (by simp)), List.map_id']

theorem removeHead_eq_filter {c : κ} {s : List κ} (h : c ∉ s.tail) :
  removeHead c s = s.filter (fun d => decide (d ≠ c))
  := by
  have hrest := not_mem_removeHead h
  rw [removeHead] at hrest ⊢
  split_ifs at hrest ⊢ with hhead
  · obtain ⟨t, rfl⟩ := List.head?_eq_some_iff.mp hhead
    rw [List.filter_cons_of_neg (by simp), List.tail_cons, List.filter_eq_self.mpr]
    intro d hd
    rw [decide_eq_true_eq]
    rintro rfl
    exact h hd
  · rw [List.filter_eq_self.mpr]
    intro d hd
    rw [decide_eq_true_eq]
    rintro rfl
    exact hrest hd

/-- Taking a candidate off the lists leaves what is left without it. -/
theorem map_removeHead_left {p : List κ} {seqs : List (List κ)} {c : κ}
    (h : ∀ s ∈ left p seqs, c ∉ s.tail) :
  (left p seqs).map (removeHead c) = left (p ++ [c]) seqs
  := by
  rw [List.map_congr_left (fun s hs => removeHead_eq_filter (h s hs)), left, left, List.map_map]
  apply List.map_congr_left
  intro s _
  rw [Function.comp_apply, List.filter_filter]
  apply List.filter_congr
  intro d _
  simp [not_or, and_comm]

/-- Every element that is merged was the candidate, and the lists are what is left of them. -/
structure Greedy (seqs : List (List κ)) (s : MergeState κ) : Prop where
  seqs_eq : s.seqs = left s.merged seqs
  candidate_eq : ∀ p c q, s.merged = p ++ c :: q → candidate (left p seqs) = some c

theorem Greedy.start (seqs : List (List κ)) :
  Greedy seqs { merged := [], seqs := seqs }
  where
  seqs_eq := (left_nil seqs).symm
  candidate_eq := by simp

theorem Greedy.step {seqs : List (List κ)} (s s' : MergeState κ) (hs : Greedy seqs s)
    (h : mergeStep s = .ok s') :
  Greedy seqs s'
  := by
  obtain ⟨merged, rest⟩ := s
  obtain rfl : rest = left merged seqs := hs.seqs_eq
  rw [mergeStep] at h
  split_ifs at h
  split at h
  · cases h
  · rename_i c hc
    cases h
    constructor
    · exact map_removeHead_left (candidate_eq_some hc).2
    · intro p d q heq
      obtain rfl | ⟨q, e, rfl⟩ := q.eq_nil_or_concat
      · obtain ⟨rfl, hd⟩ := List.append_inj' heq rfl
        rw [← List.singleton_inj.mp hd]
        exact hc
      · rw [List.concat_eq_append, ← List.cons_append, ← List.append_assoc] at heq
        exact hs.candidate_eq p d q (List.append_inj' heq rfl).1

/-- Each element of the merge is the first head, of what the elements before it leave of the
lists, that is in the tail of no list. -/
theorem merge_candidate {seqs : List (List κ)} {L : List κ} (h : merge seqs = some L)
    {p : List κ} {c : κ} {q : List κ} (hL : L = p ++ c :: q) :
  candidate (left p seqs) = some c
  := by
  rw [merge, Option.join_eq_some_iff] at h
  have hpost := Loop.run_post (I := Greedy seqs)
    (P := fun r => ∀ L, r = some L → ∀ p c q, L = p ++ c :: q → candidate (left p seqs) = some c)
    Greedy.step ?_ (Greedy.start seqs) h
  · exact hpost L rfl p c q hL
  · rintro s _ hs hexit L rfl
    rw [mergeStep] at hexit
    split_ifs at hexit with hempty
    · cases hexit
      exact hs.candidate_eq
    · split at hexit <;> cases hexit

/-! ### When the merge succeeds -/

omit [DecidableEq κ] in
/-- A sublist that has nothing of the first part is a sublist of the second part. -/
theorem sublist_of_disjoint {s p q : List κ} (h : s.Sublist (p ++ q)) (hp : ∀ c ∈ p, c ∉ s) :
  s.Sublist q
  := by
  obtain ⟨s₁, s₂, rfl, hs₁, hs₂⟩ := List.sublist_append_iff.mp h
  cases s₁ with
  | nil => exact hs₂
  | cons c t => exact absurd (by simp) (hp c (hs₁.subset (by simp)))

/-- Where there is an extension, its first element that is left in the lists is a
candidate. -/
theorem exists_candidate {L : List κ} {seqs : List (List κ)} (hL : Extends L seqs)
    (hne : ¬ ∀ l ∈ seqs, l = []) :
  ∃ c, candidate seqs = some c
  := by
  obtain ⟨c, hc⟩ : ∃ c, L.find? (fun c => decide (∃ s ∈ seqs, c ∈ s)) = some c := by
    rw [← Option.isSome_iff_exists, List.find?_isSome]
    push Not at hne
    obtain ⟨l, hl, hne⟩ := hne
    obtain ⟨c, hc⟩ := List.exists_mem_of_ne_nil l hne
    use c, (hL.sublist l hl).subset hc
    simp only [decide_eq_true_eq]
    use l
  obtain ⟨hmem, p, q, rfl, hp⟩ := List.find?_eq_some_iff_append.mp hc
  simp only [decide_eq_true_eq, Bool.not_eq_true', decide_eq_false_iff_not, not_exists,
    not_and] at hmem hp
  have hcq : c ∉ q := (List.nodup_cons.mp (List.nodup_append.mp hL.nodup).2.1).1
  have hsub : ∀ s ∈ seqs, s.Sublist (c :: q) := by
    intro s hs
    apply sublist_of_disjoint (hL.sublist s hs)
    intro d hd
    exact hp d hd s hs
  have htail : ∀ s ∈ seqs, c ∉ s.tail := by
    intro s hs hct
    exact hcq (((hsub s hs).tail).subset hct)
  obtain ⟨s, hs, hcs⟩ := hmem
  have hhead : s.head? = some c := by
    cases s with
    | nil => cases hcs
    | cons d t =>
        rcases List.mem_cons.mp hcs with rfl | hct
        · rfl
        · exact absurd hct (htail _ hs)
  rw [candidate, ← Option.isSome_iff_exists, List.find?_isSome]
  use c
  constructor
  · rw [List.mem_filterMap]
    use s
  · simpa using htail

/-- The merge succeeds exactly when there is an extension of the lists. -/
theorem merge_isSome_iff {seqs : List (List κ)} :
  (∃ L, merge seqs = some L) ↔ ∃ L, Extends L seqs
  := by
  constructor
  · rintro ⟨L, hL⟩
    use L, (merge_extends hL).1.nodup
    apply (merge_extends hL).1.sublist
  · rintro ⟨L, hL⟩
    obtain ⟨r, hr⟩ := exists_run_merge seqs
    have hsome := Loop.run_post (I := fun s => Extends L s.seqs)
      (P := fun r : Option (List κ) => r.isSome) ?_ ?_ hL hr
    · obtain ⟨L', rfl⟩ := Option.isSome_iff_exists.mp hsome
      use L'
      rw [merge, hr]
      rfl
    · intro s s' hs h
      rw [mergeStep] at h
      split_ifs at h
      split at h
      · cases h
      · cases h
        use hs.nodup
        simp only [List.mem_map]
        rintro _ ⟨l, hl, rfl⟩
        exact (removeHead_sublist _ l).trans (hs.sublist l hl)
    · intro s r hs h
      rw [mergeStep] at h
      split_ifs at h with hempty
      · cases h
        rfl
      · obtain ⟨c, hc⟩ := exists_candidate hs hempty
        rw [hc] at h
        cases h

end Linearization
