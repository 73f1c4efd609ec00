import Mathlib.Logic.Function.Basic
import Mathlib.Logic.Relation
import PythonInternals.Foundation.ForLoop
import PythonInternals.Foundation.Linearization

/-!
# Cooperative methods

The classes of `super_demo.py`: a class statement computes the method resolution order
`tp_mro`, the class followed by the merge of the orders of its bases and of the list of the
bases, and `super().f()` goes on with the class that comes next in the order of the object's
type.

The order is the C3 linearization, and a class statement is rejected only when no order of the
ancestors agrees with those of the bases and with their list (`exec_isSome_iff`).  When the method
`f` of one class returns the name of the class, and those of all its subclasses append their names
to `super().f()`, then `f` runs once in every ancestor, in the reversed order (`callMethod_eq`).
-/

namespace Super

open Linearization Relation

/-- The method `f` of a class: it returns the name of the class, or it appends the name to what
`super().f()` returns. -/
inductive Method where
  | plain
  | cooperative
  deriving DecidableEq

/-- A class statement. -/
structure ClassStmt (κ : Type*) where
  cls : κ
  bases : List κ
  f : Method

/-- The bases of the class, `object` when the statement has none. -/
def ClassStmt.tpBases {κ : Type*} (object : κ) (s : ClassStmt κ) : List κ :=
  if s.bases.isEmpty then [object] else s.bases

/-- The fields of the type objects: the resolution orders, the bases, and the methods `f` in
their dictionaries. -/
structure Classes (κ : Type*) where
  tp_mro : κ → Option (List κ)
  tp_bases : κ → List κ
  f : κ → Option Method

variable {κ : Type*} [DecidableEq κ]

namespace Classes

/-- There is only `object`, which has no method `f`. -/
def builtins (object : κ) : Classes κ where
  tp_mro := Function.update (fun _ => none) object (some [object])
  tp_bases _ := []
  f _ := none

/-- The lists that are merged for the order of a class with the given bases. -/
def mroLists (env : Classes κ) (bases : List κ) : List (List κ) :=
  bases.filterMap env.tp_mro ++ [bases]

/-- Execute the statement of a new class, whose bases exist. -/
def exec (object : κ) (env : Classes κ) (s : ClassStmt κ) : Option (Classes κ) :=
  let bases := s.tpBases object
  if env.tp_mro s.cls = none ∧ ∀ b ∈ bases, env.tp_mro b ≠ none then
    (merge (env.mroLists bases)).map (fun mro =>
      { tp_mro := Function.update env.tp_mro s.cls (some (s.cls :: mro))
        tp_bases := Function.update env.tp_bases s.cls bases
        f := Function.update env.f s.cls (some s.f) })
  else none

/-- Execute the statements of a program. -/
def run (object : κ) (program : List (ClassStmt κ)) : Option (Classes κ) :=
  program.foldlM (exec object) (builtins object)

/-- `_PyType_Lookup(type, 'f')`: the first class in the order of the type that has `f`. -/
def typeLookup (env : Classes κ) (type : κ) : Option κ :=
  (env.tp_mro type).bind (List.find? (fun base => (env.f base).isSome))

/-- `super_getattro`, of `super(type, obj)` and the name `f`, for an object of type `obj_type`. -/
def superGetattro (env : Classes κ) (obj_type type : κ) : Option κ :=
  (env.tp_mro obj_type).bind
    (fun mro => (mro.dropWhile (· ≠ type)).tail.findSome? env.typeLookup)

/-- Run the method `f` of the class `type` on an object of type `obj_type`, with the given
number of nested calls. -/
def callF (env : Classes κ) (name : κ → String) (obj_type : κ) : ℕ → κ → Option String
  | 0, _ => none
  | calls + 1, type =>
      match env.f type with
      | none => none
      | some .plain => some (name type)
      | some .cooperative =>
          (env.superGetattro obj_type type).bind (fun next =>
            (env.callF name obj_type calls next).map (fun result => result ++ name type))

/-- `obj.f()`, for an object of type `obj_type`. -/
def callMethod (env : Classes κ) (name : κ → String) (obj_type : κ) (calls : ℕ) :
    Option String :=
  (env.typeLookup obj_type).bind (env.callF name obj_type calls)

/-- `d` is a base of `c`. -/
def IsBase (env : Classes κ) (c d : κ) : Prop := d ∈ env.tp_bases c

end Classes

open Classes

/-! ### Resolution orders -/

/-- Every order is its class followed by the merge for its bases, and ends with `object`; it has
the ancestors of the class, each once, and has the order of each of them, and the list of its
bases, as a sublist. -/
structure Consistent (object : κ) (env : Classes κ) : Prop where
  head : ∀ c l, env.tp_mro c = some l → ∃ t, l = c :: t
  merged : ∀ c t, env.tp_mro c = some (c :: t) → merge (env.mroLists (env.tp_bases c)) = some t
  last : ∀ c l, env.tp_mro c = some l → ∃ p, l = p ++ [object]
  nodup : ∀ c l, env.tp_mro c = some l → l.Nodup
  mono : ∀ c l, env.tp_mro c = some l → ∀ d ∈ l, ∃ l', env.tp_mro d = some l' ∧ l'.Sublist l
  bases : ∀ c t, env.tp_mro c = some (c :: t) → (env.tp_bases c).Sublist t
  ancestor : ∀ c l, env.tp_mro c = some l → ∀ d ∈ l, ReflTransGen env.IsBase c d
  undefined : ∀ c, env.tp_mro c = none → env.tp_bases c = []

/-- At first only `object` has an order. -/
theorem builtins_mro {object c : κ} {l : List κ} (h : (builtins object).tp_mro c = some l) :
  c = object ∧ l = [object]
  := by
  simp only [builtins, Function.update_apply] at h
  split_ifs at h with hc
  exact ⟨hc, (Option.some.inj h).symm⟩

theorem Consistent.builtins (object : κ) :
  Consistent object (Classes.builtins object)
  := by
  constructor
  · intro c l h
    obtain ⟨rfl, rfl⟩ := builtins_mro h
    use []
  · intro c t h
    obtain ⟨rfl, ht⟩ := builtins_mro h
    rw [(List.cons.inj ht).2]
    rfl
  · intro c l h
    obtain ⟨rfl, rfl⟩ := builtins_mro h
    use []
    rfl
  · intro c l h
    obtain ⟨rfl, rfl⟩ := builtins_mro h
    apply List.nodup_singleton
  · intro c l h d hd
    obtain ⟨rfl, rfl⟩ := builtins_mro h
    obtain rfl := List.mem_singleton.mp hd
    use [d], h
  · intro c l _
    apply List.nil_sublist
  · intro c l h d hd
    obtain ⟨rfl, rfl⟩ := builtins_mro h
    obtain rfl := List.mem_singleton.mp hd
    apply ReflTransGen.refl
  · intro c _
    rfl

omit [DecidableEq κ] in
/-- An element that all the others precede is the last. -/
theorem exists_eq_concat {l : List κ} (hl : l.Nodup) {x : κ} (hx : x ∈ l)
    (hlast : ∀ d ∈ l, d ≠ x → [d, x].Sublist l) :
  ∃ p, l = p ++ [x]
  := by
  obtain ⟨p, q, rfl⟩ := List.append_of_mem hx
  cases q with
  | nil => use p
  | cons d q =>
      obtain ⟨-, hq, hpq⟩ := List.nodup_append.mp hl
      obtain ⟨hxq, -⟩ := List.nodup_cons.mp hq
      have hdx : d ≠ x := by
        rintro rfl
        exact hxq List.mem_cons_self
      have hsub : [d, x].Sublist (x :: d :: q) := by
        apply sublist_of_disjoint (hlast d (by simp) hdx)
        intro c hc hmem
        rcases List.mem_pair.mp hmem with rfl | rfl
        · exact hpq c hc c (by simp) rfl
        · exact hpq c hc c (by simp) rfl
      rcases List.sublist_cons_iff.mp hsub with hsub | ⟨r, hr, -⟩
      · exact absurd (hsub.subset (by simp)) hxq
      · exact absurd (List.cons.inj hr).1 hdx

/-- What a class statement does that is not rejected: the new class has the merge as its order,
and all that there was stays. -/
theorem exec_eq_some {object : κ} {env env' : Classes κ} {s : ClassStmt κ}
    (h : exec object env s = some env') :
  env.tp_mro s.cls = none ∧ (∀ b ∈ s.tpBases object, ∃ l, env.tp_mro b = some l) ∧
    ∃ mro, merge (env.mroLists (s.tpBases object)) = some mro ∧
      (∀ c l, env'.tp_mro c = some l
        ↔ (c = s.cls ∧ l = s.cls :: mro) ∨ env.tp_mro c = some l) ∧
      env'.tp_bases s.cls = s.tpBases object ∧ env'.f s.cls = some s.f ∧
      ∀ c, c ≠ s.cls → env'.tp_bases c = env.tp_bases c ∧ env'.f c = env.f c
  := by
  rw [exec] at h
  split_ifs at h with hdef
  obtain ⟨mro, hmro, rfl⟩ := Option.map_eq_some_iff.mp h
  obtain ⟨hcls, hbases⟩ := hdef
  refine ⟨hcls, ?_, mro, hmro, ?_, Function.update_self .., Function.update_self .., ?_⟩
  · intro b hb
    exact Option.ne_none_iff_exists'.mp (hbases b hb)
  · intro c l
    by_cases hc : c = s.cls
    · simp [hc, hcls, eq_comm]
    · simp [hc]
  · intro c hc
    exact ⟨Function.update_of_ne hc .., Function.update_of_ne hc ..⟩

omit [DecidableEq κ] in
/-- A class that exists is not one that does not. -/
theorem ne_of_mro {env : Classes κ} {c d : κ} {l : List κ} (hd : env.tp_mro d = some l)
    (hc : env.tp_mro c = none) :
  d ≠ c
  := by
  rintro rfl
  rw [hc] at hd
  cases hd

/-- What the merge of a class statement has: the bases and their orders, and nothing else. -/
theorem merge_mroLists {object : κ} {env : Classes κ} (henv : Consistent object env)
    {bases mro : List κ} (hbases : ∀ b ∈ bases, ∃ l, env.tp_mro b = some l)
    (h : merge (env.mroLists bases) = some mro) :
  mro.Nodup ∧ bases.Sublist mro ∧ (∀ b ∈ bases, ∀ l, env.tp_mro b = some l → l.Sublist mro) ∧
    ∀ d ∈ mro, ∃ b ∈ bases, ∃ l, env.tp_mro b = some l ∧ d ∈ l
  := by
  obtain ⟨⟨hnodup, hsub⟩, hmem⟩ := merge_extends h
  simp only [mroLists, List.mem_append, List.mem_filterMap, List.mem_singleton] at hsub hmem
  refine ⟨hnodup, hsub bases (Or.inr rfl), ?_, ?_⟩
  · intro b hb l hl
    exact hsub l (Or.inl ⟨b, hb, hl⟩)
  · intro d hd
    obtain ⟨l, ⟨b, hb, hl⟩ | rfl, hdl⟩ := hmem d hd
    · use b, hb, l
    · obtain ⟨l', hl'⟩ := hbases d hdl
      obtain ⟨t, rfl⟩ := henv.head d l' hl'
      use d, hdl, d :: t, hl'
      exact List.mem_cons_self

/-- The merge of a class statement ends with `object`. -/
theorem exists_merge_eq_concat {object : κ} {env : Classes κ} (henv : Consistent object env)
    {bases mro : List κ} (hbases : ∀ b ∈ bases, ∃ l, env.tp_mro b = some l) (hne : bases ≠ [])
    (h : merge (env.mroLists bases) = some mro) :
  ∃ p, mro = p ++ [object]
  := by
  obtain ⟨hnodup, -, horders, hmem⟩ := merge_mroLists henv hbases h
  apply exists_eq_concat hnodup
  · obtain ⟨b, hb⟩ := List.exists_mem_of_ne_nil bases hne
    obtain ⟨l, hl⟩ := hbases b hb
    obtain ⟨p, rfl⟩ := henv.last b l hl
    apply (horders b hb _ hl).subset
    simp
  · intro d hd hdo
    obtain ⟨b, hb, l, hl, hdl⟩ := hmem d hd
    obtain ⟨l', hl', hsub⟩ := henv.mono b l hl d hdl
    apply List.Sublist.trans _ (hsub.trans (horders b hb l hl))
    obtain ⟨t, rfl⟩ := henv.head d l' hl'
    obtain ⟨p, hp⟩ := henv.last d _ hl'
    cases p with
    | nil => exact absurd (List.cons.inj hp).1 hdo
    | cons e p =>
        rw [(List.cons.inj hp).2]
        simp

omit [DecidableEq κ] in
/-- What is merged for some bases depends on their orders only. -/
theorem mroLists_congr {env env' : Classes κ} {bases : List κ}
    (h : ∀ b ∈ bases, env'.tp_mro b = env.tp_mro b) :
  env'.mroLists bases = env.mroLists bases
  := by
  rw [mroLists, mroLists, List.filterMap_congr h]

/-- A class statement keeps the resolution orders consistent. -/
theorem Consistent.exec {object : κ} (env : Classes κ) (s : ClassStmt κ) (env' : Classes κ)
    (henv : Consistent object env) (h : exec object env s = some env') :
  Consistent object env'
  := by
  obtain ⟨hcls, hbases, mro, hmro, hdef, hnew, -, hframe⟩ := exec_eq_some h
  obtain ⟨hnodup, hsub, horders, hmem⟩ := merge_mroLists henv hbases hmro
  have hdefined : ∀ d ∈ mro, ∃ l, env.tp_mro d = some l ∧ l.Sublist mro := by
    intro d hd
    obtain ⟨b, hb, l, hl, hdl⟩ := hmem d hd
    obtain ⟨l', hl', hsub'⟩ := henv.mono b l hl d hdl
    use l', hl'
    exact hsub'.trans (horders b hb l hl)
  have hrel : ∀ c d, ReflTransGen env.IsBase c d → ReflTransGen env'.IsBase c d := by
    intro c d
    apply ReflTransGen.mono
    intro x y hxy
    have hx : x ≠ s.cls := by
      rintro rfl
      rw [IsBase, henv.undefined _ hcls] at hxy
      cases hxy
    rwa [IsBase, (hframe x hx).1]
  have hlists : ∀ bases, (∀ b ∈ bases, ∃ l, env.tp_mro b = some l) →
      env'.mroLists bases = env.mroLists bases := by
    intro bases hexist
    apply mroLists_congr
    intro b hb
    obtain ⟨l, hl⟩ := hexist b hb
    rw [hl, (hdef b l).mpr (Or.inr hl)]
  constructor
  · intro c l hc
    obtain ⟨rfl, rfl⟩ | hc := (hdef c l).mp hc
    · use mro
    · exact henv.head c l hc
  · intro c t hc
    obtain ⟨rfl, ht⟩ | hc := (hdef c _).mp hc
    · rw [hnew, (List.cons.inj ht).2, hlists _ hbases]
      exact hmro
    · rw [(hframe c (ne_of_mro hc hcls)).1, hlists]
      · exact henv.merged c t hc
      · intro b hb
        have hmem' : b ∈ c :: t := List.mem_cons_of_mem c ((henv.bases c t hc).subset hb)
        obtain ⟨l, hl, -⟩ := henv.mono c _ hc b hmem'
        use l
  · intro c l hc
    obtain ⟨rfl, rfl⟩ | hc := (hdef c l).mp hc
    · have hne : s.tpBases object ≠ [] := by
        rw [ClassStmt.tpBases]
        split_ifs with hb
        · simp
        · simpa using hb
      obtain ⟨p, hp⟩ := exists_merge_eq_concat henv hbases hne hmro
      use s.cls :: p
      rw [hp, List.cons_append]
    · exact henv.last c l hc
  · intro c l hc
    obtain ⟨rfl, rfl⟩ | hc := (hdef c l).mp hc
    · rw [List.nodup_cons]
      constructor
      · intro hmem'
        obtain ⟨l', hl', -⟩ := hdefined s.cls hmem'
        exact ne_of_mro hl' hcls rfl
      · exact hnodup
    · exact henv.nodup c l hc
  · intro c l hc d hd
    obtain ⟨rfl, rfl⟩ | hc := (hdef c l).mp hc
    · rcases List.mem_cons.mp hd with rfl | hd
      · use s.cls :: mro, (hdef _ _).mpr (Or.inl ⟨rfl, rfl⟩)
      · obtain ⟨l', hl', hsub'⟩ := hdefined d hd
        use l', (hdef d l').mpr (Or.inr hl')
        exact hsub'.cons s.cls
    · obtain ⟨l', hl', hsub'⟩ := henv.mono c l hc d hd
      use l', (hdef d l').mpr (Or.inr hl')
  · intro c t hc
    obtain ⟨rfl, ht⟩ | hc := (hdef c _).mp hc
    · rw [hnew, (List.cons.inj ht).2]
      exact hsub
    · rw [(hframe c (ne_of_mro hc hcls)).1]
      exact henv.bases c t hc
  · intro c l hc d hd
    obtain ⟨rfl, rfl⟩ | hc := (hdef c l).mp hc
    · rcases List.mem_cons.mp hd with rfl | hd
      · apply ReflTransGen.refl
      · obtain ⟨b, hb, l, hl, hdl⟩ := hmem d hd
        apply ReflTransGen.head _ (hrel b d (henv.ancestor b l hl d hdl))
        rwa [IsBase, hnew]
    · exact hrel c d (henv.ancestor c l hc d hd)
  · intro c hc
    have hcs : c ≠ s.cls := by
      rintro rfl
      rw [(hdef s.cls _).mpr (Or.inl ⟨rfl, rfl⟩)] at hc
      cases hc
    rw [(hframe c hcs).1]
    apply henv.undefined
    rw [← Option.not_isSome_iff_eq_none, Option.isSome_iff_exists]
    rintro ⟨l, hl⟩
    rw [(hdef c l).mpr (Or.inr hl)] at hc
    cases hc

/-- The resolution orders of a program are consistent. -/
theorem Consistent.run {object : κ} {program : List (ClassStmt κ)} {env : Classes κ}
    (h : run object program = some env) :
  Consistent object env
  := ForLoop.foldlM_invariant (I := Consistent object) Consistent.exec h
    (Consistent.builtins object)

/-- An order has exactly the ancestors of its class. -/
theorem Consistent.mem_iff {object : κ} {env : Classes κ} (henv : Consistent object env) {c : κ}
    {l : List κ} (hc : env.tp_mro c = some l) (d : κ) :
  d ∈ l ↔ ReflTransGen env.IsBase c d
  := by
  constructor
  · apply henv.ancestor c l hc
  · intro hd
    induction hd with
    | refl =>
        obtain ⟨t, rfl⟩ := henv.head c l hc
        exact List.mem_cons_self
    | tail _ hbase ih =>
        obtain ⟨l', hl', hsub⟩ := henv.mono c l hc _ ih
        obtain ⟨t, rfl⟩ := henv.head _ l' hl'
        exact hsub.subset (List.mem_cons_of_mem _ ((henv.bases _ t hl').subset hbase))

/-- In every program, the resolution order of a class has exactly its ancestors, each once, and
every ancestor stands there before its own ancestors, in the order it has for them, and with
its bases in the order of its class statement.  The order is the one of C3: behind the class comes
each time the first class that heads one of the lists to be merged, without the classes before it,
and is in the tail of none.  A statement of a new class whose bases exist
fails only if no order of any classes does this for the bases. -/
theorem exec_isSome_iff {object : κ} {program : List (ClassStmt κ)} {env : Classes κ}
    (h : run object program = some env) :
  (∀ c l, env.tp_mro c = some l → l.Nodup ∧ (∀ d, d ∈ l ↔ ReflTransGen env.IsBase c d) ∧
    (∀ d ∈ l, ∃ t, env.tp_mro d = some (d :: t) ∧ (d :: t).Sublist l ∧
      (env.tp_bases d).Sublist t) ∧
    ∀ p d q, l = c :: (p ++ d :: q) →
      candidate (left p (env.mroLists (env.tp_bases c))) = some d) ∧
  ∀ s : ClassStmt κ, env.tp_mro s.cls = none →
    (∀ b ∈ s.tpBases object, ∃ l, env.tp_mro b = some l) →
    ((∃ env', exec object env s = some env')
      ↔ ∃ L : List κ, L.Nodup ∧ (s.tpBases object).Sublist L ∧
        ∀ b ∈ s.tpBases object, ∀ l, env.tp_mro b = some l → l.Sublist L)
  := by
  have henv := Consistent.run h
  constructor
  · intro c l hc
    refine ⟨henv.nodup c l hc, henv.mem_iff hc, ?_, ?_⟩
    · intro d hd
      obtain ⟨l', hl', hsub⟩ := henv.mono c l hc d hd
      obtain ⟨t, rfl⟩ := henv.head d l' hl'
      use t, hl', hsub
      exact henv.bases d t hl'
    · rintro p d q rfl
      exact merge_candidate (henv.merged c _ hc) rfl
  · intro s hcls hbases
    have hdef : env.tp_mro s.cls = none ∧ ∀ b ∈ s.tpBases object, env.tp_mro b ≠ none := by
      use hcls
      intro b hb
      obtain ⟨l, hl⟩ := hbases b hb
      rw [hl]
      exact Option.some_ne_none l
    have hexec : (∃ env', exec object env s = some env')
        ↔ ∃ L, merge (env.mroLists (s.tpBases object)) = some L := by
      rw [exec, if_pos hdef]
      simp
    rw [hexec, merge_isSome_iff]
    constructor
    · rintro ⟨L, hL⟩
      use L, hL.nodup, hL.sublist _ (by simp [mroLists])
      intro b hb l hl
      apply hL.sublist
      simp only [mroLists, List.mem_append, List.mem_filterMap]
      exact Or.inl ⟨b, hb, hl⟩
    · rintro ⟨L, hnodup, hbasesL, horders⟩
      use L, hnodup
      simp only [mroLists, List.mem_append, List.mem_filterMap, List.mem_singleton]
      rintro l (⟨b, hb, hl⟩ | rfl)
      · exact horders b hb l hl
      · exact hbasesL

/-! ### Cooperative calls -/

/-- A program of the kind of the demo, executed so far: the method `f` of `root` returns its
name, and all the other classes but `object` are subclasses of `root` with a cooperative `f`. -/
structure Chain (object root : κ) (env : Classes κ) : Prop where
  root_mro : env.tp_mro root = some [root, object]
  root_f : env.f root = some .plain
  cooperative : ∀ c l, env.tp_mro c = some l → c ≠ object → c ≠ root →
    env.f c = some .cooperative ∧ root ∈ l

/-- The statement of the root. -/
theorem Chain.start {object root : κ} {env : Classes κ}
    (h : exec object (builtins object) { cls := root, bases := [], f := .plain } = some env) :
  Chain object root env
  := by
  have hbuiltins := Consistent.builtins object
  obtain ⟨-, hbases, mro, hmro, hdef, -, hf, -⟩ := exec_eq_some h
  obtain ⟨hnodup, -, -, hmem⟩ := merge_mroLists hbuiltins hbases hmro
  have hne : ClassStmt.tpBases object ⟨root, [], .plain⟩ ≠ [] := by simp [ClassStmt.tpBases]
  obtain ⟨p, rfl⟩ := exists_merge_eq_concat hbuiltins hbases hne hmro
  have hp : p = [] := by
    rw [List.eq_nil_iff_forall_not_mem]
    intro d hd
    obtain ⟨b, -, l, hl, hdl⟩ := hmem d (List.mem_append_left _ hd)
    obtain ⟨-, rfl⟩ := builtins_mro hl
    exact (List.nodup_append.mp hnodup).2.2 d hd object (by simp) (List.mem_singleton.mp hdl)
  subst hp
  constructor
  · rw [hdef]
    exact Or.inl ⟨rfl, rfl⟩
  · exact hf
  · intro c l hc hco hcr
    obtain ⟨rfl, -⟩ | hc := (hdef c l).mp hc
    · exact absurd rfl hcr
    · exact absurd (builtins_mro hc).1 hco

/-- The statement of a subclass. -/
theorem Chain.exec {object root : κ} {env env' : Classes κ} {s : ClassStmt κ}
    (henv : Consistent object env) (hchain : Chain object root env)
    (hs : s.f = .cooperative ∧ s.bases ≠ [] ∧ object ∉ s.bases)
    (h : exec object env s = some env') :
  Chain object root env'
  := by
  obtain ⟨hf, hne, hobject⟩ := hs
  obtain ⟨hcls, hbases, mro, hmro, hdef, -, hnew, hframe⟩ := exec_eq_some h
  obtain ⟨-, -, horders, -⟩ := merge_mroLists henv hbases hmro
  have htp : s.tpBases object = s.bases := by simp [ClassStmt.tpBases, hne]
  constructor
  · exact (hdef _ _).mpr (Or.inr hchain.root_mro)
  · rw [(hframe root (ne_of_mro hchain.root_mro hcls)).2]
    exact hchain.root_f
  · intro c l hc hco hcr
    obtain ⟨rfl, rfl⟩ | hc := (hdef c l).mp hc
    · rw [hnew, hf]
      use rfl
      obtain ⟨b, hb⟩ := List.exists_mem_of_ne_nil s.bases hne
      rw [htp] at hbases horders
      obtain ⟨l, hl⟩ := hbases b hb
      have hbo : b ≠ object := by
        rintro rfl
        exact hobject hb
      apply List.mem_cons_of_mem
      apply (horders b hb l hl).subset
      by_cases hbr : b = root
      · obtain ⟨t, rfl⟩ := henv.head b l hl
        rw [hbr]
        exact List.mem_cons_self
      · exact (hchain.cooperative b l hl hbo hbr).2
    · rw [(hframe c (ne_of_mro hc hcls)).2]
      exact hchain.cooperative c l hc hco hcr

/-- The statements of the subclasses. -/
theorem Chain.run {object root : κ} {program : List (ClassStmt κ)} {env env' : Classes κ}
    (hprogram : ∀ s ∈ program, s.f = .cooperative ∧ s.bases ≠ [] ∧ object ∉ s.bases)
    (henv : Consistent object env) (hchain : Chain object root env)
    (h : program.foldlM (Classes.exec object) env = some env') :
  Chain object root env'
  := by
  induction program generalizing env with
  | nil =>
      obtain rfl := Option.some.inj h
      exact hchain
  | cons s program ih =>
      rw [List.foldlM_cons] at h
      obtain ⟨env₁, hs, hrest⟩ := Option.bind_eq_some_iff.mp h
      obtain ⟨hfirst, hprogram⟩ := List.forall_mem_cons.mp hprogram
      exact ih hprogram (henv.exec _ _ _ hs) (hchain.exec henv hfirst hs) hrest

/-- A class with a method `f` of its own is found first. -/
theorem typeLookup_of_f {object : κ} {env : Classes κ} (henv : Consistent object env) {c : κ}
    {l : List κ} (hc : env.tp_mro c = some l) (hf : (env.f c).isSome) :
  env.typeLookup c = some c
  := by
  obtain ⟨t, rfl⟩ := henv.head c l hc
  rw [typeLookup, hc, Option.bind_some]
  simp [hf]

/-- `super` goes on with the next class of the order. -/
theorem superGetattro_eq {object : κ} {env : Classes κ} (henv : Consistent object env) {x c d : κ}
    {p q : List κ} (hx : env.tp_mro x = some (p ++ c :: d :: q)) (hf : (env.f d).isSome) :
  env.superGetattro x c = some d
  := by
  have hp : ∀ a ∈ p, decide (a ≠ c) = true := by
    intro a ha
    rw [decide_eq_true_eq]
    rintro rfl
    exact (List.nodup_append.mp (henv.nodup x _ hx)).2.2 a ha a (by simp) rfl
  have hskip : (p ++ c :: d :: q).dropWhile (fun a => decide (a ≠ c)) = c :: d :: q := by
    rw [List.dropWhile_append_of_pos hp]
    simp
  obtain ⟨l, hl, -⟩ := henv.mono x _ hx d (by simp)
  rw [superGetattro, hx, Option.bind_some, hskip, List.tail_cons, List.findSome?_cons,
    typeLookup_of_f henv hl hf]

omit [DecidableEq κ] in
/-- The classes up to `root` have a method `f`. -/
theorem isSome_f {root : κ} {env : Classes κ} (hroot : env.f root = some .plain) {r : List κ}
    (hr : ∀ d ∈ r, env.f d = some .cooperative) {d : κ} (hd : d ∈ r ++ [root]) :
  (env.f d).isSome
  := by
  rcases List.mem_append.mp hd with hd | hd
  · rw [hr d hd]
    rfl
  · rw [List.mem_singleton.mp hd, hroot]
    rfl

/-- From a class on, `f` runs in all the classes that follow, up to `root`. -/
theorem callF_eq {object root : κ} {env : Classes κ} (henv : Consistent object env)
    (hroot : env.f root = some .plain) (name : κ → String) {x : κ} {p r q : List κ}
    (hx : env.tp_mro x = some (p ++ r ++ root :: q))
    (hr : ∀ d ∈ r, env.f d = some .cooperative) {calls : ℕ} (hcalls : r.length < calls) :
  ∀ c, (r ++ [root]).head? = some c →
    env.callF name x calls c = some (String.join ((r ++ [root]).reverse.map name))
  := by
  induction r generalizing p calls with
  | nil =>
      rintro c ⟨⟩
      obtain ⟨calls, rfl⟩ : ∃ k, calls = k + 1 := ⟨calls - 1, by omega⟩
      simp [callF, hroot]
  | cons d r ih =>
      rintro c ⟨⟩
      obtain ⟨calls, rfl⟩ : ∃ k, calls = k + 1 := ⟨calls - 1, by omega⟩
      rw [List.length_cons] at hcalls
      obtain ⟨hd, hr⟩ := List.forall_mem_cons.mp hr
      obtain ⟨e, he⟩ : ∃ e, (r ++ [root]).head? = some e := by
        cases r with
        | nil => use root; rfl
        | cons e r => use e; rfl
      obtain ⟨t, ht⟩ := List.head?_eq_some_iff.mp he
      have hef : (env.f e).isSome := isSome_f hroot hr (List.mem_of_mem_head? he)
      have hnext : env.superGetattro x d = some e := by
        apply superGetattro_eq henv (p := p) (q := t ++ q) _ hef
        rw [hx, ← List.cons_append, ← List.cons_append, ← ht]
        simp
      have hrest := ih (p := p ++ [d]) (by simpa using hx) hr (Nat.lt_of_succ_lt_succ hcalls) e he
      rw [callF, hd]
      simp only [hnext, Option.bind_some, hrest, Option.map_some]
      rw [List.cons_append, List.reverse_cons, List.map_append, String.join_append]
      simp

/-- In a program of the kind of the demo, the order of a class ends with `root` and `object`, and
the methods `f` before these are cooperative. -/
theorem Chain.exists_mro {object root : κ} (hne : root ≠ object) {env : Classes κ}
    (henv : Consistent object env) (hchain : Chain object root env) {c : κ} {l : List κ}
    (hc : env.tp_mro c = some l) (hco : c ≠ object) :
  ∃ r, l = r ++ [root, object] ∧ ∀ d ∈ r, d ≠ object ∧ env.f d = some .cooperative
  := by
  -- `root` comes behind every class in an order, and `object` behind both
  have hroot : ∀ d l', env.tp_mro d = some l' → d ≠ object → d ≠ root → [d, root].Sublist l' := by
    intro d l' hd hdo hdr
    obtain ⟨t, rfl⟩ := henv.head d l' hd
    obtain ⟨-, hmem⟩ := hchain.cooperative d _ hd hdo hdr
    rw [List.cons_sublist_cons, List.singleton_sublist]
    exact (List.mem_cons.mp hmem).resolve_left (Ne.symm hdr)
  obtain ⟨p, rfl⟩ := henv.last c l hc
  obtain ⟨hp, -, hpo⟩ := List.nodup_append.mp (henv.nodup c _ hc)
  have hobject : ∀ d ∈ p, d ≠ object := by
    intro d hd
    exact hpo d hd object (by simp)
  have hfilter : p.filter (fun d => decide (d ≠ object)) = p := by
    rw [List.filter_eq_self]
    simpa using hobject
  have hsub : ∀ d, d ≠ object → [d, root].Sublist (p ++ [object]) → [d, root].Sublist p := by
    intro d hdo h
    have hkept := h.filter (fun d => decide (d ≠ object))
    rw [List.filter_append, hfilter] at hkept
    simpa [hdo, hne] using hkept
  have hmem : root ∈ p := by
    by_cases hcr : c = root
    · rw [hcr, hchain.root_mro, Option.some.injEq] at hc
      obtain ⟨rfl, -⟩ := List.append_inj' (show [root] ++ [object] = p ++ [object] from hc) rfl
      exact List.mem_singleton_self root
    · exact (hsub c hco (hroot c _ hc hco hcr)).subset (by simp)
  obtain ⟨r, rfl⟩ := exists_eq_concat hp hmem (by
    intro d hd hdr
    obtain ⟨l', hl', hsub'⟩ := henv.mono c _ hc d (List.mem_append_left _ hd)
    exact hsub d (hobject d hd) ((hroot d l' hl' (hobject d hd) hdr).trans hsub'))
  use r
  constructor
  · simp
  · intro d hd
    have hdp : d ∈ r ++ [root] := List.mem_append_left _ hd
    have hdr : d ≠ root := (List.nodup_append.mp hp).2.2 d hd root (by simp)
    obtain ⟨l', hl', -⟩ := henv.mono c _ hc d (List.mem_append_left _ hdp)
    use hobject d hdp
    exact (hchain.cooperative d l' hl' (hobject d hdp) hdr).1

/-- In a program whose first class `root` returns its name from `f`, and whose other classes
derive from it and append their names to `super().f()`: the method `f` of an object runs in
every ancestor of its class but `object`, once in each, in the reversed resolution order; in this
order every class stands before its bases, and these as its class statement has them. -/
theorem callMethod_eq (name : κ → String) {object root : κ} (hne : root ≠ object)
    {program : List (ClassStmt κ)}
    (hprogram : ∀ s ∈ program, s.f = .cooperative ∧ s.bases ≠ [] ∧ object ∉ s.bases)
    {env : Classes κ}
    (hrun : run object ({ cls := root, bases := [], f := .plain } :: program) = some env)
    {c : κ} (hc : env.tp_mro c ≠ none) (hco : c ≠ object) :
  ∃ l, env.tp_mro c = some (l ++ [object]) ∧ l.Nodup ∧
    (∀ d, d ∈ l ↔ ReflTransGen env.IsBase c d ∧ d ≠ object) ∧
    (∀ d ∈ l, (d :: env.tp_bases d).Sublist (l ++ [object])) ∧
    ∀ calls, l.length ≤ calls →
      env.callMethod name c calls = some (String.join (l.reverse.map name))
  := by
  have henv := Consistent.run hrun
  have hchain : Chain object root env := by
    rw [Classes.run, List.foldlM_cons] at hrun
    obtain ⟨env₁, hs, hrest⟩ := Option.bind_eq_some_iff.mp hrun
    exact (Chain.start hs).run hprogram ((Consistent.builtins object).exec _ _ _ hs) hrest
  obtain ⟨l, hl⟩ := Option.ne_none_iff_exists'.mp hc
  obtain ⟨r, rfl, hr⟩ := hchain.exists_mro hne henv hl hco
  have hsplit : r ++ [root, object] = (r ++ [root]) ++ [object] := by simp
  rw [hsplit] at hl
  have hobject : ∀ d ∈ r ++ [root], d ≠ object := by
    intro d hd
    rcases List.mem_append.mp hd with hd | hd
    · exact (hr d hd).1
    · rw [List.mem_singleton.mp hd]
      exact hne
  use r ++ [root], hl
  and_intros
  · exact (List.nodup_append.mp (henv.nodup c _ hl)).1
  · intro d
    rw [← henv.mem_iff hl d]
    constructor
    · intro hd
      exact ⟨List.mem_append_left _ hd, hobject d hd⟩
    · rintro ⟨hd, hdo⟩
      rcases List.mem_append.mp hd with hd | hd
      · exact hd
      · exact absurd (List.mem_singleton.mp hd) hdo
  · intro d hd
    obtain ⟨l', hl', hsub⟩ := henv.mono c _ hl d (List.mem_append_left _ hd)
    obtain ⟨t, rfl⟩ := henv.head d l' hl'
    exact ((henv.bases d t hl').cons_cons d).trans hsub
  · intro calls hcalls
    rw [List.length_append, List.length_singleton] at hcalls
    obtain ⟨t, ht⟩ := henv.head c _ hl
    have hhead : (r ++ [root]).head? = some c := by
      cases r with
      | nil =>
          rw [List.nil_append, List.singleton_append] at ht
          rw [(List.cons.inj ht).1]
          rfl
      | cons e r =>
          rw [List.cons_append, List.cons_append] at ht
          rw [(List.cons.inj ht).1]
          rfl
    have hf : (env.f c).isSome :=
      isSome_f hchain.root_f (fun d hd => (hr d hd).2) (List.mem_of_mem_head? hhead)
    rw [callMethod, typeLookup_of_f henv hl hf, Option.bind_some]
    apply callF_eq henv hchain.root_f name (p := []) (q := [object]) _ (fun d hd => (hr d hd).2)
      (by omega) c hhead
    rw [hl]
    simp

/-! ### The classes of the demo -/

/-- `object` and the classes of the demo. -/
inductive DemoClass where
  | object
  | a
  | b
  | c
  | d
  deriving DecidableEq

/-- The names of the classes. -/
def DemoClass.name : DemoClass → String
  | .object => "object"
  | .a => "A"
  | .b => "B"
  | .c => "C"
  | .d => "D"

/-- The statement of `A`. -/
def demoA : ClassStmt DemoClass where
  cls := .a
  bases := []
  f := .plain

/-- The statements of `B` and `C`. -/
def demoBC : List (ClassStmt DemoClass) :=
  [⟨.b, [.a], .cooperative⟩, ⟨.c, [.a], .cooperative⟩]

/-- The statement of `D`. -/
def demoD : ClassStmt DemoClass where
  cls := .d
  bases := [.b, .c]
  f := .cooperative

theorem exec_demo :
  (run .object (demoA :: demoBC)).bind (fun env => exec .object env demoD) ≠ none
  := by
  obtain ⟨env, henv⟩ : ∃ env, run .object (demoA :: demoBC) = some env :=
    Option.isSome_iff_exists.mp (by decide)
  have hmro : ∀ x, x = DemoClass.b ∨ x = DemoClass.c →
      (run .object (demoA :: demoBC)).bind (fun env => env.tp_mro x) = some [x, .a, .object] := by
    rintro x (rfl | rfl) <;> decide
  have hnew : (run .object (demoA :: demoBC)).bind (fun env => env.tp_mro .d) = none := by decide
  simp only [henv, Option.bind_some] at hmro hnew ⊢
  have hbases : ∀ x, x ∈ demoD.tpBases .object → x = DemoClass.b ∨ x = DemoClass.c := by
    simp [demoD, ClassStmt.tpBases]
  obtain ⟨env', henv'⟩ := ((exec_isSome_iff henv).2 demoD hnew
    (fun x hx => ⟨_, hmro x (hbases x hx)⟩)).mpr (by
      use [.b, .c, .a, .object], by decide, by decide
      intro x hx l hl
      rw [hmro x (hbases x hx), Option.some.injEq] at hl
      rw [← hl]
      rcases hbases x hx with rfl | rfl <;> decide)
  rw [henv']
  exact Option.some_ne_none env'

theorem callMethod_demo :
  (run .object (demoA :: (demoBC ++ [demoD]))).bind
    (fun env => env.callMethod DemoClass.name .d 4) = some "ACBD"
  := by
  obtain ⟨env, henv⟩ : ∃ env, run .object (demoA :: (demoBC ++ [demoD])) = some env :=
    Option.isSome_iff_exists.mp (by decide)
  have hmro : (run .object (demoA :: (demoBC ++ [demoD]))).bind (fun env => env.tp_mro .d)
      = some [.d, .b, .c, .a, .object] := by decide
  rw [henv, Option.bind_some] at hmro ⊢
  obtain ⟨l, hl, -, -, -, hcall⟩ := callMethod_eq DemoClass.name (by decide) (by decide) henv
    (c := .d) (by simp [hmro]) (by decide)
  obtain rfl : l = [.d, .b, .c, .a] := by
    rw [hmro, Option.some.injEq] at hl
    exact (List.append_cancel_right hl).symm
  rw [hcall 4 (by decide)]
  decide

end Super
