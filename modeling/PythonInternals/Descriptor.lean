import Mathlib.Data.Int.Notation
import Mathlib.Logic.Function.Basic
import Mathlib.Tactic.SplitIfs
import PythonInternals.Foundation.LatestWrite

/-!
# Validated attributes

The two attributes of `descriptor_demo.py` that take positive numbers only: `Demo.n`, a
data descriptor `PositiveNumber` that keeps its value in the instance dictionary under its
own name, and `Circle.radius`, a property over the attribute `_radius`.  `exec` performs
the operations of the script on any objects of the two classes: their construction,
assignments, and writes to the instance dictionary of a `Demo`.

The value that is read is the one written last by an operation that is not rejected: `n` reads
positive when there is such an operation and it wrote a positive number, `radius` when the
circle was constructed with a positive number or given one since (`read_pos_iff`).
-/

namespace Descriptor

/-- The dictionary `__dict__` of an instance. -/
abbrev Dict : Type := String → Option ℤ

/-- The attributes of an instance of `PositiveNumber`, set by `__set_name__`. -/
structure PositiveNumber where
  name : String

/-- `PositiveNumber.__get__`, on an instance. -/
def PositiveNumber.get (self : PositiveNumber) (obj : Dict) : ℤ := (obj self.name).getD 0

/-- `PositiveNumber.__set__`, with the text of the `ValueError`. -/
def PositiveNumber.set (self : PositiveNumber) (obj : Dict) (value : ℤ) : Except String Dict :=
  if value ≤ 0 then .error (self.name ++ " must be positive")
  else .ok (Function.update obj self.name (some value))

/-- The class attribute `Demo.n`. -/
def Demo.n : PositiveNumber where
  name := "n"

/-- The attributes of an instance of `Circle`. -/
structure Circle where
  _radius : ℤ

/-- `Circle.__init__`. -/
def Circle.init (radius : ℤ) : Circle where
  _radius := radius

/-- The getter of `radius`. -/
def Circle.radius (self : Circle) : ℤ := self._radius

/-- The setter of `radius`, with the text of the `ValueError`. -/
def Circle.setRadius (self : Circle) (value : ℤ) : Except String Circle :=
  if value ≤ 0 then .error "Radius must be positive" else .ok { self with _radius := value }

/-! ### Objects -/

/-- The instances of `Demo` and of `Circle` that have been constructed. -/
structure Objects (ι κ : Type*) where
  demos : ι → Option Dict
  circles : κ → Option Circle

/-- The operations of the script. -/
inductive Op (ι κ : Type*) where
  /-- `x = Demo()` -/
  | newDemo (x : ι)
  /-- `x.n = value` -/
  | assignN (x : ι) (value : ℤ)
  /-- `x.__dict__['n'] = value` -/
  | writeDict (x : ι) (value : ℤ)
  /-- `c = Circle(radius)` -/
  | newCircle (c : κ) (radius : ℤ)
  /-- `c.radius = value` -/
  | assignRadius (c : κ) (value : ℤ)
  deriving DecidableEq

variable {ι κ : Type*} [DecidableEq ι] [DecidableEq κ]

namespace Objects

/-- No object has been constructed. -/
def empty : Objects ι κ where
  demos _ := none
  circles _ := none

def setDemo (s : Objects ι κ) (x : ι) (obj : Dict) : Objects ι κ :=
  { s with demos := Function.update s.demos x (some obj) }

def setCircle (s : Objects ι κ) (c : κ) (circle : Circle) : Objects ι κ :=
  { s with circles := Function.update s.circles c (some circle) }

/-- The objects after an assignment, with the text of its `ValueError`, if it raises one. -/
def assigned {τ : Type*} (s : Objects ι κ) (set : τ → Objects ι κ) :
    Except String τ → Objects ι κ × Option String
  | .ok obj => (set obj, none)
  | .error e => (s, some e)

/-- Perform an operation: a new object has an identity that no object of its class has, and
the other operations are performed on objects that there are. -/
def exec (s : Objects ι κ) : Op ι κ → Option (Objects ι κ × Option String)
  | .newDemo x =>
      if s.demos x = none then some (s.setDemo x (fun _ => none), none) else none
  | .assignN x value => (s.demos x).map (fun obj => s.assigned (s.setDemo x) (Demo.n.set obj value))
  | .writeDict x value =>
      (s.demos x).map (fun obj => (s.setDemo x (Function.update obj "n" (some value)), none))
  | .newCircle c radius =>
      if s.circles c = none then some (s.setCircle c (Circle.init radius), none) else none
  | .assignRadius c value =>
      (s.circles c).map (fun circle => s.assigned (s.setCircle c) (circle.setRadius value))

/-- The objects after a sequence of operations. -/
def run (ops : List (Op ι κ)) : Option (Objects ι κ) :=
  ops.foldlM (fun s op => (s.exec op).map Prod.fst) empty

end Objects

/-! ### What the operations write -/

/-- What an operation writes under the name `n` in the dictionary of `x`. -/
def Op.writesN (x : ι) : Op ι κ → Option ℤ
  | .assignN y value => if y = x ∧ 0 < value then some value else none
  | .writeDict y value => if y = x then some value else none
  | _ => none

/-- What an operation writes to the radius of `c`. -/
def Op.writesRadius (c : κ) : Op ι κ → Option ℤ
  | .newCircle d radius => if d = c then some radius else none
  | .assignRadius d value => if d = c ∧ 0 < value then some value else none
  | _ => none

namespace Objects

/-- What the dictionary of `x` has under the name `n`. -/
def entryN (s : Objects ι κ) (x : ι) : Option ℤ := (s.demos x).bind (fun obj => obj "n")

/-- The radius of `c`. -/
def radiusOf (s : Objects ι κ) (c : κ) : Option ℤ := (s.circles c).map Circle.radius

omit [DecidableEq κ] in
theorem entryN_setDemo (s : Objects ι κ) (y : ι) (obj : Dict) (x : ι) :
  (s.setDemo y obj).entryN x = if y = x then obj "n" else s.entryN x
  := by
  simp only [entryN, setDemo, Function.update_apply, eq_comm (a := x)]
  split_ifs <;> rfl

omit [DecidableEq ι] in
theorem radiusOf_setCircle (s : Objects ι κ) (d : κ) (circle : Circle) (c : κ) :
  (s.setCircle d circle).radiusOf c = if d = c then some circle.radius else s.radiusOf c
  := by
  simp only [radiusOf, setCircle, Function.update_apply, eq_comm (a := c)]
  split_ifs <;> rfl

/-- What performing an operation can do. -/
inductive Step (s : Objects ι κ) : Op ι κ → Objects ι κ → Option String → Prop where
  | newDemo {x : ι} (hnew : s.demos x = none) :
      Step s (.newDemo x) (s.setDemo x (fun _ => none)) none
  | assignN {x : ι} {value : ℤ} {obj : Dict} (hobj : s.demos x = some obj) (hvalue : 0 < value) :
      Step s (.assignN x value) (s.setDemo x (Function.update obj "n" (some value))) none
  | rejectN {x : ι} {value : ℤ} {obj : Dict} (hobj : s.demos x = some obj) (hvalue : value ≤ 0) :
      Step s (.assignN x value) s (some "n must be positive")
  | writeDict {x : ι} {value : ℤ} {obj : Dict} (hobj : s.demos x = some obj) :
      Step s (.writeDict x value) (s.setDemo x (Function.update obj "n" (some value))) none
  | newCircle {c : κ} {radius : ℤ} (hnew : s.circles c = none) :
      Step s (.newCircle c radius) (s.setCircle c (Circle.init radius)) none
  | assignRadius {c : κ} {value : ℤ} {circle : Circle} (hcircle : s.circles c = some circle)
        (hvalue : 0 < value) :
      Step s (.assignRadius c value) (s.setCircle c { circle with _radius := value }) none
  | rejectRadius {c : κ} {value : ℤ} {circle : Circle} (hcircle : s.circles c = some circle)
        (hvalue : value ≤ 0) :
      Step s (.assignRadius c value) s (some "Radius must be positive")

variable {s s' : Objects ι κ} {op : Op ι κ} {e : Option String}

theorem step_of_exec (h : s.exec op = some (s', e)) :
  Step s op s' e
  := by
  cases op with
  | newDemo x =>
      simp only [exec] at h
      split_ifs at h with hnew
      cases h
      apply Step.newDemo hnew
  | assignN x value =>
      obtain ⟨obj, hobj, h⟩ := Option.map_eq_some_iff.mp h
      simp only [PositiveNumber.set] at h
      split_ifs at h with hvalue
      · cases h
        apply Step.rejectN hobj hvalue
      · cases h
        apply Step.assignN hobj (Int.not_le.mp hvalue)
  | writeDict x value =>
      obtain ⟨obj, hobj, h⟩ := Option.map_eq_some_iff.mp h
      cases h
      apply Step.writeDict hobj
  | newCircle c radius =>
      simp only [exec] at h
      split_ifs at h with hnew
      cases h
      apply Step.newCircle hnew
  | assignRadius c value =>
      obtain ⟨circle, hcircle, h⟩ := Option.map_eq_some_iff.mp h
      simp only [Circle.setRadius] at h
      split_ifs at h with hvalue
      · cases h
        apply Step.rejectRadius hcircle hvalue
      · cases h
        apply Step.assignRadius hcircle (Int.not_le.mp hvalue)

/-- The entry for `n` is what the operation writes under that name, if it writes anything. -/
theorem entryN_exec (h : s.exec op = some (s', e)) (x : ι) :
  s'.entryN x = (op.writesN x).or (s.entryN x)
  := by
  cases step_of_exec h with
  | @newDemo y hnew =>
      have hwrites : (Op.newDemo y : Op ι κ).writesN x = none := rfl
      rw [entryN_setDemo, hwrites, Option.none_or]
      split_ifs with hx
      · rw [entryN, ← hx, hnew]
        rfl
      · rfl
  | assignN _ hvalue =>
      simp only [entryN_setDemo, Op.writesN, Function.update_self, hvalue, and_true]
      split_ifs <;> rfl
  | rejectN _ hvalue => simp [Op.writesN, Int.not_lt.mpr hvalue]
  | writeDict _ =>
      rw [entryN_setDemo, Op.writesN, Function.update_self]
      split_ifs <;> rfl
  | newCircle _ => rfl
  | assignRadius _ _ => rfl
  | rejectRadius _ _ => rfl

/-- The radius is what the operation writes to it, if it writes anything. -/
theorem radiusOf_exec (h : s.exec op = some (s', e)) (c : κ) :
  s'.radiusOf c = (op.writesRadius c).or (s.radiusOf c)
  := by
  cases step_of_exec h with
  | newDemo _ => rfl
  | assignN _ _ => rfl
  | rejectN _ _ => rfl
  | writeDict _ => rfl
  | newCircle _ =>
      rw [radiusOf_setCircle, Op.writesRadius]
      split_ifs <;> rfl
  | assignRadius _ hvalue =>
      simp only [radiusOf_setCircle, Op.writesRadius, hvalue, and_true]
      split_ifs <;> rfl
  | rejectRadius _ hvalue => simp [Op.writesRadius, Int.not_lt.mpr hvalue]

/-! ### Runs -/

/-- After a run, the entry for `n` is what was written last. -/
theorem entryN_run {ops : List (Op ι κ)} (hrun : run ops = some s) (x : ι) :
  s.entryN x = LatestWrite.latest (Op.writesN x) ops
  := by
  rw [← Option.or_none (o := LatestWrite.latest (Op.writesN x) ops)]
  apply LatestWrite.read_foldlM_or (fun s : Objects ι κ => s.entryN x) _ hrun
  intro s s' op hstep
  obtain ⟨⟨_, e⟩, hexec, rfl⟩ := Option.map_eq_some_iff.mp hstep
  apply entryN_exec hexec

/-- After a run, the radius of a circle is what was written last. -/
theorem radiusOf_run {ops : List (Op ι κ)} (hrun : run ops = some s) (c : κ) :
  s.radiusOf c = LatestWrite.latest (Op.writesRadius c) ops
  := by
  rw [← Option.or_none (o := LatestWrite.latest (Op.writesRadius c) ops)]
  apply LatestWrite.read_foldlM_or (fun s : Objects ι κ => s.radiusOf c) _ hrun
  intro s s' op hstep
  obtain ⟨⟨_, e⟩, hexec, rfl⟩ := Option.map_eq_some_iff.mp hstep
  apply radiusOf_exec hexec

/-- What is written to the radius of a circle that there is already is positive. -/
theorem writesRadius_pos {c : κ} {r w : ℤ} (h : s.exec op = some (s', e))
    (hcircle : s.radiusOf c = some r) (hw : op.writesRadius c = some w) :
  0 < w
  := by
  cases step_of_exec h with
  | newCircle hnew =>
      simp only [Op.writesRadius] at hw
      split_ifs at hw with hc
      rw [radiusOf, ← hc, hnew] at hcircle
      cases hcircle
  | assignRadius _ hvalue =>
      simp only [Op.writesRadius] at hw
      split_ifs at hw with hc
      rwa [← Option.some.inj hw]
  | rejectRadius _ hvalue =>
      simp [Op.writesRadius, Int.not_lt.mpr hvalue] at hw
  | newDemo _ => cases hw
  | assignN _ _ => cases hw
  | rejectN _ _ => cases hw
  | writeDict _ => cases hw

/-- Once a positive number has been written to the radius of a circle, it stays positive. -/
theorem radiusOf_pos_of_writes {ops : List (Op ι κ)} (hrun : run ops = some s) {c : κ}
    (hwrites : ∃ op ∈ ops, ∃ v, op.writesRadius c = some v ∧ 0 < v) :
  ∃ r, s.radiusOf c = some r ∧ 0 < r
  := by
  induction ops using List.reverseRecOn generalizing s with
  | nil => simp at hwrites
  | append_singleton ops last ih =>
      obtain ⟨s₁, hbefore, hlast⟩ := LatestWrite.exists_last_step hrun
      obtain ⟨⟨_, e⟩, hexec, rfl⟩ := Option.map_eq_some_iff.mp hlast
      rw [radiusOf_exec hexec]
      obtain ⟨op, hop, v, hv, hpos⟩ := hwrites
      rcases List.mem_append.mp hop with hop | hop
      · obtain ⟨r, hr, hrpos⟩ := ih hbefore ⟨op, hop, v, hv, hpos⟩
        cases hw : last.writesRadius c with
        | none =>
            use r
            exact ⟨hr, hrpos⟩
        | some w =>
            use w
            exact ⟨rfl, writesRadius_pos hexec hr hw⟩
      · rw [← List.mem_singleton.mp hop, hv]
        use v
        exact ⟨rfl, hpos⟩

omit [DecidableEq ι] in
/-- A positive number is written to a radius by a construction or by an assignment. -/
theorem writesRadius_pos_iff {ops : List (Op ι κ)} {c : κ} :
  (∃ op ∈ ops, ∃ v, op.writesRadius c = some v ∧ 0 < v)
    ↔ (∃ r, .newCircle c r ∈ ops ∧ 0 < r) ∨ ∃ v, .assignRadius c v ∈ ops ∧ 0 < v
  := by
  constructor
  · rintro ⟨op, hop, v, hv, hpos⟩
    cases op with
    | newCircle d radius =>
        simp only [Op.writesRadius] at hv
        split_ifs at hv with hd
        left
        use v
        rw [← hd, ← Option.some.inj hv]
        exact ⟨hop, (Option.some.inj hv) ▸ hpos⟩
    | assignRadius d value =>
        simp only [Op.writesRadius] at hv
        split_ifs at hv with hd
        right
        use v
        rw [← hd.1, ← Option.some.inj hv]
        exact ⟨hop, hd.2⟩
    | newDemo y => cases hv
    | assignN y value => cases hv
    | writeDict y value => cases hv
  · rintro (⟨r, hr, hpos⟩ | ⟨v, hv, hpos⟩)
    · use .newCircle c r, hr, r
      exact ⟨by simp [Op.writesRadius], hpos⟩
    · use .assignRadius c v, hv, v
      exact ⟨by simp [Op.writesRadius, hpos], hpos⟩

end Objects

open Objects

/-- In the state that any run of the operations reaches, `x.n` reads positive exactly when
something was written under its name and what was written last is positive, and `c.radius`
exactly when the circle was constructed with a positive number or one was assigned since. -/
theorem read_pos_iff {ops : List (Op ι κ)} {s : Objects ι κ} (hrun : run ops = some s) :
  (∀ x obj, s.demos x = some obj →
      (0 < Demo.n.get obj ↔ ∃ v, LatestWrite.latest (Op.writesN x) ops = some v ∧ 0 < v)) ∧
    ∀ c circle, s.circles c = some circle →
      (0 < circle.radius
        ↔ (∃ r, .newCircle c r ∈ ops ∧ 0 < r) ∨ ∃ v, .assignRadius c v ∈ ops ∧ 0 < v)
  := by
  constructor
  · intro x obj hobj
    have hentry : obj "n" = LatestWrite.latest (Op.writesN x) ops := by
      rw [← entryN_run hrun x, entryN, hobj]
      rfl
    rw [PositiveNumber.get, Demo.n, hentry]
    cases LatestWrite.latest (Op.writesN x) ops with
    | none => simp
    | some v => simp
  · intro c circle hcircle
    have hradius : s.radiusOf c = some circle.radius := by
      rw [radiusOf, hcircle]
      rfl
    rw [← writesRadius_pos_iff]
    constructor
    · intro hpos
      rw [radiusOf_run hrun c] at hradius
      obtain ⟨op, hop, hv⟩ := LatestWrite.exists_write_of_latest hradius
      use op, hop, circle.radius, hv
    · intro hwrites
      obtain ⟨r, hr, hpos⟩ := radiusOf_pos_of_writes hrun hwrites
      rw [hradius] at hr
      rwa [Option.some.inj hr]

/-- The operations of `main`. -/
def mainOps : List (Op ℕ ℕ) :=
  [.newDemo 0, .writeDict 0 (-999), .newCircle 0 5, .assignRadius 0 10, .assignRadius 0 (-1)]

theorem mainOps_read :
  ∃ s : Objects ℕ ℕ, run mainOps = some s ∧
    ∀ circle, s.circles 0 = some circle → 0 < circle.radius
  := by
  obtain ⟨s, hrun⟩ := Option.isSome_iff_exists.mp (show (run mainOps).isSome = true by rfl)
  use s, hrun
  intro circle hcircle
  apply ((read_pos_iff hrun).2 0 circle hcircle).mpr
  left
  use 5
  decide

/-- A new `Demo` reads 0, one whose dictionary was written reads what was written there, and
a circle reads the number that it was constructed with. -/
theorem read_not_positive :
  ((run ([.newDemo 0] : List (Op ℕ ℕ))).bind (fun s => s.demos 0)).map Demo.n.get = some 0 ∧
    ((run ([.newDemo 0, .assignN 0 7, .writeDict 0 (-999)] : List (Op ℕ ℕ))).bind
      (fun s => s.demos 0)).map Demo.n.get = some (-999) ∧
    ((run ([.newCircle 0 (-5)] : List (Op ℕ ℕ))).bind
      (fun s => s.circles 0)).map Circle.radius = some (-5)
  := by
  decide

end Descriptor
