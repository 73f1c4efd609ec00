import Mathlib.Data.Int.Notation
import PythonInternals.Foundation.Generator

/-!
# Iterators and generators

The generator functions of `iterator_generator_demo.py`, and the sequence iterator of
`iter_iternext`.

Whatever is sent to them, thrown at them, or closed, in whatever order: `gen_func(n)` cannot
be told from a listing of the numbers below `n` (`genFunc_run`), and `main_gen`, which
delegates to `sub_gen`, from a listing of all five strings (`mainGen_run`).  What `echo` and
`catch_exception` answer depends on what they are sent (`echo_run`, `catchException_run`).

A sequence iterator reads its list as it stands at each call, and once it has found the end
it answers nothing any more, even if the list grows (`iterIternext_run`).
-/

namespace Iterators

open Generator

/-- The exceptions of the demo, with their messages. -/
inductive Exn where
  | stopIteration
  | generatorExit
  | typeError (message : String)
  | runtimeError (message : String)
  | valueError (message : String)
  | other (name : String)
  deriving DecidableEq

instance : Exceptions Exn where
  generatorExit := .generatorExit
  ignoredExit := .runtimeError "generator ignored GeneratorExit"
  justStarted := .typeError "can't send non-None value to a just-started generator"
  escaping
    | .stopIteration => .runtimeError "generator raised StopIteration"
    | e => e
  escaping_generatorExit := rfl
  escaping_escaping := by rintro (_ | _ | _ | _ | _ | _) <;> rfl

/-! ### A counting generator -/

section Counting

variable {S E : Type*}

/-- The test of the loop of `gen_func(n)`, and `yield i`. -/
def genFunc.loop (n i : ℤ) : Outcome ℤ E ℤ :=
  if i < n then .yields i i else .returns

/-- `gen_func(n)`; its frame keeps `i`. -/
def genFunc (n : ℤ) : Body S ℤ E ℤ where
  start := genFunc.loop n 0
  resume
    | i, .send _ => genFunc.loop n (i + 1)
    | _, .throw e => .raises e

/-- The integers from `i` to `n - 1`. -/
def upTo (n i : ℤ) : List ℤ := (List.range (n - i).toNat).map (fun k : ℕ => i + (k : ℤ))

theorem length_upTo (n i : ℤ) :
  (upTo n i).length = (n - i).toNat
  := by
  rw [upTo, List.length_map, List.length_range]

theorem upTo_of_lt {n i : ℤ} (h : i < n) :
  upTo n i = i :: upTo n (i + 1)
  := by
  have hcount : (n - i).toNat = (n - (i + 1)).toNat + 1 := by omega
  rw [upTo, hcount, List.range_succ_eq_map, List.map_cons, List.map_map, upTo]
  congr 1
  · omega
  · apply List.map_congr_left
    intro k _
    simp only [Function.comp_apply, Nat.succ_eq_add_one]
    omega

theorem upTo_of_le {n i : ℤ} (h : n ≤ i) :
  upTo n i = []
  := by
  have hcount : (n - i).toNat = 0 := by omega
  rw [upTo, hcount]
  rfl

/-- The loop of `gen_func(n)` yields the first of the integers that are left. -/
theorem genFunc_loop (n i : ℤ) :
  Outcome.Rel (fun j rest => rest = upTo n (j + 1))
    (genFunc.loop (E := E) n i) (listing.next (upTo n i))
  := by
  rw [genFunc.loop]
  split_ifs with h
  · rw [upTo_of_lt h]
    exact .yields i rfl
  · rw [upTo_of_le (by omega)]
    exact .returns

theorem genFunc_simulation [Exceptions E] (n : ℤ) :
  Simulation (genFunc (S := S) (E := E) n) (listing (upTo n 0))
    (fun j rest => rest = upTo n (j + 1))
  := by
  rintro j _ rfl r
  cases r with
  | send value => apply (genFunc_loop n (j + 1)).escape
  | throw e => exact .raises _

end Counting

/-- `gen_func(n)` answers every history of calls as a generator does that yields the integers
from 0 to `n - 1`; so it answers the calls of `next` and `send` that follow a first `next` with
these integers, then with `StopIteration`. -/
theorem genFunc_run (n : ℤ) :
  (∀ history : List (Call ℤ Exn),
    (genFunc n).run .created history = (listing (upTo n 0)).run .created history) ∧
  ∀ sent : List (Option ℤ),
    (genFunc n).run .created (.send none :: sent.map (.send (E := Exn)))
      = ((upTo n 0).map .yields).take (sent.length + 1)
        ++ List.replicate (sent.length + 1 - n.toNat) .stopIteration
  := by
  have hrun : ∀ history : List (Call ℤ Exn),
      (genFunc n).run .created history = (listing (upTo n 0)).run .created history :=
    fun history => (genFunc_simulation n).run_eq (.created (genFunc_loop n 0).escape) history
  use hrun
  intro sent
  have hlisting := run_listing (S := ℤ) (E := Exn) (upTo n 0) sent
  rw [length_upTo, Int.sub_zero] at hlisting
  rw [hrun, hlisting]

example :
  (genFunc 3).run .created
      [.send none, .send (some 7), .send none, .send none, .throw (Exn.other "KeyError"), .close]
    = [.yields 0, .yields 1, .yields 2, .stopIteration, .raises (.other "KeyError"), .closed]
  := by decide

/-! ### Delegation -/

section Delegating

variable {S E : Type*}

/-- Where `sub_gen` waits: at its first, second or third `yield`. -/
inductive SubGen where
  | a
  | b
  | c

/-- `sub_gen()`. -/
def subGen : Body S String E SubGen where
  start := .yields "A" .a
  resume
    | _, .throw e => .raises e
    | .a, .send _ => .yields "B" .b
    | .b, .send _ => .yields "C" .c
    | .c, .send _ => .returns

/-- Where `main_gen` waits: at its first `yield`, in the generator that it delegates to, or at
its last `yield`. -/
inductive MainGen where
  | start
  | sub (frame : SubGen)
  | last

variable [Exceptions E] [DecidableEq E]

/-- The statement `yield from sub_gen()`, and the `yield` behind it. -/
def mainGen.delegate (s : State SubGen) (r : Resumption S E) : Outcome String E MainGen :=
  match yieldFrom subGen s r with
  | .yields value frame => .yields value (.sub frame)
  | .returns => .yields "END" .last
  | .raises e => .raises e

/-- `main_gen()`. -/
def mainGen : Body S String E MainGen where
  start := .yields "START" .start
  resume
    | .start, .send _ => mainGen.delegate (S := S) .created (.send none)
    | .start, .throw e => .raises e
    | .sub frame, r => mainGen.delegate (.suspended frame) r
    | .last, .send _ => .returns
    | .last, .throw e => .raises e

/-- What `sub_gen` has still to yield. -/
def SubGen.rest : SubGen → List String
  | .a => ["B", "C"]
  | .b => ["C"]
  | .c => []

/-- What `main_gen` has still to yield. -/
def MainGen.rest : MainGen → List String
  | .start => ["A", "B", "C", "END"]
  | .sub frame => frame.rest ++ ["END"]
  | .last => []

/-- An exception thrown into `main_gen` while it delegates goes through `sub_gen`, and leaves
both. -/
theorem mainGen_delegate_throw (frame : SubGen) (e : E) :
  (mainGen.delegate (S := S) (.suspended frame) (.throw e)).escape
    = (Outcome.raises (F := MainGen) e).escape
  := by
  have hthrow : ∀ e' : E, (subGen (S := S)).resume frame (.throw e') = Outcome.raises e' := by
    intro e'
    cases frame <;> rfl
  rw [mainGen.delegate, yieldFrom_eq (hthrow _)]
  simp [Body.sendEx, hthrow, Outcome.escape]

theorem mainGen_simulation :
  Simulation (mainGen (S := S) (E := E)) (listing ["START", "A", "B", "C", "END"])
    (fun frame rest => rest = frame.rest)
  := by
  rintro frame _ rfl r
  cases r with
  | send value =>
      cases frame with
      | start => exact .yields "A" rfl
      | sub frame =>
          cases frame with
          | a => exact .yields "B" rfl
          | b => exact .yields "C" rfl
          | c => exact .yields "END" rfl
      | last => exact .returns
  | throw e =>
      cases frame with
      | start => exact .raises _
      | sub frame =>
          rw [mainGen, mainGen_delegate_throw]
          exact .raises _
      | last => exact .raises _

end Delegating

/-- `main_gen`, which delegates to `sub_gen`, answers every history of calls as a generator
does that yields all five strings itself; so it answers the calls of `next` and `send` that
follow a first `next` with these strings, then with `StopIteration`. -/
theorem mainGen_run :
  (∀ history : List (Call String Exn),
    mainGen.run .created history
      = (listing ["START", "A", "B", "C", "END"]).run .created history) ∧
  ∀ sent : List (Option String),
    mainGen.run .created (.send none :: sent.map (.send (E := Exn)))
      = (["START", "A", "B", "C", "END"].map .yields).take (sent.length + 1)
        ++ List.replicate (sent.length - 4) .stopIteration
  := by
  have hrun : ∀ history : List (Call String Exn),
      mainGen.run .created history
        = (listing ["START", "A", "B", "C", "END"]).run .created history :=
    fun history => mainGen_simulation.run_eq (.created (.yields "START" rfl)) history
  use hrun
  intro sent
  rw [hrun, run_listing]
  simp

/-! ### Generators that are sent values -/

section Sending

variable {S : Type*}

/-- `echo()`; its frame keeps `received`. -/
def echo : Body ℤ ℤ Exn ℤ where
  start := .yields 0 0
  resume
    | _, .send value =>
        let received := value.getD 0
        .yields received received
    | _, .throw e => .raises e

/-- Where `catch_exception` waits: in the `try`, in the `except`, or at its last `yield`. -/
inductive CatchException where
  | running
  | caught
  | last

/-- `catch_exception()`. -/
def catchException : Body S String Exn CatchException where
  start := .yields "正常运行" .running
  resume
    | .running, .throw (.valueError message) =>
        .yields ("捕获到 ValueError: " ++ message) .caught
    | .running, .send _ => .yields "继续执行" .last
    | .caught, .send _ => .yields "继续执行" .last
    | .last, .send _ => .returns
    | _, .throw e => .raises e

/-- Waiting in `echo`, every sent value is answered with itself. -/
theorem run_echo_suspended (received : ℤ) (sent : List (Option ℤ)) (history : List (Call ℤ Exn)) :
  ∃ received', echo.run (.suspended received) (sent.map .send ++ history)
    = sent.map (fun value => .yields (value.getD 0))
      ++ echo.run (.suspended received') history
  := by
  induction sent generalizing received with
  | nil => use received; rfl
  | cons value sent ih =>
      obtain ⟨received', hrun⟩ := ih (value.getD 0)
      use received'
      rw [List.map_cons, List.map_cons, List.cons_append, List.cons_append, ← hrun]
      rfl

end Sending

/-- `echo` answers a first `next` with 0, then whatever it is sent with itself, and `None`
with 0; nothing but an exception or `close` ends it, and then it answers nothing any more. -/
theorem echo_run (sent : List (Option ℤ)) :
  echo.run .created (.send none :: sent.map .send)
      = .yields 0 :: sent.map (fun value => .yields (value.getD 0)) ∧
  (∀ e history, echo.run .created (.send none :: (sent.map .send ++ .throw e :: history))
      = .yields 0 :: (sent.map (fun value => .yields (value.getD 0))
        ++ .raises (Exceptions.escaping e) :: history.map completedReply)) ∧
  ∀ history, echo.run .created (.send none :: (sent.map .send ++ .close :: history))
      = .yields 0 :: (sent.map (fun value => .yields (value.getD 0))
        ++ .closed :: history.map completedReply)
  := by
  have hrun : ∀ history, ∃ received, echo.run .created (.send none :: (sent.map .send ++ history))
      = .yields 0 :: (sent.map (fun value => .yields (value.getD 0))
        ++ echo.run (.suspended received) history) := by
    intro history
    obtain ⟨received, hsent⟩ := run_echo_suspended 0 sent history
    use received
    rw [← hsent]
    rfl
  and_intros
  · obtain ⟨_, hsent⟩ := hrun []
    simpa [Body.run] using hsent
  · intro e history
    obtain ⟨_, hsent⟩ := hrun (.throw e :: history)
    rw [hsent, ← run_completed echo]
    rfl
  · intro history
    obtain ⟨_, hsent⟩ := hrun (.close :: history)
    rw [hsent, ← run_completed echo]
    rfl

/-- Behind its first `yield`, `catch_exception` goes on as a listing of what is left. -/
theorem catchException_simulation {S : Type*} (ys : List String) :
  Simulation (catchException (S := S)) (listing ys)
    (fun frame rest => (frame = .caught ∧ rest = ["继续执行"]) ∨ (frame = .last ∧ rest = []))
  := by
  rintro frame rest (⟨rfl, rfl⟩ | ⟨rfl, rfl⟩) r
  · cases r with
    | send value => exact .yields "继续执行" (Or.inr ⟨rfl, rfl⟩)
    | throw e => exact .raises _
  · cases r with
    | send value => exact .returns
    | throw e => exact .raises _

/-- Once it has started, `catch_exception` answers as a listing of two strings, but when it is
thrown a `ValueError` at its first `yield`: then it answers as if it had been sent `None`
instead, as a listing with the message of the exception between the two. -/
theorem catchException_run (history : List (Call String Exn)) :
  (∀ message, catchException.run .created (.send none :: .throw (.valueError message) :: history)
    = (listing ["正常运行", "捕获到 ValueError: " ++ message, "继续执行"]).run .created
        (.send none :: .send none :: history)) ∧
  ∀ c, (∀ message, c ≠ .throw (.valueError message)) →
    catchException.run .created (.send none :: c :: history)
      = (listing ["正常运行", "继续执行"]).run .created (.send none :: c :: history)
  := by
  constructor
  · intro message
    have hcaught := (catchException_simulation
      ["正常运行", "捕获到 ValueError: " ++ message, "继续执行"]).run_eq
      (.suspended (Or.inl ⟨rfl, rfl⟩)) history
    apply congrArg (fun replies => _ :: _ :: replies) hcaught
  · intro c hc
    cases c with
    | send value =>
        have hlast := (catchException_simulation ["正常运行", "继续执行"]).run_eq
          (.suspended (Or.inr ⟨rfl, rfl⟩)) history
        apply congrArg (fun replies => _ :: _ :: replies) hlast
    | throw e =>
        have hdone := (catchException_simulation ["正常运行", "继续执行"]).run_eq
          .completed history
        cases e with
        | valueError message => exact absurd rfl (hc message)
        | _ => apply congrArg (fun replies => _ :: _ :: replies) hdone
    | close =>
        have hdone := (catchException_simulation ["正常运行", "继续执行"]).run_eq
          .completed history
        apply congrArg (fun replies => _ :: _ :: replies) hdone

theorem catchException_next :
  catchException.run .created
      ([.send none, .send none, .throw (.valueError "test")] : List (Call String Exn))
    = [.yields "正常运行", .yields "继续执行", .raises (.valueError "test")]
  := by
  rw [(catchException_run [.throw (.valueError "test")]).2 (.send none) (by simp)]
  decide

/-! ### Sequence iterators -/

/-- A `seqiterobject`: its position, and the address of its sequence, which is null once the
iterator is exhausted. -/
structure SeqIter (Addr : Type*) where
  it_index : ℤ
  it_seq : Option Addr

/-- `PySequence_GetItem(seq, i)` of a list, which is `NULL` when the index is out of range. -/
def sequenceGetItem {α : Type*} (seq : List α) (i : ℤ) : Option α :=
  let i := if i < 0 then i + seq.length else i
  if i < 0 then none else seq[i.toNat]?

section SeqIter

variable {Addr α : Type*}

/-- `iter_iternext(iterator)`, where the lists of the program are as given. -/
def iterIternext (lists : Addr → List α) (it : SeqIter Addr) : Option α × SeqIter Addr :=
  match it.it_seq with
  | none => (none, it)
  | some seq =>
      match sequenceGetItem (lists seq) it.it_index with
      | some result => (some result, { it with it_index := it.it_index + 1 })
      | none => (none, { it_index := -1, it_seq := none })

/-- The calls of an iterator, with the lists of the program as they are at each call. -/
def iterate : SeqIter Addr → List (Addr → List α) → List (Option α) × SeqIter Addr
  | it, [] => ([], it)
  | it, lists :: later =>
      let (result, it) := iterIternext lists it
      let (results, it) := iterate it later
      (result :: results, it)

/-- An exhausted iterator stays exhausted. -/
theorem iterate_exhausted (it : SeqIter Addr) (hit : it.it_seq = none)
    (calls : List (Addr → List α)) :
  iterate it calls = (List.replicate calls.length none, it)
  := by
  induction calls with
  | nil => rfl
  | cons lists later ih =>
      simp only [iterate, iterIternext, hit, ih]
      rfl

/-- A position in range is read as it is. -/
theorem sequenceGetItem_natCast (seq : List α) (i : ℕ) :
  sequenceGetItem seq i = seq[i]?
  := by
  have hi : ¬ ((i : ℤ) < 0) := by omega
  simp [sequenceGetItem, hi]

/-- A call at position `i` answers the element of the list there, and moves on, or it finds no
element there. -/
theorem iterIternext_eq (lists : Addr → List α) (seq : Addr) (i : ℕ) :
  iterIternext lists { it_index := i, it_seq := some seq }
    = match (lists seq)[i]? with
      | some result => (some result, { it_index := (i + 1 : ℕ), it_seq := some seq })
      | none => (none, { it_index := -1, it_seq := none })
  := by
  rw [iterIternext]
  simp only [sequenceGetItem_natCast]
  cases (lists seq)[i]? <;> rfl

/-- What the calls of an iterator answer from position `i` on, and the state they leave. -/
theorem iterate_from (seq : Addr) (i : ℕ) (calls : List (Addr → List α)) :
  ∃ answered : List α,
    iterate { it_index := i, it_seq := some seq } calls
        = (answered.map some ++ List.replicate (calls.length - answered.length) none,
          if answered.length = calls.length then
            { it_index := (i + answered.length : ℕ), it_seq := some seq }
          else { it_index := -1, it_seq := none }) ∧
      answered.length ≤ calls.length ∧
      (∀ j x, answered[j]? = some x → ∃ lists, calls[j]? = some lists ∧
        (lists seq)[i + j]? = some x) ∧
      ∀ lists, calls[answered.length]? = some lists → (lists seq).length ≤ i + answered.length
  := by
  induction calls generalizing i with
  | nil => use []; simp [iterate]
  | cons lists later ih =>
      rw [iterate, iterIternext_eq]
      cases hx : (lists seq)[i]? with
      | none =>
          use []
          simp only [iterate_exhausted { it_index := -1, it_seq := (none : Option Addr) } rfl]
          simpa [List.replicate_succ] using hx
      | some x =>
          obtain ⟨answered, hrun, hlength, hread, hshort⟩ := ih (i + 1)
          use x :: answered
          simp only [hrun]
          and_intros
          · simp only [List.map_cons, List.length_cons, List.cons_append, Nat.add_right_cancel_iff,
              Nat.add_sub_add_right, Nat.add_assoc, Nat.add_comm 1]
          · simpa using hlength
          · intro j y hy
            cases j with
            | zero => exact ⟨lists, rfl, by simpa [hx] using hy⟩
            | succ j =>
                obtain ⟨lists', hlists', hy'⟩ := hread j y hy
                use lists', hlists'
                rwa [← Nat.add_assoc, Nat.add_right_comm]
          · intro lists' hlists'
            have hle := hshort lists' hlists'
            rw [List.length_cons]
            omega

end SeqIter

/-- Whatever happens to the list of an iterator between the calls, the first calls are answered,
call `j` with element `j` of the list as it then is; the next call finds the list too short, and
this call and all the later ones are answered with nothing, however long the list becomes.  The
index is the number of answered calls, and -1 after the end. -/
theorem iterIternext_run {Addr α : Type*} (seq : Addr) (calls : List (Addr → List α)) :
  ∃ answered : List α,
    iterate { it_index := 0, it_seq := some seq } calls
        = (answered.map some ++ List.replicate (calls.length - answered.length) none,
          if answered.length = calls.length then
            { it_index := answered.length, it_seq := some seq }
          else { it_index := -1, it_seq := none }) ∧
      answered.length ≤ calls.length ∧
      (∀ (j : ℕ) x, answered[j]? = some x → ∃ lists, calls[j]? = some lists ∧
        (lists seq)[j]? = some x) ∧
      ∀ lists, calls[answered.length]? = some lists → (lists seq).length ≤ answered.length
  := by
  have hrun := iterate_from seq 0 calls
  simp only [Nat.zero_add] at hrun
  exact hrun

end Iterators
