import Mathlib.Data.List.Basic

/-!
# Generators

The protocol of a generator object: its body runs up to the next `yield`, its frame is kept
between two calls, and a call either sends a value to the `yield` that the body waits at,
throws an exception there, or closes the generator.  `run` is what the calls of a history
answer, in their order.

Two generators answer every history alike when their frames are related by a simulation
(`Simulation.run_eq`).  The plainest generator is `listing`, which yields given values and
catches nothing.  A body that delegates to another generator with `yield from` cannot be told
from that generator when the latter lets the request to exit through (`yieldFrom_eq`).
-/

namespace Generator

/-- The exceptions that the protocol itself uses. -/
class Exceptions (E : Type*) where
  /-- what `close` throws into the body -/
  generatorExit : E
  /-- what a body raises that yields when it is closed -/
  ignoredExit : E
  /-- what sending a value to a generator raises that has not started -/
  justStarted : E
  /-- what leaves a generator whose body raises an exception -/
  escaping : E → E
  escaping_generatorExit : escaping generatorExit = generatorExit
  escaping_escaping : ∀ e, escaping (escaping e) = escaping e

open Exceptions

attribute [simp] escaping_generatorExit escaping_escaping

/-- How a body that waits at a `yield` goes on: the `yield` has a value, or it raises. -/
inductive Resumption (S E : Type*) where
  | send (value : Option S)
  | throw (e : E)

/-- How a body that runs stops: it yields and leaves a frame, it returns, or it raises. -/
inductive Outcome (Y E F : Type*) where
  | yields (value : Y) (frame : F)
  | returns
  | raises (e : E)

/-- The body of a generator function, from its start to the first `yield`, and from the
`yield` a frame waits at to the next one. -/
structure Body (S Y E F : Type*) where
  start : Outcome Y E F
  resume : F → Resumption S E → Outcome Y E F

/-- The state of a generator object. -/
inductive State (F : Type*) where
  | created
  | suspended (frame : F)
  | completed

/-- A call of `send`, `throw` or `close`; `next` sends `None`. -/
inductive Call (S E : Type*) where
  | send (value : Option S)
  | throw (e : E)
  | close

/-- The answer to a call. -/
inductive Reply (Y E : Type*) where
  | yields (value : Y)
  | stopIteration
  | raises (e : E)
  | closed
  deriving DecidableEq

section Protocol

variable {S Y E F : Type*} [Exceptions E]

/-- What leaves the generator when its body stops so. -/
def Outcome.escape : Outcome Y E F → Outcome Y E F
  | .yields value frame => .yields value frame
  | .returns => .returns
  | .raises e => .raises (escaping e)

/-- The state that a generator is left in. -/
def Outcome.state : Outcome Y E F → State F
  | .yields _ frame => .suspended frame
  | .returns => .completed
  | .raises _ => .completed

/-- What the caller sees. -/
def Outcome.reply : Outcome Y E F → Reply Y E
  | .yields value _ => .yields value
  | .returns => .stopIteration
  | .raises e => .raises e

/-- The generator goes on up to its next `yield`. -/
def Body.sendEx (g : Body S Y E F) : State F → Resumption S E → Outcome Y E F
  | .created, .send _ => g.start.escape
  | .created, .throw e => .raises (escaping e)
  | .suspended frame, r => (g.resume frame r).escape
  | .completed, .send _ => .returns
  | .completed, .throw e => .raises e

variable [DecidableEq E]

/-- `close`: what it raises, if it does, and the state it leaves. -/
def Body.close (g : Body S Y E F) : State F → Option E × State F
  | .suspended frame =>
      match g.sendEx (.suspended frame) (.throw generatorExit) with
      | .yields _ frame' => (some ignoredExit, .suspended frame')
      | .returns => (none, .completed)
      | .raises e => (if e = generatorExit then none else some e, .completed)
  | _ => (none, .completed)

/-- A call: the answer, and the state it leaves. -/
def Body.call (g : Body S Y E F) : State F → Call S E → Reply Y E × State F
  | .created, .send (some _) => (.raises justStarted, .created)
  | s, .send value =>
      let o := g.sendEx s (.send value)
      (o.reply, o.state)
  | s, .throw e =>
      let o := g.sendEx s (.throw e)
      (o.reply, o.state)
  | s, .close => ((g.close s).1.elim .closed .raises, (g.close s).2)

/-- The answers to the calls of a history. -/
def Body.run (g : Body S Y E F) : State F → List (Call S E) → List (Reply Y E)
  | _, [] => []
  | s, c :: history => (g.call s c).1 :: g.run (g.call s c).2 history

/-- `yield from`: a body that waits in the generator `g` hands on what it is resumed with,
except that it closes `g` when it is asked to exit. -/
def yieldFrom (g : Body S Y E F) (s : State F) : Resumption S E → Outcome Y E F
  | .send value => g.sendEx s (.send value)
  | .throw e =>
      if e = generatorExit then
        .raises ((g.close s).1.getD generatorExit)
      else
        g.sendEx s (.throw e)

end Protocol

/-! ### Simulation -/

section Simulation

variable {S Y E F F' : Type*}

/-- The same outcome, with related frames. -/
inductive Outcome.Rel (R : F → F' → Prop) : Outcome Y E F → Outcome Y E F' → Prop where
  | yields (value : Y) {frame : F} {frame' : F'} (h : R frame frame') :
      Rel R (.yields value frame) (.yields value frame')
  | returns : Rel R .returns .returns
  | raises (e : E) : Rel R (.raises e) (.raises e)

variable {R : F → F' → Prop}

theorem Outcome.Rel.reply_eq {o : Outcome Y E F} {o' : Outcome Y E F'}
    (h : Outcome.Rel R o o') :
  o.reply = o'.reply
  := by
  cases h <;> rfl

variable [Exceptions E]

theorem Outcome.Rel.escape {o : Outcome Y E F} {o' : Outcome Y E F'} (h : Outcome.Rel R o o') :
  Outcome.Rel R o.escape o'.escape
  := by
  cases h with
  | yields value hframe => exact .yields value hframe
  | returns => exact .returns
  | raises e => exact .raises _

/-- Resumed at related frames, the bodies go on with the same outcome, as far as it leaves the
generators. -/
def Simulation (g : Body S Y E F) (g' : Body S Y E F') (R : F → F' → Prop) : Prop :=
  ∀ frame frame', R frame frame' → ∀ r,
    Outcome.Rel R (g.resume frame r).escape (g'.resume frame' r).escape

/-- The same state: not started, with bodies that start alike, or waiting at related frames, or
completed. -/
inductive State.Rel (g : Body S Y E F) (g' : Body S Y E F') (R : F → F' → Prop) :
    State F → State F' → Prop where
  | created (h : Outcome.Rel R g.start.escape g'.start.escape) : Rel g g' R .created .created
  | suspended {frame : F} {frame' : F'} (h : R frame frame') :
      Rel g g' R (.suspended frame) (.suspended frame')
  | completed : Rel g g' R .completed .completed

variable {g : Body S Y E F} {g' : Body S Y E F'}

theorem Outcome.Rel.state {o : Outcome Y E F} {o' : Outcome Y E F'} (h : Outcome.Rel R o o') :
  State.Rel g g' R o.state o'.state
  := by
  cases h with
  | yields _ hframe => exact .suspended hframe
  | returns => exact .completed
  | raises _ => exact .completed

/-- At related states, generators with related bodies go on with the same outcome. -/
theorem Simulation.sendEx (hg : Simulation g g' R) {s : State F} {s' : State F'}
    (hs : State.Rel g g' R s s') (r : Resumption S E) :
  Outcome.Rel R (g.sendEx s r) (g'.sendEx s' r)
  := by
  cases hs with
  | created hstart =>
      cases r with
      | send value => exact hstart
      | throw e => exact .raises _
  | suspended hframe => exact hg _ _ hframe r
  | completed =>
      cases r with
      | send value => exact .returns
      | throw e => exact .raises _

variable [DecidableEq E]

/-- At related states, generators with related bodies close alike. -/
theorem Simulation.close (hg : Simulation g g' R) {s : State F} {s' : State F'}
    (hs : State.Rel g g' R s s') :
  (g.close s).1 = (g'.close s').1 ∧ State.Rel g g' R (g.close s).2 (g'.close s').2
  := by
  cases hs with
  | created _ => exact ⟨rfl, .completed⟩
  | suspended hframe =>
      have hexit := hg.sendEx (.suspended hframe) (.throw generatorExit)
      rw [Body.close, Body.close]
      generalize g.sendEx _ _ = o at hexit ⊢
      generalize g'.sendEx _ _ = o' at hexit ⊢
      cases hexit with
      | yields value hframe' => exact ⟨rfl, .suspended hframe'⟩
      | returns => exact ⟨rfl, .completed⟩
      | raises e => exact ⟨rfl, .completed⟩
  | completed => exact ⟨rfl, .completed⟩

/-- At related states, generators with related bodies answer a call alike and stay
related. -/
theorem Simulation.call (hg : Simulation g g' R) {s : State F} {s' : State F'}
    (hs : State.Rel g g' R s s') (c : Call S E) :
  (g.call s c).1 = (g'.call s' c).1 ∧ State.Rel g g' R (g.call s c).2 (g'.call s' c).2
  := by
  cases c with
  | send value =>
      have hsend := hg.sendEx hs (.send value)
      cases hs with
      | created hstart =>
          cases value with
          | none => exact ⟨hsend.reply_eq, hsend.state⟩
          | some v => exact ⟨rfl, .created hstart⟩
      | suspended hframe => exact ⟨hsend.reply_eq, hsend.state⟩
      | completed => exact ⟨rfl, .completed⟩
  | throw e =>
      have hthrow := hg.sendEx hs (.throw e)
      cases hs <;> exact ⟨hthrow.reply_eq, hthrow.state⟩
  | close =>
      obtain ⟨heq, hrel⟩ := hg.close hs
      rw [Body.call, Body.call, heq]
      exact ⟨rfl, hrel⟩

/-- Generators with related bodies answer every history alike. -/
theorem Simulation.run_eq (hg : Simulation g g' R) {s : State F} {s' : State F'}
    (hs : State.Rel g g' R s s') (history : List (Call S E)) :
  g.run s history = g'.run s' history
  := by
  induction history generalizing s s' with
  | nil => rfl
  | cons c history ih =>
      obtain ⟨heq, hrel⟩ := hg.call hs c
      rw [Body.run, Body.run, heq, ih hrel]

end Simulation

/-! ### Delegation -/

section Delegation

variable {S Y E F : Type*} [Exceptions E] [DecidableEq E]

/-- What is delegated to a generator that lets the request to exit through goes on as the
generator itself does. -/
theorem yieldFrom_eq {g : Body S Y E F} {frame : F}
    (hexit : g.resume frame (.throw generatorExit) = .raises generatorExit)
    (r : Resumption S E) :
  yieldFrom g (.suspended frame) r = g.sendEx (.suspended frame) r
  := by
  cases r with
  | send value => rfl
  | throw e =>
      rw [yieldFrom]
      split_ifs with he
      · simp [he, Body.close, Body.sendEx, hexit, Outcome.escape]
      · rfl

end Delegation

/-! ### Listings -/

section Listing

variable {S Y E : Type*}

/-- Yields the first of the values and keeps the others. -/
def listing.next : List Y → Outcome Y E (List Y)
  | [] => .returns
  | y :: ys => .yields y ys

/-- The body that yields the given values, whatever it is sent, and catches nothing. -/
def listing (ys : List Y) : Body S Y E (List Y) where
  start := listing.next ys
  resume
    | rest, .send _ => listing.next rest
    | _, .throw e => .raises e

variable [Exceptions E] [DecidableEq E]

/-- What a completed generator answers. -/
def completedReply : Call S E → Reply Y E
  | .send _ => .stopIteration
  | .throw e => .raises e
  | .close => .closed

/-- A completed generator does nothing any more. -/
theorem run_completed {F : Type*} (g : Body S Y E F) (history : List (Call S E)) :
  g.run .completed history = history.map completedReply
  := by
  induction history with
  | nil => rfl
  | cons c history ih =>
      cases c <;> exact congrArg _ ih

/-- A listing that waits yields its values to the values sent to it, and then stops. -/
theorem run_listing_suspended (ys rest : List Y) (sent : List (Option S)) :
  (listing (S := S) (E := E) ys).run (.suspended rest) (sent.map .send)
    = (rest.map .yields).take sent.length
      ++ List.replicate (sent.length - rest.length) .stopIteration
  := by
  induction sent generalizing rest with
  | nil => simp [Body.run]
  | cons v sent ih =>
      cases rest with
      | nil =>
          have hstop : (sent.map (Call.send (E := E))).map (completedReply (Y := Y))
              = List.replicate sent.length .stopIteration := by
            rw [List.map_map, List.eq_replicate_iff]
            simp [completedReply]
          simp only [List.map_cons, Body.run, Body.call, Body.sendEx, listing, listing.next,
            Outcome.escape, Outcome.reply, Outcome.state, run_completed, hstop]
          simp [List.replicate_succ]
      | cons y rest =>
          have hstep := ih rest
          simp only [List.map_cons, Body.run, Body.call, Body.sendEx, listing, listing.next,
            Outcome.escape, Outcome.reply, Outcome.state] at hstep ⊢
          rw [hstep]
          simp

/-- A listing yields its values to a first `next` and the values sent after it, and then
stops. -/
theorem run_listing (ys : List Y) (sent : List (Option S)) :
  (listing ys).run .created (.send none :: sent.map (.send (E := E)))
    = (ys.map .yields).take (sent.length + 1)
      ++ List.replicate (sent.length + 1 - ys.length) .stopIteration
  := run_listing_suspended ys ys (none :: sent)

end Listing

end Generator
