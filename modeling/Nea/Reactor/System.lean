import Nea.Index
import Nea.Lib.Machine
import Mathlib.Data.Fintype.Basic
import Mathlib.Logic.Function.Basic

/-!
# The reactor and the streams (`nea/src/reactor.rs`)

The reactor thread waits for events of the sockets and wakes the tasks that wait for them; tasks
call `poll_io` on their streams.  What the kernel does is part of the machine: a direction of a
socket becomes ready or stops to be ready at any time, a change to ready leaves an event, and so
does readiness at registration.

* `Source`          the two wakers and the two flags of a stream;
* `PollPc`          the steps of `poll_io`, all of them under the mutex of the source;
* `ReactorPc`       the steps of `Shared::poll`;
* `State.step`      one step of a thread, of the reactor or of the kernel;
* `State.last`      what the latest `poll_io` of a stream and direction has answered.
-/

namespace Nea
namespace Reactor

inductive Direction where
  | read
  | write
deriving DecidableEq

abbrev Token := UInt64

/-- the place in `sources` that a token stands for -/
def slot (token : Token) : UInt32 := (QueueIndex.fromUsize token).index

theorem slot_toUsize (q : QueueIndex) : slot q.toUsize = q.index := by
  unfold slot
  rw [QueueIndex.fromUsize_toUsize]

/-- what the mutex in `sources` guards (the inner mutex around `interest` is only ever taken by who
holds it) -/
structure Source (K : Type) where
  interest : Direction → Option K
  triggered : Direction → Bool

namespace Source
variable {K : Type} [DecidableEq K]

def new : Source K := ⟨fun _ => none, fun _ => false⟩

/-- the waker is updated if required -/
def updateWaker (σ : Source K) (d : Direction) (w : K) : Source K :=
  match σ.interest d with
  | some existing =>
    -- `existing.will_wake(cx.waker())`
    if existing = w then σ else { σ with interest := Function.update σ.interest d (some w) }
  | none => { σ with interest := Function.update σ.interest d (some w) }

/-- `interest[direction].take()`: what is left -/
def take (σ : Source K) (d : Direction) : Source K :=
  { σ with interest := Function.update σ.interest d none }

def setTriggered (σ : Source K) (d : Direction) (b : Bool) : Source K :=
  { σ with triggered := Function.update σ.triggered d b }

omit [DecidableEq K] in
theorem triggered_setTriggered_of_ne (σ : Source K) {d d' : Direction} (b : Bool) (hne : d' ≠ d) :
    (σ.setTriggered d b).triggered d' = σ.triggered d' := Function.update_of_ne hne ..

theorem triggered_updateWaker (σ : Source K) (d : Direction) (w : K) :
    (σ.updateWaker d w).triggered = σ.triggered := by
  unfold updateWaker
  split
  · split <;> rfl
  · rfl

/-- whether or not the waker was there already -/
theorem interest_updateWaker (σ : Source K) (d : Direction) (w : K) :
    (σ.updateWaker d w).interest = Function.update σ.interest d (some w) := by
  unfold updateWaker
  split
  · next k hk =>
    split
    · next e => rw [← e, ← hk, Function.update_eq_self]
    · rfl
  · rfl

theorem interest_updateWaker_self (σ : Source K) (d : Direction) (w : K) :
    (σ.updateWaker d w).interest d = some w := by
  rw [interest_updateWaker, Function.update_self]

theorem interest_updateWaker_of_ne (σ : Source K) {d d' : Direction} (w : K) (hne : d' ≠ d) :
    (σ.updateWaker d w).interest d' = σ.interest d' := by
  rw [interest_updateWaker, Function.update_of_ne hne]

theorem of_interest_updateWaker {σ : Source K} {d d' : Direction} {w w' : K}
    (h : (σ.updateWaker d w).interest d' = some w') : w' = w ∨ σ.interest d' = some w' := by
  by_cases e : d' = d
  · rw [e, interest_updateWaker_self] at h
    exact .inl (Option.some.inj h).symm
  · rw [interest_updateWaker_of_ne σ w e] at h
    exact .inr h

end Source

/-- the life of a stream -/
inductive Phase where
  | absent
  /-- `register` has put the source in its place -/
  | placed (token : Token)
  /-- registered: there is a `TcpStream` -/
  | live (token : Token)
  /-- `drop` has deregistered the stream -/
  | dropping (token : Token)
deriving DecidableEq

def Phase.token : Phase → Option Token
  | .absent => none
  | .placed token => some token
  | .live token => some token
  | .dropping token => some token

/-- why `poll_io` drops the guard of the source -/
inductive Exit where
  /-- next round of the loop -/
  | again
  | pending
  | ready
deriving DecidableEq

/-- next step of a call of `poll_io` -/
inductive PollPc where
  | lock
  /-- `poll_ready`: first look at `triggered` -/
  | check
  /-- `poll_ready`: the waker is stored -/
  | arm
  /-- `poll_ready`: second look at `triggered` -/
  | recheck
  /-- the closure -/
  | operate
  /-- `clear_trigger` -/
  | clear
  /-- the guard is dropped -/
  | leave (e : Exit)
deriving DecidableEq

structure PollIo (K : Type) where
  token : Token
  direction : Direction
  waker : K
  pc : PollPc

structure Event where
  token : Token
  readable : Bool
  writable : Bool

/-- the directions in the order in which `Shared::poll` looks at them -/
def Event.directions (e : Event) : List Direction :=
  (if e.readable then [.read] else []) ++ (if e.writable then [.write] else [])

/-- an event for this direction of this token -/
def Event.says (e : Event) (token : Token) (d : Direction) : Bool :=
  decide (e.token = token ∧ d ∈ e.directions)

/-- next step of the reactor -/
inductive ReactorPc where
  /-- in `poll.poll` -/
  | polling
  /-- events to be handled -/
  | handling (events : List Event)
  /-- an event in hand, with its source locked: directions to be handled, and whether the waker of
  the first one has been taken; and the events after it -/
  | event (token : Token) (directions : List Direction) (taken : Bool) (rest : List Event)
  /-- `wakers.drain(..)` -/
  | waking

inductive Holder (T : Type) where
  | thread (t : T)
  | reactor
deriving DecidableEq

structure State (T K : Type) where
  sources : UInt32 → Option (Source K)
  /-- who holds the mutex of a source -/
  lock : UInt32 → Option (Holder T)
  phase : UInt32 → Phase
  /-- what the kernel knows: the direction of the socket is ready -/
  ready : Token × Direction → Bool
  /-- an event that the reactor has not fetched -/
  edge : Token × Direction → Bool
  /-- the calls of `poll_io` that have not returned -/
  calls : T → Option (PollIo K)
  reactor : ReactorPc
  wakers : List K
  /-- the latest `poll_io` of a live stream returned `Pending` for this waker; and whether the waker
  has been woken since -/
  last : Token × Direction → Option (K × Bool)

inductive Act (T K : Type) where
  /-- the direction of a socket becomes ready or stops to be ready -/
  | kernel (token : Token) (d : Direction) (ready : Bool)
  /-- `register` up to the registration with the kernel -/
  | place (q : QueueIndex)
  /-- the registration -/
  | register (q : QueueIndex)
  /-- thread `t` calls `poll_io` -/
  | pollIo (t : T) (token : Token) (d : Direction) (w : K)
  /-- the call goes on; `wouldBlock`: what the closure answers -/
  | poll (t : T) (wouldBlock : Bool)
  /-- `drop` up to the deregistration -/
  | deregister (token : Token)
  /-- the end of `drop` -/
  | remove (token : Token)
  /-- `poll.poll` returns -/
  | fetch (events : List Event)
  /-- the reactor goes on -/
  | reactor

namespace State
variable {T K : Type} [DecidableEq T] [DecidableEq K]

def init : State T K where
  sources _ := none
  lock _ := none
  phase _ := .absent
  ready _ := false
  edge _ := false
  calls _ := none
  reactor := .polling
  wakers := []
  last _ := none

def setSource (s : State T K) (i : UInt32) (σ : Source K) : State T K :=
  { s with sources := Function.update s.sources i (some σ) }

def setLock (s : State T K) (i : UInt32) (h : Option (Holder T)) : State T K :=
  { s with lock := Function.update s.lock i h }

def setCall (s : State T K) (t : T) (c : Option (PollIo K)) : State T K :=
  { s with calls := Function.update s.calls t c }

/-- the call of thread `t` goes on at `pc` -/
def goto (s : State T K) (t : T) (c : PollIo K) (pc : PollPc) : State T K :=
  s.setCall t (some { c with pc := pc })

/-- the call of thread `t` returns: `Pending` for a waker or `Ready` -/
def ret (s : State T K) (t : T) (c : PollIo K) (answer : Option (K × Bool)) : State T K :=
  { s.setCall t none with last := Function.update s.last (c.token, c.direction) answer }

/-- next step of a call of `poll_io` -/
def pollStep (s : State T K) (t : T) (c : PollIo K) (wouldBlock : Bool) : Option (State T K) :=
  let i := slot c.token
  match c.pc with
  | .lock =>
    if s.lock i = none then
      match s.sources i with
      | none => some ((s.setLock i (some (.thread t))).goto t c (.leave .pending))
      | some _ => some ((s.setLock i (some (.thread t))).goto t c .check)
    else none
  | .check =>
    (s.sources i).map fun σ => s.goto t c (if σ.triggered c.direction then .operate else .arm)
  | .arm =>
    (s.sources i).map fun σ =>
      (s.setSource i (σ.updateWaker c.direction c.waker)).goto t c .recheck
  | .recheck =>
    (s.sources i).map fun σ =>
      s.goto t c (if σ.triggered c.direction then .operate else .leave .pending)
  | .operate =>
    if wouldBlock then
      -- answered only when the direction is not ready
      if s.ready (c.token, c.direction) then none else some (s.goto t c .clear)
    else some (s.goto t c (.leave .ready))
  | .clear =>
    (s.sources i).map fun σ =>
      (s.setSource i (σ.setTriggered c.direction false)).goto t c (.leave .again)
  | .leave .again => some ((s.setLock i none).goto t c .lock)
  | .leave .pending => some ((s.setLock i none).ret t c (some (c.waker, false)))
  | .leave .ready => some ((s.setLock i none).ret t c none)

/-- `waker.wake()` -/
def wake (s : State T K) (w : K) : State T K :=
  { s with last := fun p => (s.last p).map fun k => (k.1, k.2 || decide (k.1 = w)) }

/-- next step of the reactor -/
def reactorStep (s : State T K) : Option (State T K) :=
  match s.reactor with
  | .polling => none
  | .handling [] => some { s with reactor := .waking }
  | .handling (e :: events) =>
    let i := slot e.token
    if s.lock i = none then
      match s.sources i with
      -- `continue`
      | none => some { s with reactor := .handling events }
      | some _ => some { s.setLock i (some .reactor) with
          reactor := .event e.token e.directions false events }
    else none
  | .event token [] _ events =>
    some { s.setLock (slot token) none with reactor := .handling events }
  | .event token (d :: ds) false events =>
    (s.sources (slot token)).map fun σ =>
      { s.setSource (slot token) (σ.take d) with
        wakers := s.wakers ++ (σ.interest d).toList
        reactor := .event token (d :: ds) true events }
  | .event token (d :: ds) true events =>
    (s.sources (slot token)).map fun σ =>
      { s.setSource (slot token) (σ.setTriggered d true) with
        reactor := .event token ds false events }
  | .waking =>
    match s.wakers with
    | w :: ws => some { s.wake w with wakers := ws }
    -- `events.clear()`
    | [] => some { s with reactor := .polling }

def step [Fintype T] (s : State T K) : Act T K → Option (State T K)
  | .kernel token d ready =>
    some { s with
      ready := Function.update s.ready (token, d) ready
      edge :=
        if ready = true ∧ s.ready (token, d) = false ∧ s.phase (slot token) = .live token then
          Function.update s.edge (token, d) true
        else s.edge }
  | .place q =>
    -- `debug_assert!(old.is_none())`
    if s.lock q.index = none ∧ (s.sources q.index).isNone then
      some { s.setSource q.index .new with
        phase := Function.update s.phase q.index (.placed q.toUsize) }
    else none
  | .register q =>
    if s.phase q.index = .placed q.toUsize then
      some { s with
        phase := Function.update s.phase q.index (.live q.toUsize)
        edge := fun p => if p.1 = q.toUsize then s.ready p else s.edge p }
    else none
  | .pollIo t token d w =>
    if (s.calls t).isNone ∧ s.phase (slot token) = .live token then
      some (s.setCall t (some ⟨token, d, w, .lock⟩))
    else none
  | .poll t wouldBlock => (s.calls t).bind fun c => s.pollStep t c wouldBlock
  | .deregister token =>
    -- `drop` has the stream for itself
    if s.phase (slot token) = .live token ∧ ∀ t, ∀ c ∈ s.calls t, c.token ≠ token then
      some { s with
        phase := Function.update s.phase (slot token) (.dropping token)
        edge := fun p => if p.1 = token then false else s.edge p
        last := fun p => if p.1 = token then none else s.last p }
    else none
  | .remove token =>
    if s.lock (slot token) = none ∧ s.phase (slot token) = .dropping token then
      some { s with
        sources := Function.update s.sources (slot token) none
        phase := Function.update s.phase (slot token) .absent }
    else none
  | .fetch events =>
    match s.reactor with
    | .polling =>
      some { s with
        edge := fun p => s.edge p && !events.any (fun e => e.says p.1 p.2)
        reactor := .handling events }
    | _ => none
  | .reactor => s.reactorStep

end State

def machine {T K : Type} [DecidableEq T] [Fintype T] [DecidableEq K] :
    Machine (State T K) (Act T K) :=
  ⟨State.init, State.step⟩

end Reactor
end Nea
