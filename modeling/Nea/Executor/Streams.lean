import Nea.Executor.Refcount
import Nea.Executor.Routing
import Nea.Reactor.System

/-!
# The streams of the tasks (`register`, `Drop for TcpStream`)

The executor together with the places of the reactor's `sources`.  A main future registers the
client that was accepted for it, once; a handshake registers its connection right after it has
reserved a slot, and the stream goes over to the connection when the slot is populated.  What a
source holds besides is in `Nea.Reactor.System`.

* `Stream`, `Owner`   a `TcpStream`, and the future that it is part of;
* `RegisterPc`        where a worker is inside `register`;
* `Server.step`       the executor goes on, or a stream is registered, dropped or polled.
-/

set_option linter.unusedSectionVars false

namespace Nea

/-- the future that a stream is part of -/
inductive Owner where
  /-- the main future of bucket `b`: the client -/
  | main (b : ℕ)
  /-- the main future of bucket `b`, in the handshake that has reserved slot `i` -/
  | handshake (b i : ℕ)
  /-- the connection in slot `i` -/
  | conn (b i : ℕ)
deriving DecidableEq

namespace Owner

def bucket : Owner → ℕ
  | main b => b
  | handshake b _ => b
  | conn b _ => b

/-- the connection slot -/
def slot : Owner → Option ℕ
  | main _ => none
  | handshake _ i => some i
  | conn _ i => some i

/-- the task whose queue index the stream is registered under -/
def task (r : IoResources) : Owner → Task
  | main b => .main b
  | handshake b i => .connection (r.httpStart b + i)
  | conn b i => .connection (r.httpStart b + i)

end Owner

structure Stream where
  /-- which call of `register` has returned it -/
  id : ℕ
  token : Reactor.Token
  owner : Owner
deriving DecidableEq

/-- the connection of slot `i` is complete and takes over the stream of its handshake -/
def Stream.hand (b i : ℕ) (x : Stream) : Stream :=
  if x.owner = .handshake b i then { x with owner := .conn b i } else x

/-- the place of a stream in `sources` -/
def Stream.place (x : Stream) : UInt32 := Reactor.slot x.token

/-- where a worker is inside `register` -/
inductive RegisterPc where
  /-- `replace` is next -/
  | start (owner : Owner)
  /-- the source is in place; the registration with mio is next -/
  | placed (owner : Owner) (token : Reactor.Token) (id : ℕ)
deriving DecidableEq

def RegisterPc.owner : RegisterPc → Owner
  | .start o => o
  | .placed o _ _ => o

/-- what can happen while `register` runs: the log allocates, or the call is left -/
def TaskAct.inRegister : TaskAct → Bool
  | .alloc _ => true
  | .panic => true
  | .oom => true
  | _ => false

/-- the call of `register` after a step of a worker; a handshake that has reserved a slot calls it
next -/
def registering (t t' : TaskPc) (c : Option RegisterPc) : Option RegisterPc :=
  match t, t' with
  | .main b (.search i _), .main _ .polling => some (.start (.handshake b i))
  | .main _ .polling, .main _ .polling => c
  | _, _ => none

/-- the streams after a step of a worker -/
def populated (t t' : TaskPc) (l : List Stream) : List Stream :=
  match t, t' with
  | .main b .polling, .main _ (.enqueue i) => l.map (Stream.hand b i)
  | _, _ => l

structure Server (W T : Type) where
  exec : State W T
  /-- a source is known by the call of `register` that has made it -/
  sources : UInt32 → Mutex (Option ℕ)
  /-- the streams that have been returned by `register` and not been dropped -/
  streams : List Stream
  register : W → Option RegisterPc
  /-- the main future has called `register` for its client -/
  opened : ℕ → Bool
  /-- `CONNECTION_IDENTIFIER` -/
  identifier : UInt32
  /-- the number of calls of `register` that have put a source in its place -/
  calls : ℕ
  /-- the assertion of `drop` has failed -/
  dropFailed : Bool
  /-- `poll_io` has returned `Pending` without a waker being stored -/
  unheard : Bool

inductive ServerAct (W T : Type) where
  | exec (a : Act W T)
  /-- the polled main future calls `register` for its client -/
  | client (w : W)
  /-- worker `w` goes on in `register`; `fails`: what is called there panics -/
  | register (w : W) (fails : Bool)
  | drop (x : Stream)
  | pollIo (x : Stream)
  /-- a thread panics that holds the lock of a source -/
  | poison (i : UInt32)

namespace Server
variable {W T : Type} [DecidableEq W] [DecidableEq T] [Fintype W]

def init (cfg : Cfg) : Server W T where
  exec := State.init cfg
  sources _ := { val := none }
  streams := []
  register _ := none
  opened _ := false
  identifier := 0
  calls := 0
  dropFailed := false
  unheard := false

/-- the streams follow a step of the executor to `e` -/
def follow (s : Server W T) (e : State W T) : Act W T → Server W T
  | .accept _ =>
    { s with
      exec := e
      opened :=
        match s.exec.accept with
        | .replacing _ b => Function.update s.opened b false
        | _ => s.opened }
  | .task w _ =>
    { s with
      exec := e
      register := Function.update s.register w
        (registering (s.exec.task w) (e.task w) (s.register w))
      streams := populated (s.exec.task w) (e.task w) s.streams }
  | _ => { s with exec := e }

/-- a worker inside `register` does nothing else -/
def busy (s : Server W T) : Act W T → Bool
  | .task w a => (s.register w).isSome && !a.inRegister
  | _ => false

def execStep (cfg : Cfg) (s : Server W T) (a : Act W T) : Option (Server W T) :=
  if s.busy a then none else (s.exec.step cfg a).map (fun e => s.follow e a)

/-- `replace` -/
def put (s : Server W T) (i : UInt32) : Server W T :=
  { s with
    sources := Function.update s.sources i ((s.sources i).set (some s.calls))
    calls := s.calls + 1 }

def setRegister (s : Server W T) (w : W) (c : Option RegisterPc) : Server W T :=
  { s with register := Function.update s.register w c }

/-- `CONNECTION_IDENTIFIER.fetch_add` -/
def nextIdentifier (s : Server W T) : Owner → Server W T
  | .main _ => s
  | _ => { s with identifier := s.identifier + 1 }

/-- the identifier in the queue index -/
def identifierOf (s : Server W T) : Owner → UInt32
  | .main _ => 0
  | _ => s.identifier

/-- `register`, from the computation of its arguments on; `debug`: assertions for debugging are
compiled -/
def registerStep (cfg : Cfg) (debug : Bool) (s : Server W T) (w : W) (fails : Bool) :
    RegisterPc → Option (Server W T)
  | .start o =>
    let s' := s.nextIdentifier o
    match (o.task cfg.io).queueIndex cfg.io (s.identifierOf o) with
    | none => s'.execStep cfg (.task w .panic)
    | some q =>
      if fails ∨ ¬ q.index.toNat < cfg.bucketCount * cfg.io.perBucket ∨
          (s.sources q.index).poisoned then
        s'.execStep cfg (.task w .panic)
      else if debug ∧ (s.sources q.index).val.isSome then
        -- `debug_assert!(old.is_none())`
        (s'.put q.index).execStep cfg (.task w .panic)
      else some ((s'.put q.index).setRegister w (some (.placed o q.toUsize s.calls)))
  | .placed o token id =>
    if fails then s.execStep cfg (.task w .panic)
    else some { s.setRegister w none with streams := ⟨id, token, o⟩ :: s.streams }

/-- `Drop for TcpStream` -/
def dropStep (s : Server W T) (x : Stream) : Server W T :=
  let s' := { s with streams := s.streams.erase x }
  -- `lock().unwrap()`
  if (s.sources x.place).poisoned then s'
  else { s' with
    sources := Function.update s.sources x.place ((s.sources x.place).set none)
    dropFailed := s.dropFailed || (s.sources x.place).val.isNone }

def step (cfg : Cfg) (debug : Bool) (s : Server W T) : ServerAct W T → Option (Server W T)
  | .exec a => s.execStep cfg a
  | .client w =>
    match s.exec.task w with
    | .main b .polling =>
      if s.exec.q.alive w ∧ s.exec.q.calls (.worker w) = none ∧ s.register w = none ∧
          s.opened b = false then
        some { s.setRegister w (some (.start (.main b))) with
          opened := Function.update s.opened b true }
      else none
    | _ => none
  | .register w fails =>
    if s.exec.q.alive w ∧ s.exec.q.calls (.worker w) = none then
      (s.register w).bind (s.registerStep cfg debug w fails)
    else none
  | .drop x => if x ∈ s.streams then some (s.dropStep x) else none
  | .pollIo x =>
    -- the rest of `poll_io` does not change the place of the source
    if x ∈ s.streams ∧ (s.sources x.place).poisoned = false then
      some { s with unheard := s.unheard || (s.sources x.place).val.isNone }
    else none
  | .poison i => some { s with sources := Function.update s.sources i (s.sources i).unwind }

def machine (cfg : Cfg) (debug : Bool) : Machine (Server W T) (ServerAct W T) :=
  ⟨init cfg, step cfg debug⟩

end Server
end Nea
