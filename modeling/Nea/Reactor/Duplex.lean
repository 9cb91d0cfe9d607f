import Nea.Reactor.Read

/-!
# A stream in both directions

`poll_read`, `poll_write`, `poll_flush` and `poll_shutdown` go through the same `poll_io`, and so do
the futures `read`, `write` and `flush`.  `Nea.Reactor.Read` is about `poll_read` alone; here the
calls of a stream follow one another in any order.  The source of a stream is in its place from
`register` to `drop`, so it is there whenever somebody has a `TcpStream` to call.

* `Op.perform`      the calls;
* `Effect.Sound`    what is proved of a single call;
* `calls_carry`     any sequence of calls.
-/

set_option linter.unusedSectionVars false

namespace Nea
namespace Reactor

/-! ## the calls -/

section
variable {ε K : Type} [DecidableEq K] (E : Environment ε)

/-- the closure of `read`, with `buf` captured -/
def readBuf (s : Io ε K) (buf : List UInt8) : Option (Io ε K × List UInt8 × Except IoError ℕ) :=
  some (s.read E buf)

/-- the closure of `poll_write` and of `write` -/
def writeBuf (buf : List UInt8) (s : Io ε K) (_ : Unit) :
    Option (Io ε K × Unit × Except IoError ℕ) :=
  let (env, val) := E.write s.env buf
  let written := match val with
    | .ok n => buf.take n
    | .error _ => []
  some ({ s with env := env, sent := s.sent ++ written }, (), val)

/-- the closures of `poll_flush`, `flush` and `poll_shutdown`: a call of the socket without bytes -/
def control (op : ε → ε × Except IoError Unit) (s : Io ε K) (_ : Unit) :
    Option (Io ε K × Unit × Except IoError Unit) :=
  let (env, val) := op s.env
  some ({ s with env := env }, (), val)

/-- a poll of the future `read` -/
def read (rounds : ℕ) (s : Io ε K) (w : K) (buf : List UInt8) :
    Option (Io ε K × List UInt8 × Option (Poll (Except IoError ℕ))) :=
  pollIo E .read w (readBuf E) rounds s buf

/-- `poll_write`, and a poll of the future `write` -/
def write (rounds : ℕ) (s : Io ε K) (w : K) (buf : List UInt8) :
    Option (Io ε K × Unit × Option (Poll (Except IoError ℕ))) :=
  pollIo E .write w (writeBuf E buf) rounds s ()

/-- `poll_flush`, and a poll of the future `flush` -/
def flush (rounds : ℕ) (s : Io ε K) (w : K) :
    Option (Io ε K × Unit × Option (Poll (Except IoError Unit))) :=
  pollIo E .write w (control E.flush) rounds s ()

/-- `poll_shutdown` -/
def shutdown (rounds : ℕ) (s : Io ε K) (w : K) :
    Option (Io ε K × Unit × Option (Poll (Except IoError Unit))) :=
  pollIo E .write w (control E.shutdown) rounds s ()

end

/-- a call without its captured arguments -/
inductive Op (C : Type) where
  | pollRead (buf : C)
  | read (buf : List UInt8)
  | write (buf : List UInt8)
  | flush
  | shutdown

def Op.direction {C : Type} : Op C → Direction
  | .pollRead _ | .read _ => .read
  | .write _ | .flush | .shutdown => .write

/-- the bytes a call offers to the socket -/
def Op.offered {C : Type} : Op C → List UInt8
  | .write buf => buf
  | _ => []

/-- what the caller of a call gets -/
structure Reply where
  /-- what its buffer holds, before and after -/
  before : List UInt8
  after : List UInt8
  /-- the bytes reported as written -/
  written : List UInt8
  /-- the number in the answer -/
  count : Option ℕ
  poll : Option (Poll (Except IoError Unit))

/-- the bytes that the call has added to the buffer of its caller -/
def Reply.received (a : Reply) : List UInt8 := a.after.drop a.before.length

/-- an answer without its number -/
def voided {α : Type} : Option (Poll (Except IoError α)) → Option (Poll (Except IoError Unit))
  | none => none
  | some .pending => some .pending
  | some (.ready (.error e)) => some (.ready (.error e))
  | some (.ready (.ok _)) => some (.ready (.ok ()))

/-- the number in an answer -/
def counted : Option (Poll (Except IoError ℕ)) → Option ℕ
  | some (.ready (.ok n)) => some n
  | _ => none

/-- the front of a buffer that an answer is about -/
def front (buf : List UInt8) (p : Option (Poll (Except IoError ℕ))) : List UInt8 :=
  match counted p with
  | some n => buf.take n
  | none => []

section
variable {ε K C : Type} [DecidableEq K] (E : Environment ε) (B : ReadBufCursor C)

def Op.perform (rounds : ℕ) (w : K) (s : Io ε K) : Op C → Option (Io ε K × Reply)
  | .pollRead buf => do
    let (s, buf', p) ← Reactor.pollRead E B rounds s w buf
    some (s, ⟨B.filled buf, B.filled buf', [], none, p⟩)
  | .read buf => do
    let (s, buf, p) ← Reactor.read E rounds s w buf
    some (s, ⟨[], front buf p, [], counted p, voided p⟩)
  | .write buf => do
    let (s, _, p) ← Reactor.write E rounds s w buf
    some (s, ⟨[], [], front buf p, counted p, voided p⟩)
  | .flush => do
    let (s, _, p) ← Reactor.flush E rounds s w
    some (s, ⟨[], [], [], none, p⟩)
  | .shutdown => do
    let (s, _, p) ← Reactor.shutdown E rounds s w
    some (s, ⟨[], [], [], none, p⟩)

/-- a call: how many rounds it is watched for, its waker and the rest -/
structure Call (K C : Type) where
  rounds : ℕ
  waker : K
  op : Op C

/-- what a call did, to its caller and to the stream -/
structure Effect (ε K C : Type) extends Reply where
  call : Call K C
  start : Io ε K
  stop : Io ε K

/-- calls one after the other -/
def calls (s : Io ε K) (cs : List (Call K C)) : Option (Io ε K × List (Effect ε K C)) :=
  inTurn (fun s c => (c.op.perform E B c.rounds c.waker s).map fun (s', a) => (s', ⟨a, c, s, s'⟩))
    (fun a => a.poll.isSome) s cs

end

/-! ## each call -/

section
variable {ε K : Type} [DecidableEq K] {E : Environment ε}

theorem front_of_ne {buf : List UInt8} {p : Option (Poll (Except IoError ℕ))}
    (h : ∀ n, p ≠ some (.ready (.ok n))) : front buf p = [] := by
  unfold front counted
  split
  · next n hn =>
    split at hn
    · next m => exact absurd rfl (h m)
    · cases hn
  · rfl

theorem read_carries (hE : E.Reads) (rounds : ℕ) (s : Io ε K) (w : K) (buf : List UInt8) :
    ∃ s' buf' p, read E rounds s w buf = some (s', buf', p) ∧
      Carries .read s s' (front buf' p) [] ∧ buf'.length = buf.length ∧
      (∀ n, p = some (.ready (.ok n)) → n ≤ buf'.length) ∧
      (p = some .pending → s.source.isSome → s'.Armed .read w) := by
  obtain ⟨s', buf', p, hp, hok, helse, harm⟩ := pollIo_rule (E := E) (s := s) (d := .read) (w := w)
    (I := fun b => b.length = buf.length)
    (R := fun b n r v => n ≤ b.length ∧ b.length = buf.length ∧ r = b.take n ∧ v = [])
    (f := readBuf E)
    (fun s1 b hb => by
      obtain ⟨s2, b2, val, hread, hlen, hok, herr⟩ := s1.read_spec hE .read b
      refine ⟨s2, b2, val, congrArg some hread, fun n e => ?_, fun e he => ⟨herr e he, ?_⟩⟩
      · obtain ⟨hn, hc⟩ := hok n e
        exact ⟨b2.take n, [], hc, by omega, by omega, rfl, rfl⟩
      · omega)
    rounds (x := buf) rfl
  refine ⟨s', buf', p, hp, ?_, ?_, fun n e => ?_, harm⟩
  · by_cases h : ∃ n, p = some (.ready (.ok n))
    · obtain ⟨n, rfl⟩ := h
      obtain ⟨r, v, hc, -, -, rfl, rfl⟩ := hok n rfl
      exact hc
    · have h := not_exists.mp h
      rw [front_of_ne h]
      exact (helse h).1
  · by_cases h : ∃ n, p = some (.ready (.ok n))
    · obtain ⟨n, rfl⟩ := h
      obtain ⟨r, v, -, -, hl, -⟩ := hok n rfl
      exact hl
    · exact (helse (not_exists.mp h)).2
  · obtain ⟨r, v, -, hn, -⟩ := hok n e
    exact hn

theorem write_carries (hE : E.Writes) (rounds : ℕ) (s : Io ε K) (w : K) (buf : List UInt8) :
    ∃ s' p, write E rounds s w buf = some (s', (), p) ∧ Carries .write s s' [] (front buf p) ∧
      (∀ n, p = some (.ready (.ok n)) → n ≤ buf.length) ∧
      (p = some .pending → s.source.isSome → s'.Armed .write w) := by
  obtain ⟨s', x, p, hp, hok, helse, harm⟩ := pollIo_rule (E := E) (s := s) (d := .write) (w := w)
    (I := fun _ => True)
    (R := fun _ n r v => n ≤ buf.length ∧ r = [] ∧ v = buf.take n)
    (f := writeBuf E buf)
    (fun s1 x _ => by
      have hle := hE s1.env buf
      unfold writeBuf
      rcases hwrite : E.write s1.env buf with ⟨env, val⟩
      rw [hwrite] at hle
      refine ⟨_, x, val, rfl, fun n e => ?_, fun e he => ⟨?_, trivial⟩⟩
      · subst e
        exact ⟨[], buf.take n, Carries.give env _, hle n rfl, rfl, rfl⟩
      · subst he
        exact Carries.give env [])
    rounds (x := ()) trivial
  refine ⟨s', p, hp, ?_, fun n e => ?_, harm⟩
  · by_cases h : ∃ n, p = some (.ready (.ok n))
    · obtain ⟨n, rfl⟩ := h
      obtain ⟨r, v, hc, -, rfl, rfl⟩ := hok n rfl
      exact hc
    · have h := not_exists.mp h
      rw [front_of_ne h]
      exact (helse h).1
  · obtain ⟨r, v, -, hn, -⟩ := hok n e
    exact hn

/-- `flush` and `shutdown` carry no bytes -/
theorem control_carries (op : ε → ε × Except IoError Unit) (rounds : ℕ) (s : Io ε K) (w : K) :
    ∃ s' p, pollIo E .write w (control op) rounds s () = some (s', (), p) ∧
      Carries .write s s' [] [] ∧
      (p = some .pending → s.source.isSome → s'.Armed .write w) := by
  have quiet : ∀ s1 : Io ε K, Carries .write s1 { s1 with env := (op s1.env).1 } [] [] :=
    fun s1 => Carries.env _
  obtain ⟨s', x, p, hp, hok, helse, harm⟩ := pollIo_rule (E := E) (s := s) (d := .write) (w := w)
    (I := fun _ => True) (R := fun _ _ r v => r = [] ∧ v = []) (f := control op)
    (fun s1 x _ => ⟨_, x, (op s1.env).2, rfl, fun n _ => ⟨[], [], quiet s1, rfl, rfl⟩,
      fun e _ => ⟨quiet s1, trivial⟩⟩)
    rounds (x := ()) trivial
  refine ⟨s', p, hp, ?_, harm⟩
  by_cases h : ∃ a, p = some (.ready (.ok a))
  · obtain ⟨a, rfl⟩ := h
    obtain ⟨r, v, hc, rfl, rfl⟩ := hok a rfl
    exact hc
  · exact (helse (not_exists.mp h)).1

end

/-! ## any sequence of calls -/

section
variable {ε K C : Type} [DecidableEq K] {E : Environment ε} {B : ReadBufCursor C}

/-- what is proved of a single call in a sequence -/
structure Effect.Sound (a : Effect ε K C) : Prop where
  carries : Carries a.call.op.direction a.start a.stop a.received a.written
  appended : a.after = a.before ++ a.received
  offered : a.written <+: a.call.op.offered
  counted : ∀ n, a.count = some n → (a.received ++ a.written).length = n
  nothing : a.poll ≠ some (.ready (.ok ())) → a.received = [] ∧ a.written = []
  armed : a.poll = some .pending → a.stop.Armed a.call.op.direction a.call.waker

theorem voided_pending {α : Type} {p : Option (Poll (Except IoError α))}
    (h : voided p = some .pending) : p = some .pending := by
  unfold voided at h
  split at h <;> first | rfl | cases h

theorem voided_ok {p : Option (Poll (Except IoError ℕ))} (h : voided p ≠ some (.ready (.ok ()))) :
    ∀ n, p ≠ some (.ready (.ok n)) := by
  rintro n rfl
  exact h rfl

theorem length_front {buf : List UInt8} {p : Option (Poll (Except IoError ℕ))}
    (hle : ∀ n, p = some (.ready (.ok n)) → n ≤ buf.length) {n : ℕ} (h : counted p = some n) :
    (front buf p).length = n := by
  unfold front
  rw [h]
  unfold counted at h
  split at h
  · cases h
    exact List.length_take_of_le (hle _ rfl)
  · cases h

/-- one call -/
theorem Op.perform_sound (hr : E.Reads) (hw : E.Writes) (hB : B.Lawful) (c : Call K C) {s : Io ε K}
    (hs : s.source.isSome) : ∃ s' a, c.op.perform E B c.rounds c.waker s = some (s', a) ∧
      (⟨a, c, s, s'⟩ : Effect ε K C).Sound := by
  rcases c with ⟨rounds, w, op⟩
  cases op with
  | pollRead buf =>
    obtain ⟨s', buf', p, r, h, hc, hfilled, -, hne, harm⟩ := pollRead_carries hr hB rounds s w buf
    have hrec : (B.filled buf').drop (B.filled buf).length = r := by rw [hfilled, List.drop_left]
    refine ⟨s', ⟨B.filled buf, B.filled buf', [], none, p⟩, ?_, ?_, ?_, List.prefix_rfl,
      fun n e => (by cases e), fun e => ⟨?_, rfl⟩, fun e => harm e hs⟩
    · simp only [Op.perform, h, Option.bind_eq_bind, Option.bind_some]
    · show Carries .read s s' ((B.filled buf').drop (B.filled buf).length) []
      rw [hrec]
      exact hc
    · show B.filled buf' = B.filled buf ++ (B.filled buf').drop (B.filled buf).length
      rw [hrec]
      exact hfilled
    · show (B.filled buf').drop (B.filled buf).length = []
      rw [hrec]
      exact (hne e).2
  | read buf =>
    obtain ⟨s', buf', p, h, hc, -, hle, harm⟩ := read_carries hr rounds s w buf
    refine ⟨s', ⟨[], front buf' p, [], counted p, voided p⟩, ?_, hc, rfl, List.prefix_rfl,
      fun n e => ?_, fun e => ⟨front_of_ne (voided_ok e), rfl⟩,
      fun e => harm (voided_pending e) hs⟩
    · simp only [Op.perform, h, Option.bind_eq_bind, Option.bind_some]
    · show (front buf' p ++ []).length = n
      rw [List.append_nil]
      exact length_front hle e
  | write buf =>
    obtain ⟨s', p, h, hc, hle, harm⟩ := write_carries hw rounds s w buf
    refine ⟨s', ⟨[], [], front buf p, counted p, voided p⟩, ?_, hc, rfl, ?_, fun n e => ?_,
      fun e => ⟨rfl, front_of_ne (voided_ok e)⟩, fun e => harm (voided_pending e) hs⟩
    · simp only [Op.perform, h, Option.bind_eq_bind, Option.bind_some]
    · show front buf p <+: buf
      unfold front
      split
      · exact List.take_prefix _ _
      · exact List.nil_prefix
    · exact length_front hle e
  | flush =>
    obtain ⟨s', p, h, hc, harm⟩ := control_carries (E := E) E.flush rounds s w
    refine ⟨s', ⟨[], [], [], none, p⟩, ?_, hc, rfl, List.prefix_rfl, fun n e => (by cases e),
      fun _ => ⟨rfl, rfl⟩, fun e => harm e hs⟩
    unfold Op.perform Reactor.flush
    rw [h]
    rfl
  | shutdown =>
    obtain ⟨s', p, h, hc, harm⟩ := control_carries (E := E) E.shutdown rounds s w
    refine ⟨s', ⟨[], [], [], none, p⟩, ?_, hc, rfl, List.prefix_rfl, fun n e => (by cases e),
      fun _ => ⟨rfl, rfl⟩, fun e => harm e hs⟩
    unfold Op.perform Reactor.shutdown
    rw [h]
    rfl

/-- **A stream carries both directions.**  For any sequence of calls, with any behaviour of the
socket and of the reactor in between: no call leaves the range of a slice; the bytes that reads of
the socket returned are the ones the calls appended to the buffers of their callers, and the bytes
the socket has accepted are the ones the calls reported as written, each a front of what its caller
offered, call by call in order.  A call that answers `Pending` or an error moves no byte; after
`Pending` the caller's waker is stored and there is no event it would not be woken for; and a call
in one direction leaves waker and flag of the other to the reactor. -/
theorem calls_carry (hr : E.Reads) (hw : E.Writes) (hB : B.Lawful) {s : Io ε K}
    (hs : s.source.isSome) (cs : List (Call K C)) :
    ∃ s' as, calls E B s cs = some (s', as) ∧
      s'.taken = s.taken ++ as.flatMap (fun a => a.received) ∧
      s'.sent = s.sent ++ as.flatMap (fun a => a.written) ∧ ∀ a ∈ as, a.Sound := by
  refine inTurn_rule (I := fun s => s.source.isSome)
    (R := fun (s : Io ε K) (as : List (Effect ε K C)) (s' : Io ε K) =>
      s'.taken = s.taken ++ as.flatMap (fun a => a.received) ∧
        s'.sent = s.sent ++ as.flatMap (fun a => a.written) ∧ ∀ a ∈ as, a.Sound)
    (fun s => ⟨(List.append_nil _).symm, (List.append_nil _).symm,
      fun a ha => absurd ha List.not_mem_nil⟩) ?_ cs hs
  intro s c hs
  obtain ⟨s', a, hcall, hsound⟩ := Op.perform_sound hr hw hB c hs
  have hc := hsound.carries
  refine ⟨s', ⟨a, c, s, s'⟩, ?_, ?_, fun as s'' ⟨ht, hsent, hall⟩ => ⟨?_, ?_, fun b hb => ?_⟩⟩
  · simp only [hcall, Option.map_some]
  · show s'.source.isSome = true
    rw [hc.present]
    exact hs
  · rw [List.flatMap_cons, ht, hc.taken, List.append_assoc]
  · rw [List.flatMap_cons, hsent, hc.sent, List.append_assoc]
  · rcases List.mem_cons.mp hb with rfl | hb
    · exact hsound
    · exact hall b hb

end

/-- a stream whose socket accepts two bytes of a write, blocks, and brings three bytes meanwhile -/
def exchange : Io Script ℕ where
  env :=
    { chunks := [.ok [1, 2, 3]]
      accepts := [.ok 2, .error .wouldBlock, .ok 9, .error (.other 4)]
      ticks := [[.write, .read], [], [], [], [.write]] }
  source := some .new
  taken := []
  sent := []
  events _ := 0

def exchanged : List (Call ℕ ReadBuf) :=
  [⟨9, 7, .write [5, 6, 7, 8]⟩, ⟨9, 7, .write [7, 8]⟩, ⟨9, 7, .pollRead ⟨[], [none, none]⟩⟩,
    ⟨9, 7, .read [0, 0]⟩, ⟨9, 7, .write [7, 8]⟩, ⟨9, 7, .write [9]⟩, ⟨9, 7, .flush⟩,
    ⟨9, 5, .read [0]⟩, ⟨9, 5, .shutdown⟩]

/-- The second write and the last read answer `Pending`. -/
theorem calls_carry_exchange : ∃ s' as,
    calls Script.environment ReadBuf.cursor exchange exchanged = some (s', as) ∧
      as.map (fun a => a.poll) =
        [some (.ready (.ok ())), some .pending, some (.ready (.ok ())), some (.ready (.ok ())),
          some (.ready (.ok ())), some (.ready (.error (.other 4))), some (.ready (.ok ())),
          some .pending, some (.ready (.ok ()))] ∧
      as.map (fun a => (a.received, a.written)) =
        [([], [5, 6]), ([], []), ([1, 2], []), ([3], []), ([], [7, 8]), ([], []), ([], []),
          ([], []), ([], [])] ∧
      s'.taken = as.flatMap (fun a => a.received) ∧ s'.sent = as.flatMap (fun a => a.written) ∧
      ∀ a ∈ as, a.Sound := by
  obtain ⟨s', as, h, ht, hsent, hall⟩ :=
    calls_carry Script.reads Script.writes ReadBuf.cursor_lawful (s := exchange) rfl exchanged
  have hpoll : (calls Script.environment ReadBuf.cursor exchange exchanged).map
      (fun r => r.2.map fun a => a.poll) =
      some [some (.ready (.ok ())), some .pending, some (.ready (.ok ())), some (.ready (.ok ())),
        some (.ready (.ok ())), some (.ready (.error (.other 4))), some (.ready (.ok ())),
        some .pending, some (.ready (.ok ()))] := by decide +kernel
  have hbytes : (calls Script.environment ReadBuf.cursor exchange exchanged).map
      (fun r => r.2.map fun a => (a.received, a.written)) =
      some [([], [5, 6]), ([], []), ([1, 2], []), ([3], []), ([], [7, 8]), ([], []), ([], []),
        ([], []), ([], [])] := by decide +kernel
  rw [h] at hpoll hbytes
  exact ⟨s', as, h, Option.some.inj hpoll, Option.some.inj hbytes, ht, hsent, hall⟩

end Reactor
end Nea
