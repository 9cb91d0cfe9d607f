import Nea.Benchmarks.Response
import Nea.Benchmarks.Server
import Nea.Lib.Progress

/-!
# The server of the tokio benchmark (`rust-tokio/src/server.rs`)

`worker` serves one connection at a time: it reads a request into a buffer of zeros, takes the whole
buffer for the text of the request, hands that to the handler, and writes the response.

* `Arrival`, `Reading`, `readStep`   the loop of `read_request`;
* `Filled`                the buffer is what was received and, behind it, what it was before;
* `readRequest_run`       every call is over after at most one round more than the buffer has bytes;
* `Worker`, `workerStep`  the loop of `worker`, with `read_request` and `write_response` in it;
* `Serves`                what the handler is given, and how the server ends;
* `serves_whole`          a request in one piece is answered;
* `worker_serves`         a client that sends a request is answered by the handler on it.
-/

open Text Utf8

namespace Nea
namespace Benchmarks
namespace Tokio

/-! ## reading -/

/-- what one round of the loop meets -/
inductive Arrival where
  /-- `readable` fails -/
  | unreadable
  /-- `try_read` takes these bytes off the socket: none at the end of the stream and into no room -/
  | read (l : List UInt8)
  | wouldBlock
  /-- `try_read` fails otherwise -/
  | failed
deriving DecidableEq

/-- the bytes an arrival brings -/
def Arrival.bytes : Arrival → List UInt8
  | .read l => l
  | _ => []

/-- the call of `read_request` -/
structure Reading where
  buf : List UInt8
  bytesRead : ℕ
  /-- the bytes taken off the socket (for statements only; no code reads it) -/
  received : List UInt8
  outcome : Option Outcome
deriving DecidableEq

/-- the buffer with `l` written to it at position `i` -/
def fill (buf : List UInt8) (i : ℕ) (l : List UInt8) : List UInt8 :=
  buf.take i ++ l ++ buf.drop (i + l.length)

/-- one round of the loop; the slice offered is `buf[bytes_read..]` -/
def readStep (s : Reading) (a : Arrival) : Option Reading :=
  if s.outcome = none then
    if a = .unreadable then some { s with outcome := some .err }
    else if s.bytesRead ≤ s.buf.length then
      match a with
      | .unreadable | .failed => some { s with outcome := some .err }
      | .wouldBlock => some { s with outcome := some .ok }
      | .read l =>
        if s.bytesRead + l.length ≤ s.buf.length then
          let s := { s with buf := fill s.buf s.bytesRead l, received := s.received ++ l }
          if l = [] then some { s with outcome := some .ok }
          else if s.bytesRead + l.length < 2^64 then
            some { s with bytesRead := s.bytesRead + l.length }
          else some { s with outcome := some .panicked }
        else none
    else some { s with outcome := some .panicked }
  else none

def readRequest (buf : List UInt8) : Machine Reading Arrival where
  init := ⟨buf, 0, [], none⟩
  step := readStep

/-- what was received stands at the front of the buffer -/
structure Filled (buf : List UInt8) (s : Reading) : Prop where
  le : s.received.length ≤ buf.length
  buf : s.buf = s.received ++ buf.drop s.received.length
  counter : s.bytesRead = s.received.length
  sound : s.outcome ≠ some .panicked

/-- what a round can do -/
inductive ReadRound (s : Reading) : Arrival → Reading → Prop where
  /-- nothing arrives and the loop is left -/
  | last {a : Arrival} (o : Outcome) (ha : a.bytes = []) (ho : o ≠ .panicked) :
      ReadRound s a { s with outcome := some o }
  | more (l : List UInt8) (hne : l ≠ []) (hl : s.bytesRead + l.length ≤ s.buf.length) :
      ReadRound s (.read l)
        ⟨fill s.buf s.bytesRead l, s.bytesRead + l.length, s.received ++ l, none⟩

section
variable {buf : List UInt8} {s s' : Reading} {a : Arrival}

theorem fill_nil (i : ℕ) : fill buf i [] = buf := by
  rw [fill, List.append_nil]
  exact List.take_append_drop i buf

theorem Filled.length (h : Filled buf s) : s.buf.length = buf.length := by
  have hle := h.le
  rw [h.buf, List.length_append, List.length_drop]
  omega

theorem Filled.init : Filled buf (readRequest buf).init where
  le := Nat.zero_le _
  buf := rfl
  counter := rfl
  sound h := by cases h

theorem readStep_cases (hb : buf.length < 2^64) (hf : Filled buf s)
    (h : readStep s a = some s') : s.outcome = none ∧ ReadRound s a s' := by
  have hroom : s.bytesRead ≤ s.buf.length := by
    rw [hf.length, hf.counter]
    exact hf.le
  unfold readStep at h
  by_cases ho : s.outcome = none
  · rw [if_pos ho] at h
    refine ⟨ho, ?_⟩
    by_cases ha : a = .unreadable
    · rw [if_pos ha] at h
      subst ha
      cases h
      exact .last .err rfl (fun he => by cases he)
    · rw [if_neg ha, if_pos hroom] at h
      cases a with
      | unreadable => exact absurd rfl ha
      | failed => cases h; exact .last .err rfl (fun he => by cases he)
      | wouldBlock => cases h; exact .last .ok rfl (fun he => by cases he)
      | read l =>
        dsimp only at h
        split at h
        · next hl =>
          split at h
          · next hnil =>
            subst hnil
            cases h
            rw [fill_nil, List.append_nil]
            exact .last .ok rfl (fun he => by cases he)
          · next hne =>
            have hlt : s.bytesRead + l.length < 2^64 := by
              rw [hf.length] at hl
              exact Nat.lt_of_le_of_lt hl hb
            rw [if_pos hlt] at h
            cases h
            rw [ho]
            exact .more l hne hl
        · cases h
  · rw [if_neg ho] at h
    cases h

theorem Filled.step (hb : buf.length < 2^64) (hf : Filled buf s) (h : readStep s a = some s') :
    Filled buf s' := by
  cases (readStep_cases hb hf h).2 with
  | last o ha ho => exact ⟨hf.le, hf.buf, hf.counter, fun he => ho (Option.some.inj he)⟩
  | more l hne hl =>
    have hle : s.received.length + l.length ≤ buf.length := by
      rw [← hf.length, ← hf.counter]
      exact hl
    constructor
    · show (s.received ++ l).length ≤ buf.length
      rw [List.length_append]
      exact hle
    · show fill s.buf s.bytesRead l = (s.received ++ l) ++ buf.drop (s.received ++ l).length
      have htake : s.buf.take s.received.length = s.received := by rw [hf.buf, List.take_left]
      have hdrop : s.buf.drop (s.received.length + l.length) =
          buf.drop (s.received.length + l.length) := by
        rw [hf.buf, List.drop_append, List.drop_drop]
        have hnil : s.received.drop (s.received.length + l.length) = [] :=
          List.drop_eq_nil_of_le (Nat.le_add_right _ _)
        have hsub : s.received.length + (s.received.length + l.length - s.received.length) =
            s.received.length + l.length := by omega
        rw [hnil, hsub, List.nil_append]
      rw [fill, hf.counter, htake, hdrop, List.length_append]
    · show s.bytesRead + l.length = (s.received ++ l).length
      rw [hf.counter, List.length_append]
    · exact fun he => by cases he

theorem received_step (hb : buf.length < 2^64) (hf : Filled buf s) (h : readStep s a = some s') :
    s'.received = s.received ++ a.bytes := by
  cases (readStep_cases hb hf h).2 with
  | last o ha ho => rw [ha, List.append_nil]
  | more l hne hl => rfl

theorem readStep_read (hb : buf.length < 2^64) (hf : Filled buf s) (ho : s.outcome = none)
    {l : List UInt8} (hne : l ≠ []) (hl : s.received.length + l.length ≤ buf.length) :
    ∃ s', readStep s (.read l) = some s' ∧ s'.outcome = none := by
  have hroom : s.bytesRead ≤ s.buf.length := by
    rw [hf.length, hf.counter]
    exact hf.le
  have hfit : s.bytesRead + l.length ≤ s.buf.length := by
    rw [hf.length, hf.counter]
    exact hl
  have hlt : s.bytesRead + l.length < 2^64 := by
    rw [hf.counter]
    exact Nat.lt_of_le_of_lt hl hb
  rw [readStep, if_pos ho, if_neg (fun he => by cases he), if_pos hroom]
  dsimp only
  rw [if_pos hfit, if_neg hne, if_pos hlt]
  exact ⟨_, rfl, ho⟩

theorem readStep_wouldBlock (hf : Filled buf s) (ho : s.outcome = none) :
    readStep s .wouldBlock = some { s with outcome := some .ok } := by
  have hroom : s.bytesRead ≤ s.buf.length := by
    rw [hf.length, hf.counter]
    exact hf.le
  rw [readStep, if_pos ho, if_neg (fun he => by cases he), if_pos hroom]

/-- the rounds that are left at most -/
def roundsLeft (buf : List UInt8) (s : Reading) : ℕ :=
  if s.outcome = none then buf.length - s.received.length + 1 else 0

theorem roundsLeft_step (hb : buf.length < 2^64) (hf : Filled buf s)
    (h : readStep s a = some s') : roundsLeft buf s' < roundsLeft buf s := by
  obtain ⟨ho, hr⟩ := readStep_cases hb hf h
  have hs : roundsLeft buf s = buf.length - s.received.length + 1 := if_pos ho
  rw [hs]
  cases hr with
  | last o ha ho' => exact Nat.succ_pos _
  | more l hne hl =>
    have hpos := List.length_pos_of_ne_nil hne
    rw [hf.length, hf.counter] at hl
    show buf.length - (s.received ++ l).length + 1 < _
    rw [List.length_append]
    omega

theorem run_received (hb : buf.length < 2^64) {l : List Arrival} (hf : Filled buf s)
    (hr : (readRequest buf).run s l = some s') :
    Filled buf s' ∧ s'.received = s.received ++ l.flatMap Arrival.bytes := by
  induction l generalizing s with
  | nil =>
    cases hr
    exact ⟨hf, (List.append_nil _).symm⟩
  | cons a l ih =>
    rw [Machine.run_cons] at hr
    obtain ⟨s1, h1, h2⟩ := Option.bind_eq_some_iff.mp hr
    have h1 : readStep s a = some s1 := h1
    obtain ⟨h3, h4⟩ := ih (hf.step hb h1) h2
    refine ⟨h3, ?_⟩
    rw [h4, received_step hb hf h1, List.append_assoc, List.flatMap_cons]

/-- **The request is read.**  Every call is over after one round for each byte of the buffer and one
more, at the latest; no slice and no sum is out of bounds; and the buffer holds the bytes that
arrived, in order, and is unchanged behind them. -/
theorem readRequest_run (hb : buf.length < 2^64) {l : List Arrival}
    (hr : (readRequest buf).run (readRequest buf).init l = some s) :
    l.length ≤ buf.length + 1 ∧ s.outcome ≠ some .panicked ∧
      s.buf = l.flatMap Arrival.bytes ++ buf.drop (l.flatMap Arrival.bytes).length ∧
      (l.flatMap Arrival.bytes).length ≤ buf.length := by
  obtain ⟨hf, hrec⟩ := run_received hb .init hr
  have hrec : s.received = l.flatMap Arrival.bytes := hrec
  have hlen : l.length ≤ roundsLeft buf (readRequest buf).init := by
    have hkeep (s : Reading) (a : Arrival) (s' : Reading) (hf : Filled buf s) (_ : True)
        (h : (readRequest buf).step s a = some s') : Filled buf s' := hf.step hb h
    have hrank (s : Reading) (a : Arrival) (s' : Reading) (hf : Filled buf s) (_ : True)
        (h : (readRequest buf).step s a = some s') : roundsLeft buf s' < roundsLeft buf s :=
      roundsLeft_step hb hf h
    exact Machine.length_le hkeep hrank .init (fun _ _ => trivial) hr
  rw [← hrec]
  exact ⟨hlen, hf.sound, hf.buf, hf.le⟩

/-- Three bytes and then no more for now, in a buffer of four. -/
theorem readRequest_run_blocked :
    ((readRequest [0, 0, 0, 0]).final [.read [71, 69], .read [84], .wouldBlock]).buf =
      [71, 69, 84, 0] := by
  have hr : (readRequest [0, 0, 0, 0]).run (readRequest [0, 0, 0, 0]).init
      [.read [71, 69], .read [84], .wouldBlock] =
      some ((readRequest [0, 0, 0, 0]).final [.read [71, 69], .read [84], .wouldBlock]) := by
    decide
  exact (readRequest_run (by decide) hr).2.2.1

end

/-! ## serving -/

/-- how `worker` returns -/
inductive Ending where
  | ok
  | io
  | utf8
  | panicked
deriving DecidableEq

/-- a request that was handled (for statements only; no code reads it) -/
structure Exchange where
  received : List UInt8
  request : Str
  response : Response
deriving DecidableEq

inductive Phase where
  | accepting
  | reading (r : Reading)
  | writing (x : Exchange) (v : Writing)
  /-- with what was received on the last connection (for statements only) -/
  | ended (e : Ending) (received : List UInt8)
deriving DecidableEq

inductive Event where
  | accepted
  /-- `accept` fails -/
  | refused
  | arrival (a : Arrival)
  | attempt (a : Attempt)
deriving DecidableEq

/-- the call of `worker`; `handler` is what the closure has captured -/
structure Worker (H : Type*) where
  handler : H
  phase : Phase
  /-- the requests that were handled, in order (for statements only; no code reads it) -/
  handled : List Exchange
  /-- those of them that were answered, with the bytes sent (for statements only) -/
  answered : List (Exchange × List UInt8)

/-- `[0; 1024]` -/
def buffer : List UInt8 := List.replicate 1024 0

section
variable {H : Type*} (handler : H → Str → H × Response)

/-- from `from_utf8` to the call of `write_response` -/
def Worker.handle (w : Worker H) (r : Reading) : Worker H :=
  match decode r.buf with
  | none => { w with phase := .ended .utf8 r.received }
  | some request =>
    let response := (handler w.handler request).2
    let x := ⟨r.received, request, response⟩
    { w with
      handler := (handler w.handler request).1
      phase := .writing x (writeResponse response.bytes).init
      handled := w.handled ++ [x] }

def Worker.afterRead (w : Worker H) (r : Reading) : Worker H :=
  match r.outcome with
  | none => { w with phase := .reading r }
  | some .ok => w.handle handler r
  | some .err => { w with phase := .ended .io r.received }
  | some .panicked => { w with phase := .ended .panicked r.received }

def Worker.afterWrite (w : Worker H) (x : Exchange) (v : Writing) : Worker H :=
  match v.outcome with
  | none => { w with phase := .writing x v }
  | some .ok => { w with phase := .accepting, answered := w.answered ++ [(x, v.accepted)] }
  | some .err => { w with phase := .ended .io x.received }
  | some .panicked => { w with phase := .ended .panicked x.received }

def workerStep (w : Worker H) (e : Event) : Option (Worker H) :=
  match w.phase, e with
  | .accepting, .accepted => some { w with phase := .reading (readRequest buffer).init }
  | .accepting, .refused => some { w with phase := .ended .ok [] }
  | .reading r, .arrival a => (readStep r a).map (w.afterRead handler)
  | .writing x v, .attempt a => (writeStep x.response.bytes v a).map (w.afterWrite x)
  | _, _ => none

def worker (h : H) : Machine (Worker H) Event where
  init := ⟨h, .accepting, [], []⟩
  step := workerStep handler

/-- the handler was called on these requests, one after the other, and gave these responses -/
def Answered : H → List Exchange → H → Prop
  | h, [], h' => h' = h
  | h, x :: xs, h' =>
    x.response = (handler h x.request).2 ∧ Answered (handler h x.request).1 xs h'

end

/-- the text of a request is what was received and, behind it, the zeros of the buffer -/
structure Exchange.Padded (x : Exchange) : Prop where
  le : x.received.length ≤ 1024
  text : ∃ t, decode x.received = some t ∧
    x.request = t ++ List.replicate (1024 - x.received.length) '\x00'

/-- what the phase says of the requests that were handled and not answered -/
def Phase.Leaves : Phase → List Exchange → Prop
  | .accepting, l => l = []
  | .reading r, l => l = [] ∧ Filled buffer r
  | .writing x v, l => l = [x] ∧ Tracks x.response.bytes v
  | .ended e received, l =>
    l.length ≤ 1 ∧ (e = .utf8 → received.length ≤ 1024 ∧ decode received = none)

/-- what holds between two steps -/
structure Serves {H : Type*} (handler : H → Str → H × Response) (h : H) (w : Worker H) : Prop where
  called : Answered handler h w.handled w.handler
  padded : ∀ x ∈ w.handled, x.Padded
  sent : ∀ p ∈ w.answered, p.2.length = p.1.response.bytes.length
  inOrder : ∃ l, w.handled = w.answered.map Prod.fst ++ l ∧ w.phase.Leaves l

section
variable {H : Type*} {handler : H → Str → H × Response} {h h' : H} {w w' : Worker H} {e : Event}

theorem length_buffer : buffer.length = 1024 := List.length_replicate

theorem Answered.concat {xs : List Exchange} (ha : Answered handler h xs h') {x : Exchange}
    (hx : x.response = (handler h' x.request).2) :
    Answered handler h (xs ++ [x]) (handler h' x.request).1 := by
  induction xs generalizing h with
  | nil =>
    have ha : h' = h := ha
    subst ha
    exact ⟨hx, rfl⟩
  | cons y ys ih => exact ⟨ha.1, ih ha.2⟩

section
variable {r : Reading}

theorem Filled.le_buffer (hf : Filled buffer r) : r.received.length ≤ 1024 := by
  rw [← length_buffer]
  exact hf.le

/-- What `from_utf8` makes of the buffer: the text of what was received with the zeros behind it. -/
theorem Filled.decode (hf : Filled buffer r) : decode r.buf =
    (decode r.received).map (· ++ List.replicate (1024 - r.received.length) '\x00') := by
  rw [hf.buf, buffer, List.drop_replicate, decode_zeros]

end

namespace Serves

theorem init : Serves handler h (worker handler h).init where
  called := rfl
  padded _ hx := absurd hx List.not_mem_nil
  sent _ hp := absurd hp List.not_mem_nil
  inOrder := ⟨[], rfl, rfl⟩

theorem turn (hs : Serves handler h w) {p : Phase} {l : List Exchange}
    (hl : w.handled = w.answered.map Prod.fst ++ l) (hp : p.Leaves l) :
    Serves handler h { w with phase := p } :=
  ⟨hs.called, hs.padded, hs.sent, l, hl, hp⟩

theorem handle (hs : Serves handler h w) (hl : w.handled = w.answered.map Prod.fst)
    {r : Reading} (hf : Filled buffer r) : Serves handler h (w.handle handler r) := by
  unfold Worker.handle
  rw [hf.decode]
  cases hd : decode r.received with
  | none =>
    have hp : (Phase.ended .utf8 r.received).Leaves [] :=
      ⟨Nat.zero_le 1, fun _ => ⟨hf.le_buffer, hd⟩⟩
    exact hs.turn (by rw [hl, List.append_nil]) hp
  | some t =>
    dsimp only [Option.map_some]
    constructor
    · exact hs.called.concat rfl
    · intro x hx
      rcases List.mem_append.mp hx with hx | hx
      · exact hs.padded x hx
      · rw [List.mem_singleton.mp hx]
        exact ⟨hf.le_buffer, t, hd, rfl⟩
    · exact hs.sent
    · refine ⟨_, ?_, rfl, tracks_init⟩
      rw [hl]

theorem afterRead (hs : Serves handler h w) (hl : w.handled = w.answered.map Prod.fst)
    {r : Reading} (hf : Filled buffer r) : Serves handler h (w.afterRead handler r) := by
  have hl' : w.handled = w.answered.map Prod.fst ++ [] := by rw [hl, List.append_nil]
  unfold Worker.afterRead
  split
  · have hp : (Phase.reading r).Leaves [] := ⟨rfl, hf⟩
    exact hs.turn hl' hp
  · exact hs.handle hl hf
  · have hp : (Phase.ended .io r.received).Leaves [] := ⟨Nat.zero_le 1, fun he => by cases he⟩
    exact hs.turn hl' hp
  · have hp : (Phase.ended .panicked r.received).Leaves [] :=
      ⟨Nat.zero_le 1, fun he => by cases he⟩
    exact hs.turn hl' hp

theorem afterWrite (hs : Serves handler h w) {x : Exchange} {v : Writing}
    (hl : w.handled = w.answered.map Prod.fst ++ [x]) (ht : Tracks x.response.bytes v) :
    Serves handler h (w.afterWrite x v) := by
  unfold Worker.afterWrite
  split
  · have hp : (Phase.writing x v).Leaves [x] := ⟨rfl, ht⟩
    exact hs.turn hl hp
  · next ho =>
    refine ⟨hs.called, hs.padded, fun p hp => ?_, [], ?_, rfl⟩
    · rcases List.mem_append.mp hp with hp | hp
      · exact hs.sent p hp
      · rw [List.mem_singleton.mp hp]
        exact ht.ok ho
    · rw [List.map_append, List.append_nil]
      exact hl
  · have hp : (Phase.ended .io x.received).Leaves [x] :=
      ⟨Nat.le_refl 1, fun he => by cases he⟩
    exact hs.turn hl hp
  · have hp : (Phase.ended .panicked x.received).Leaves [x] :=
      ⟨Nat.le_refl 1, fun he => by cases he⟩
    exact hs.turn hl hp

theorem step (hs : Serves handler h w) (he : workerStep handler w e = some w') :
    Serves handler h w' := by
  have hb : buffer.length < 2^64 := by
    rw [length_buffer]
    decide
  obtain ⟨l, hl, hp⟩ := hs.inOrder
  unfold workerStep at he
  split at he
  · next hw =>
    rw [hw] at hp
    cases he
    have hp' : (Phase.reading (readRequest buffer).init).Leaves l := ⟨hp, .init⟩
    exact hs.turn hl hp'
  · next hw =>
    rw [hw] at hp
    have hp : l = [] := hp
    subst hp
    cases he
    have hp' : (Phase.ended .ok []).Leaves [] := ⟨Nat.zero_le 1, fun he => by cases he⟩
    exact hs.turn hl hp'
  · next r a hw =>
    rw [hw] at hp
    obtain ⟨rfl, hf⟩ := hp
    obtain ⟨r', hr, rfl⟩ := Option.map_eq_some_iff.mp he
    rw [List.append_nil] at hl
    exact hs.afterRead hl (hf.step hb hr)
  · next x v a hw =>
    rw [hw] at hp
    obtain ⟨rfl, ht⟩ := hp
    obtain ⟨v', hv, rfl⟩ := Option.map_eq_some_iff.mp he
    exact hs.afterWrite hl (ht.step hv)
  · cases he

theorem of_reachable (hr : (worker handler h).Reachable w) : Serves handler h w :=
  hr.invariant init (fun _ _ _ _ hi _ hs => hi.step hs)

end Serves

/-- the text that the handler is given for a text that fits into the buffer -/
def padded (t : Str) : Str := t ++ List.replicate (1024 - (encode t).length) '\x00'

/-- The parser makes of it the request that the client wrote, with the zeros behind the body. -/
theorem fromStr_padded {q : Benchmarks.Request} (hq : Readable q) :
    Tokio.fromStr (padded q.format) = .ok { ofRequest q with
      body := q.body ++ List.replicate (1024 - (encode q.format).length) '\x00' } :=
  fromStr_append (fromStr_format hq) _

theorem Exchange.Padded.request_eq {x : Exchange} (hx : x.Padded) {t : Str}
    (ht : x.received = encode t) : x.request = padded t := by
  obtain ⟨u, hu, hreq⟩ := hx.text
  rw [ht, decode_eq_some.mpr rfl] at hu
  cases hu
  rw [hreq, ht]
  rfl

/-! ## a request in one piece or in many -/

theorem run_pieces {r : Reading} (hw : w.phase = .reading r) (hf : Filled buffer r)
    (ho : r.outcome = none) {pieces : List (List UInt8)} (hne : ∀ l ∈ pieces, l ≠ [])
    (hle : r.received.length + pieces.flatten.length ≤ 1024) :
    ∃ r', (worker handler h).run w (pieces.map (fun l => .arrival (.read l))) =
        some { w with phase := .reading r' } ∧
      Filled buffer r' ∧ r'.outcome = none ∧ r'.received = r.received ++ pieces.flatten := by
  have hb : buffer.length < 2^64 := by
    rw [length_buffer]
    decide
  induction pieces generalizing w r with
  | nil => exact ⟨r, by rw [← hw]; rfl, hf, ho, by rw [List.flatten_nil, List.append_nil]⟩
  | cons l pieces ih =>
    rw [List.forall_mem_cons] at hne
    rw [List.flatten_cons, List.length_append] at hle
    have hl : r.received.length + l.length ≤ buffer.length := by
      rw [length_buffer]
      omega
    obtain ⟨r1, h1, ho1⟩ := readStep_read hb hf ho hne.1 hl
    have hrec : r1.received = r.received ++ l := received_step hb hf h1
    have hstep : (worker handler h).step w (.arrival (.read l)) =
        some { w with phase := .reading r1 } := by
      show workerStep handler w (.arrival (.read l)) = _
      unfold workerStep
      rw [hw]
      show (readStep r (.read l)).map (w.afterRead handler) = _
      rw [h1]
      show some (w.afterRead handler r1) = _
      unfold Worker.afterRead
      rw [ho1]
    have hle' : r1.received.length + pieces.flatten.length ≤ 1024 := by
      rw [hrec, List.length_append]
      omega
    obtain ⟨r2, h2, hf2, ho2, hrec2⟩ :=
      ih (w := { w with phase := .reading r1 }) rfl (hf.step hb h1) ho1 hne.2 hle'
    refine ⟨r2, ?_, hf2, ho2, ?_⟩
    · rw [List.map_cons, Machine.run_cons, hstep]
      exact h2
    · rw [hrec2, hrec, List.append_assoc, List.flatten_cons]

theorem run_refusals {x : Exchange} {v : Writing} (hw : w.phase = .writing x v)
    (ho : v.outcome = none) (k : ℕ) :
    (worker handler h).run w (List.replicate k (.attempt .wouldBlock)) = some w := by
  have hstep : (worker handler h).step w (.attempt .wouldBlock) = some w := by
    show workerStep handler w (.attempt .wouldBlock) = _
    unfold workerStep
    rw [hw]
    show (writeStep x.response.bytes v .wouldBlock).map (w.afterWrite x) = _
    rw [writeStep, if_pos ho]
    show some (w.afterWrite x v) = _
    unfold Worker.afterWrite
    rw [ho]
    show some { w with phase := .writing x v } = _
    rw [← hw]
  induction k with
  | zero => rfl
  | succ k ih =>
    rw [List.replicate_succ, Machine.run_cons, hstep]
    exact ih

/-- the step in which the last of the request is read -/
theorem step_handle {r : Reading} (hw : w.phase = .reading r) (hf : Filled buffer r)
    (ho : r.outcome = none) {t : Str} (ht : r.received = encode t) :
    (worker handler h).step w (.arrival .wouldBlock) = some
      ⟨(handler w.handler (padded t)).1,
        .writing ⟨encode t, padded t, (handler w.handler (padded t)).2⟩ (writeResponse
          (handler w.handler (padded t)).2.bytes).init,
        w.handled ++ [⟨encode t, padded t, (handler w.handler (padded t)).2⟩], w.answered⟩ := by
  have hd : decode r.buf = some (padded t) := by
    rw [hf.decode, ht, decode_eq_some.mpr rfl]
    rfl
  show workerStep handler w (.arrival .wouldBlock) = _
  unfold workerStep
  rw [hw]
  show (readStep r .wouldBlock).map (w.afterRead handler) = _
  rw [readStep_wouldBlock hf ho]
  show some (w.handle handler { r with outcome := some .ok }) = _
  unfold Worker.handle
  dsimp only
  rw [hd, ht]

/-- the step in which the socket takes the whole response -/
theorem step_answer {x : Exchange} (hw : w.phase = .writing x (writeResponse x.response.bytes).init)
    (hlt : x.response.bytes.length < 2^64) :
    (worker handler h).step w (.attempt (.wrote x.response.bytes.length)) = some
      { w with phase := .accepting, answered := w.answered ++ [(x, x.response.bytes)] } := by
  have hv : writeStep x.response.bytes (writeResponse x.response.bytes).init
      (.wrote x.response.bytes.length) =
      some ⟨0 + x.response.bytes.length, x.response.bytes, some .ok⟩ := by
    have hlt' : 0 + x.response.bytes.length < 2^64 := by omega
    have ho : (writeResponse x.response.bytes).init.outcome = none := rfl
    rw [writeStep, if_pos ho]
    dsimp only [writeResponse]
    rw [if_pos (Nat.le_refl _), if_pos hlt', if_pos (Nat.zero_add _), List.take_length,
      List.nil_append]
  show workerStep handler w (.attempt (.wrote x.response.bytes.length)) = _
  unfold workerStep
  rw [hw]
  show (writeStep x.response.bytes _ (.wrote x.response.bytes.length)).map (w.afterWrite x) = _
  rw [hv]
  rfl

/-- the run in which the request is there before the socket would block, cut in any way, and the
response is taken in one piece, after any number of refusals -/
theorem run_whole (hw : w.phase = .accepting) {t : Str} {pieces : List (List UInt8)}
    (hne : ∀ l ∈ pieces, l ≠ []) (hp : pieces.flatten = encode t) (hle : (encode t).length ≤ 1024)
    {x : Exchange} (hx : x = ⟨encode t, padded t, (handler w.handler (padded t)).2⟩)
    (hlt : x.response.bytes.length < 2^64) (k : ℕ) :
    (worker handler h).run w (.accepted :: pieces.map (fun l => .arrival (.read l)) ++
        .arrival .wouldBlock :: List.replicate k (.attempt .wouldBlock) ++
        [.attempt (.wrote x.response.bytes.length)]) =
      some ⟨(handler w.handler (padded t)).1, .accepting, w.handled ++ [x],
        w.answered ++ [(x, x.response.bytes)]⟩ := by
  let reading (r : Reading) : Worker H := { w with phase := .reading r }
  let writing : Worker H := ⟨(handler w.handler (padded t)).1,
    .writing x (writeResponse x.response.bytes).init, w.handled ++ [x], w.answered⟩
  have hfirst : (worker handler h).step w .accepted = some (reading (readRequest buffer).init) := by
    show workerStep handler w .accepted = _
    unfold workerStep
    rw [hw]
  obtain ⟨r, hread, hf, ho, hrec⟩ : ∃ r, (worker handler h).run (reading (readRequest buffer).init)
      (pieces.map (fun l => .arrival (.read l))) = some (reading r) ∧
      Filled buffer r ∧ r.outcome = none ∧ r.received = [] ++ pieces.flatten := by
    have hle' : 0 + pieces.flatten.length ≤ 1024 := by
      rw [hp, Nat.zero_add]
      exact hle
    exact run_pieces rfl .init rfl hne hle'
  have hmid : (worker handler h).step (reading r) (.arrival .wouldBlock) = some writing := by
    have hm : (worker handler h).step (reading r) (.arrival .wouldBlock) = _ :=
      step_handle rfl hf ho (hrec.trans hp)
    rw [hm]
    subst hx
    rfl
  have hrest : (worker handler h).run writing (List.replicate k (.attempt .wouldBlock)) =
      some writing := run_refusals rfl rfl k
  have hlast : (worker handler h).step writing (.attempt (.wrote x.response.bytes.length)) =
      some ⟨writing.handler, .accepting, w.handled ++ [x], w.answered ++ [(x, x.response.bytes)]⟩ :=
    step_answer rfl hlt
  rw [List.append_assoc, List.cons_append, Machine.run_cons, hfirst, Option.bind_some,
    Machine.run_append, hread, Option.bind_some, List.cons_append, Machine.run_cons, hmid,
    Option.bind_some, Machine.run_append, hrest, Option.bind_some, Machine.run_cons, hlast]
  rfl

end

/-- `GET / HTTP/1.1` without headers and body -/
def getRoot : Benchmarks.Request where
  body := []
  headers := []
  method := ['G', 'E', 'T']
  path := ['/']
  version := ['H', 'T', 'T', 'P', '/', '1', '.', '1']

theorem readable_getRoot : Readable getRoot where
  method := ⟨by decide, by decide⟩
  method_blank := by decide
  path := ⟨by decide, by decide⟩
  path_blank := by decide
  version := ⟨by decide, by decide⟩
  headers _ hh := absurd hh List.not_mem_nil

/-- counts the requests and answers the same -/
def hello (n : ℕ) (_ : Str) : ℕ × Response := (n + 1, .ofStr ['h', 'i'])

/-- what `hello` makes of it -/
def helloRoot : Exchange := ⟨encode getRoot.format, padded getRoot.format, .ofStr ['h', 'i']⟩

theorem reachable_hello : (worker hello 0).Reachable
    ⟨1, .accepting, [helloRoot], [(helloRoot, helloRoot.response.bytes)]⟩ := by
  have hne : ∀ l ∈ [encode getRoot.format], l ≠ [] := by decide
  have hw : (worker hello 0).init.phase = .accepting := rfl
  have hx : helloRoot = ⟨encode getRoot.format, padded getRoot.format,
      (hello (worker hello 0).init.handler (padded getRoot.format)).2⟩ := rfl
  have hlt : helloRoot.response.bytes.length < 2^64 := by decide
  have hrun := run_whole (h := 0) hw hne List.flatten_singleton (by decide) hx hlt 0
  exact Machine.Reach.init.run hrun (Machine.all_of_forall (fun _ _ _ => trivial) _ _)

section
variable {H : Type*} {handler : H → Str → H × Response} {h : H} {w : Worker H}

/-- **Whatever arrives, and however it is cut**, the handler is called on one text after the other,
each of them what came from one client before the socket blocked or the 1024 bytes were full, and
zeros; the responses are those of the handler, in this order, and all but the last have been sent,
as many bytes as they have.  The server ends with the error of UTF-8 only if what came was no text. -/
theorem worker_serves (hr : (worker handler h).Reachable w) :
    Answered handler h w.handled w.handler ∧
    (∀ x ∈ w.handled, x.Padded ∧ ∀ q, Readable q → x.received = encode q.format →
      Tokio.fromStr x.request = .ok { ofRequest q with
        body := q.body ++ List.replicate (1024 - x.received.length) '\x00' }) ∧
    (∀ p ∈ w.answered, p.2.length = p.1.response.bytes.length) ∧
    (∃ l, w.handled = w.answered.map Prod.fst ++ l ∧ l.length ≤ 1) ∧
    ∀ l, w.phase = .ended .utf8 l → l.length ≤ 1024 ∧ decode l = none := by
  have hs := Serves.of_reachable hr
  obtain ⟨l, hl, hp⟩ := hs.inOrder
  refine ⟨hs.called, fun x hx => ⟨hs.padded x hx, fun q hq he => ?_⟩, hs.sent, ⟨l, hl, ?_⟩, ?_⟩
  · rw [(hs.padded x hx).request_eq he, he]
    exact fromStr_padded hq
  · unfold Phase.Leaves at hp
    split at hp
    · rw [hp]
      exact Nat.zero_le 1
    · rw [hp.1]
      exact Nat.zero_le 1
    · rw [hp.1]
      exact Nat.le_refl 1
    · exact hp.1
  · intro l' hl'
    rw [hl'] at hp
    exact hp.2 rfl

end

/-- after the first request -/
theorem worker_serves_hello : Answered hello 0 [helloRoot] 1 ∧
    Tokio.fromStr helloRoot.request =
      .ok { ofRequest getRoot with body := [] ++ List.replicate 1006 '\x00' } := by
  have hs := worker_serves reachable_hello
  exact ⟨hs.1, (hs.2.1 helloRoot List.mem_cons_self).2 getRoot readable_getRoot rfl⟩

section
variable {H : Type*} {handler : H → Str → H × Response} {h : H} {w : Worker H}

/-- **A request is answered.**  However it is cut on its way, when it is there before the socket
would block the handler is given what the client wrote, with zeros behind the body; and when the
response is taken in one piece, after any number of refusals, the client reads what the handler
answered. -/
theorem serves_whole (hw : w.phase = .accepting) {q : Benchmarks.Request} (hq : Readable q)
    {pieces : List (List UInt8)} (hne : ∀ l ∈ pieces, l ≠ [])
    (hp : pieces.flatten = encode q.format) (hle : (encode q.format).length ≤ 1024) {h1 : H}
    {response : Response} (hh : handler w.handler (padded q.format) = (h1, response))
    (hlt : response.bytes.length < 2^64) (k : ℕ) :
    ∃ w' sent, (worker handler h).run w (.accepted :: pieces.map (fun l => .arrival (.read l)) ++
        .arrival .wouldBlock :: List.replicate k (.attempt .wouldBlock) ++
        [.attempt (.wrote response.bytes.length)]) = some w' ∧
      w'.phase = .accepting ∧ w'.handler = h1 ∧
      w'.answered = w.answered ++ [(⟨encode q.format, padded q.format, response⟩, sent)] ∧
      readMessage sent = some ((response.head, encode response.body), []) ∧
      Tokio.fromStr (padded q.format) = .ok { ofRequest q with
        body := q.body ++ List.replicate (1024 - (encode q.format).length) '\x00' } := by
  let x : Exchange := ⟨encode q.format, padded q.format, response⟩
  have hx : x = ⟨encode q.format, padded q.format, (handler w.handler (padded q.format)).2⟩ := by
    rw [hh]
  have hrun := run_whole (h := h) hw hne hp hle hx hlt k
  rw [hh] at hrun
  exact ⟨_, response.bytes, hrun, rfl, rfl, rfl,
    readMessage_eq response (List.append_nil _).symm, fromStr_padded hq⟩

end

/-- The request in two pieces, the response after one refusal. -/
theorem serves_whole_hello : ∃ w' sent, (worker hello 0).run (worker hello 0).init
      (.accepted :: [(encode getRoot.format).take 5, (encode getRoot.format).drop 5].map
        (fun l => .arrival (.read l)) ++ .arrival .wouldBlock ::
        List.replicate 1 (.attempt .wouldBlock) ++
        [.attempt (.wrote (Response.ofStr ['h', 'i']).bytes.length)]) = some w' ∧
    w'.handler = 1 ∧
    readMessage sent = some (((Response.ofStr ['h', 'i']).head, [104, 105]), []) := by
  have hne : ∀ l ∈ [(encode getRoot.format).take 5, (encode getRoot.format).drop 5], l ≠ [] := by
    decide
  have hw : (worker hello 0).init.phase = .accepting := rfl
  have hh : hello (worker hello 0).init.handler (padded getRoot.format) = (1, .ofStr ['h', 'i']) :=
    rfl
  have hlt : (Response.ofStr ['h', 'i']).bytes.length < 2^64 := by decide
  obtain ⟨w', sent, hrun, -, hc, -, hm, -⟩ :=
    serves_whole (h := 0) hw readable_getRoot hne (by decide) (by decide) hh hlt 1
  exact ⟨w', sent, hrun, hc, hm⟩

end Tokio
end Benchmarks
end Nea
