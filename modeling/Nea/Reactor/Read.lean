import Nea.Reactor.PollIo

/-!
# What `poll_read` delivers

`poll_read` asks the socket through the retry loop of `poll_io`, into a buffer of its own, and copies
what came into the cursor of its caller.  The cursor is hyper's.

* `ReadBufCursor`     what `poll_read` uses of a cursor, and `ReadBufCursor.Lawful` what it relies on;
* `Io.read`           a call of the socket;
* `pollRead`          the call, with its slices; `none` is a slice out of range;
* `pollRead_carries`, `reads_deliver`   one call, and any sequence of calls;
* `ReadBuf`, `Script`   a cursor and a socket to run them with.
-/

set_option linter.unusedSectionVars false

namespace Nea
namespace Reactor

/-! ## slices and cursors -/

/-- `l[..n]` -/
def slicePrefix {α : Type} (l : List α) (n : ℕ) : Option (List α) :=
  if n ≤ l.length then some (l.take n) else none

/-- `l[..n]` is overwritten -/
def overwrite {α : Type} (l : List α) (n : ℕ) (new : List α) : List α := new ++ l.drop n

/-- `copy_from_slice` panics on different lengths -/
def copyFromSlice {α : Type} (dst src : List α) : Option (List α) :=
  if dst.length = src.length then some src else none

/-- what is used of hyper's `ReadBufCursor`; `none` is a byte that is not initialized.  `write` is
what becomes of a cursor when somebody has written through the slice of `as_mut`; `filled`, the bytes
of the buffer that count as filled, is for statements only -/
structure ReadBufCursor (C : Type) where
  asMut : C → List (Option UInt8)
  write : C → List (Option UInt8) → C
  advance : C → ℕ → Option C
  filled : C → List UInt8

/-- `as_mut` is the part of the buffer that is not filled, and `advance` counts its next bytes as
filled if they are initialized -/
structure ReadBufCursor.Lawful {C : Type} (B : ReadBufCursor C) : Prop where
  asMut_write : ∀ c new, new.length = (B.asMut c).length → B.asMut (B.write c new) = new
  filled_write : ∀ c new, new.length = (B.asMut c).length → B.filled (B.write c new) = B.filled c
  advance : ∀ c bytes rest, B.asMut c = bytes.map some ++ rest →
    ∃ c', B.advance c bytes.length = some c' ∧ B.filled c' = B.filled c ++ bytes ∧ B.asMut c' = rest

/-- the first `n` bytes of `tmp_buf` are copied to the cursor, which is then advanced -/
def ReadBufCursor.deliver {C : Type} (B : ReadBufCursor C) (buf : C) (tmp : List UInt8) (n : ℕ) :
    Option C := do
  let bufMut := B.asMut buf
  let dst ← slicePrefix bufMut n
  let src ← slicePrefix (tmp.map some) n
  let new ← copyFromSlice dst src
  B.advance (B.write buf (overwrite bufMut n new)) n

/-! ## a cursor and a socket -/

/-- a buffer with the filled part apart -/
structure ReadBuf where
  filled : List UInt8
  unfilled : List (Option UInt8)
deriving DecidableEq

/-- the cursor of a buffer -/
def ReadBuf.cursor : ReadBufCursor ReadBuf where
  asMut c := c.unfilled
  write c new := { c with unfilled := new }
  advance c n :=
    if n ≤ c.unfilled.length then
      ((c.unfilled.take n).mapM id).map (fun bytes => ⟨c.filled ++ bytes, c.unfilled.drop n⟩)
    else none
  filled c := c.filled

theorem mapM_map_some {α : Type} (l : List α) : (l.map some).mapM id = some l := by
  induction l with
  | nil => rfl
  | cons a l ih =>
    rw [List.map_cons, List.mapM_cons, ih]
    rfl

theorem ReadBuf.cursor_lawful : ReadBuf.cursor.Lawful where
  asMut_write _ _ _ := rfl
  filled_write _ _ _ := rfl
  advance c bytes rest h := by
    have h : c.unfilled = bytes.map some ++ rest := h
    have hlen : (bytes.map some).length = bytes.length := List.length_map some
    refine ⟨⟨c.filled ++ bytes, rest⟩, ?_, rfl, rfl⟩
    show (if bytes.length ≤ c.unfilled.length then _ else none) = _
    rw [h, List.take_left' hlen, List.drop_left' hlen, mapM_map_some,
      if_pos (by rw [List.length_append, hlen]; omega)]
    rfl

/-- a socket that follows a script: what its reads bring, what its writes accept, and the events
that the reactor handles at each moment; without a line of the script left a call would block -/
structure Script where
  chunks : List (Except IoError (List UInt8))
  accepts : List (Except IoError ℕ)
  ticks : List (List Direction)

def Script.environment : Environment Script where
  tick e := ({ e with ticks := e.ticks.tail }, e.ticks.headD [])
  read e buf :=
    match e.chunks with
    | [] => (e, buf, .error .wouldBlock)
    | .error k :: cs => ({ e with chunks := cs }, buf, .error k)
    | .ok bytes :: cs =>
      -- what does not fit waits for the next read
      let n := min bytes.length buf.length
      let cs := if n < bytes.length then .ok (bytes.drop n) :: cs else cs
      ({ e with chunks := cs }, overwrite buf n (bytes.take n), .ok n)
  write e buf :=
    match e.accepts with
    | [] => (e, .error .wouldBlock)
    | .error k :: as => ({ e with accepts := as }, .error k)
    | .ok n :: as => ({ e with accepts := as }, .ok (min n buf.length))
  flush e := (e, .ok ())
  shutdown e := (e, .ok ())

theorem Script.reads : Script.environment.Reads where
  length e buf := by
    show (Script.environment.read e buf).2.1.length = buf.length
    unfold Script.environment
    dsimp only
    split
    · rfl
    · rfl
    · simp only [overwrite, List.length_append, List.length_take, List.length_drop]
      omega
  le e buf n h := by
    unfold Script.environment at h
    dsimp only at h
    split at h
    · cases h
    · cases h
    · cases h
      exact Nat.min_le_right _ _

theorem Script.writes : Script.environment.Writes := by
  intro e buf n h
  unfold Script.environment at h
  dsimp only at h
  split at h
  · cases h
  · cases h
  · cases h
    exact Nat.min_le_right _ _

/-! ## the calls -/

section
variable {ε K C : Type} [DecidableEq K] (E : Environment ε) (B : ReadBufCursor C)

/-- `(&self.tcp_stream).read(buf)` -/
def Io.read (s : Io ε K) (buf : List UInt8) : Io ε K × List UInt8 × Except IoError ℕ :=
  let (env, buf, val) := E.read s.env buf
  let received := match val with
    | .ok n => buf.take n
    | .error _ => []
  ({ s with env := env, taken := s.taken ++ received }, buf, val)

/-- `TMP_BUF_LEN` -/
def tmpBufLen : ℕ := 1024

/-- the closure of `poll_read`, with `tmp_buf` captured -/
def readTmp (remaining : ℕ) (s : Io ε K) (tmp : List UInt8) :
    Option (Io ε K × List UInt8 × Except IoError ℕ) := do
  let slice ← slicePrefix tmp remaining
  let (s, slice, val) := s.read E slice
  some (s, overwrite tmp remaining slice, val)

/-- `poll_read` -/
def pollRead (rounds : ℕ) (s : Io ε K) (w : K) (buf : C) :
    Option (Io ε K × C × Option (Poll (Except IoError Unit))) := do
  let tmp := List.replicate tmpBufLen 0
  let remaining := min (B.asMut buf).length tmpBufLen
  let (s, tmp, poll) ← pollIo E .read w (readTmp E remaining) rounds s tmp
  match poll with
  | none => some (s, buf, none)
  | some .pending => some (s, buf, some .pending)
  | some (.ready (.error e)) => some (s, buf, some (.ready (.error e)))
  | some (.ready (.ok n)) =>
    let buf ← B.deliver buf tmp n
    some (s, buf, some (.ready (.ok ())))

/-- a call of `poll_read`: how many rounds it is watched for, its waker and its cursor -/
structure Request (K C : Type) where
  rounds : ℕ
  waker : K
  buf : C

/-- what a call did: its cursor before and after, its answer, and the bytes that reads of the socket
returned in the meantime -/
structure Answer (C : Type) where
  before : C
  after : C
  poll : Option (Poll (Except IoError Unit))
  consumed : List UInt8

/-- the bytes that the call has appended to its cursor -/
def Answer.appended (a : Answer C) : List UInt8 :=
  (B.filled a.after).drop (B.filled a.before).length

/-- calls of `poll_read`, one after the other -/
def reads (s : Io ε K) (rs : List (Request K C)) : Option (Io ε K × List (Answer C)) :=
  inTurn (fun s r => (pollRead E B r.rounds s r.waker r.buf).map fun (s', buf, poll) =>
    (s', ⟨r.buf, buf, poll, s'.taken.drop s.taken.length⟩)) (fun a => a.poll.isSome) s rs

end

/-! ## one call -/

section
variable {ε K C : Type} [DecidableEq K] {E : Environment ε} {B : ReadBufCursor C}

/-- a call of the socket -/
theorem Io.read_spec (hE : E.Reads) (d : Direction) (s : Io ε K) (buf : List UInt8) :
    ∃ s' buf' val, s.read E buf = (s', buf', val) ∧ buf'.length = buf.length ∧
      (∀ n, val = .ok n → n ≤ buf.length ∧ Carries d s s' (buf'.take n) []) ∧
      (∀ e, val = .error e → Carries d s s' [] []) := by
  have hlen := hE.length s.env buf
  have hle := hE.le s.env buf
  unfold Io.read
  rcases hread : E.read s.env buf with ⟨env, buf', val⟩
  rw [hread] at hlen hle
  refine ⟨_, buf', val, rfl, hlen, fun n e => ?_, fun e he => ?_⟩
  · subst e
    exact ⟨hle n rfl, Carries.take env _⟩
  · subst he
    exact Carries.take env []

/-- an attempt of the closure of `poll_read` -/
theorem readTmp_spec (hE : E.Reads) {remaining : ℕ} (hr : remaining ≤ tmpBufLen) (s : Io ε K)
    {tmp : List UInt8} (htmp : tmp.length = tmpBufLen) :
    ∃ s' tmp' val, readTmp E remaining s tmp = some (s', tmp', val) ∧ tmp'.length = tmpBufLen ∧
      (∀ n, val = .ok n → n ≤ remaining ∧ Carries .read s s' (tmp'.take n) []) ∧
      (∀ e, val = .error e → Carries .read s s' [] []) := by
  have hslice : slicePrefix tmp remaining = some (tmp.take remaining) := if_pos (by omega)
  have htake : (tmp.take remaining).length = remaining := by
    rw [List.length_take]
    omega
  obtain ⟨s', slice, val, hread, hlen, hok, herr⟩ := s.read_spec hE .read (tmp.take remaining)
  rw [htake] at hlen hok
  unfold readTmp
  simp only [hslice, hread, Option.bind_eq_bind, Option.bind_some]
  refine ⟨s', _, val, rfl, ?_, fun n e => ?_, herr⟩
  · rw [overwrite, List.length_append, List.length_drop]
    omega
  · -- what the read has written is the front of the buffer
    obtain ⟨hn, hc⟩ := hok n e
    rw [overwrite, List.take_append_of_le_length (by omega)]
    exact ⟨hn, hc⟩

/-- what has been copied is appended -/
theorem ReadBufCursor.Lawful.deliver (hB : B.Lawful) {buf : C} {tmp : List UInt8} {n : ℕ}
    (hn : n ≤ (B.asMut buf).length) (htmp : n ≤ tmp.length) :
    ∃ buf', B.deliver buf tmp n = some buf' ∧ B.filled buf' = B.filled buf ++ tmp.take n ∧
      B.asMut buf' = (B.asMut buf).drop n := by
  have hdst : slicePrefix (B.asMut buf) n = some ((B.asMut buf).take n) := if_pos hn
  have hsrc : slicePrefix (tmp.map some) n = some ((tmp.take n).map some) := by
    rw [List.map_take]
    exact if_pos (by simpa using htmp)
  have hlen : (tmp.take n).length = n := List.length_take_of_le htmp
  have hcopy : copyFromSlice ((B.asMut buf).take n) ((tmp.take n).map some) =
      some ((tmp.take n).map some) := by
    refine if_pos ?_
    rw [List.length_map, hlen, List.length_take_of_le hn]
  have hnew : (overwrite (B.asMut buf) n ((tmp.take n).map some)).length = (B.asMut buf).length := by
    rw [overwrite, List.length_append, List.length_map, hlen, List.length_drop]
    omega
  obtain ⟨buf', hadv, hfilled, hrest⟩ :=
    hB.advance _ (tmp.take n) ((B.asMut buf).drop n) (hB.asMut_write buf _ hnew)
  have hkept : B.filled (B.write buf (overwrite (B.asMut buf) n ((tmp.take n).map some))) =
      B.filled buf := hB.filled_write buf _ hnew
  rw [hlen] at hadv
  refine ⟨buf', ?_, hfilled.trans (by rw [← hkept, overwrite]), hrest⟩
  unfold ReadBufCursor.deliver
  simp only [hdst, hsrc, hcopy, Option.bind_eq_bind, Option.bind_some]
  exact hadv

/-- **One call.**  Slices are in range; the bytes that come from the socket are appended, and a call
that does not answer with success has taken nothing and left its cursor alone. -/
theorem pollRead_carries (hE : E.Reads) (hB : B.Lawful) (rounds : ℕ) (s : Io ε K) (w : K) (buf : C) :
    ∃ s' buf' p bytes, pollRead E B rounds s w buf = some (s', buf', p) ∧
      Carries .read s s' bytes [] ∧ B.filled buf' = B.filled buf ++ bytes ∧
      B.asMut buf' = (B.asMut buf).drop bytes.length ∧
      (p ≠ some (.ready (.ok ())) → buf' = buf ∧ bytes = []) ∧
      (p = some .pending → s.source.isSome → s'.Armed .read w) := by
  have hr : min (B.asMut buf).length tmpBufLen ≤ tmpBufLen := Nat.min_le_right _ _
  have hrem : min (B.asMut buf).length tmpBufLen ≤ (B.asMut buf).length := Nat.min_le_left _ _
  unfold pollRead
  dsimp only
  generalize min (B.asMut buf).length tmpBufLen = remaining at hr hrem
  -- along the retries nothing is taken; the attempt that ends them leaves its bytes in front
  obtain ⟨s', tmp', p, hp, hok, helse, harm⟩ := pollIo_rule (E := E) (s := s) (d := .read) (w := w)
    (I := fun tmp => tmp.length = tmpBufLen)
    (R := fun tmp n r v => n ≤ remaining ∧ tmp.length = tmpBufLen ∧ r = tmp.take n ∧ v = [])
    (f := readTmp E remaining)
    (fun s1 tmp hl => by
      obtain ⟨s2, tmp2, val, h2, hl2, hok2, herr2⟩ := readTmp_spec hE hr s1 hl
      refine ⟨s2, tmp2, val, h2, fun n e => ?_, fun e he => ⟨herr2 e he, hl2⟩⟩
      exact ⟨tmp2.take n, [], (hok2 n e).2, (hok2 n e).1, hl2, rfl, rfl⟩)
    rounds (x := List.replicate tmpBufLen 0) List.length_replicate
  simp only [hp, Option.bind_eq_bind, Option.bind_some]
  match p, hok, helse, harm with
  | none, _, helse, harm =>
    exact ⟨s', buf, none, [], rfl, (helse fun a e => by cases e).1, (List.append_nil _).symm, rfl,
      fun _ => ⟨rfl, rfl⟩, fun e => by cases e⟩
  | some .pending, _, helse, harm =>
    exact ⟨s', buf, some .pending, [], rfl, (helse fun a e => by cases e).1,
      (List.append_nil _).symm, rfl, fun _ => ⟨rfl, rfl⟩, fun _ => harm rfl⟩
  | some (.ready (.error e)), _, helse, _ =>
    exact ⟨s', buf, some (.ready (.error e)), [], rfl, (helse fun a e => by cases e).1,
      (List.append_nil _).symm, rfl, fun _ => ⟨rfl, rfl⟩, fun e => by cases e⟩
  | some (.ready (.ok n)), hok, _, _ =>
    obtain ⟨r, v, hc, hn, hl, rfl, rfl⟩ := hok n rfl
    obtain ⟨buf', hdel, hfilled, hrest⟩ := hB.deliver (hn.trans hrem) (by omega : n ≤ tmp'.length)
    refine ⟨s', buf', some (.ready (.ok ())), tmp'.take n, ?_, hc, hfilled, ?_,
      fun hne => absurd rfl hne, fun e => by cases e⟩
    · simp only [hdel, Option.bind_some]
    · rw [List.length_take_of_le (by omega)]
      exact hrest

/-! ## any sequence of calls -/

/-- what is proved of a single call in a sequence -/
structure Answer.Intact (B : ReadBufCursor C) (a : Answer C) : Prop where
  appended : B.filled a.after = B.filled a.before ++ a.appended B
  rest : B.asMut a.after = (B.asMut a.before).drop (a.appended B).length
  consumed : a.appended B = a.consumed
  nothing : a.poll ≠ some (.ready (.ok ())) → a.after = a.before ∧ a.consumed = []

/-- **The stream of the socket arrives intact**: no call leaves the range of a slice, the bytes
appended by the calls, one call after the other, are the bytes that reads of the socket returned, and
a call that answers `Pending` or an error appends nothing and has taken nothing. -/
theorem reads_deliver (hE : E.Reads) (hB : B.Lawful) (s : Io ε K) (rs : List (Request K C)) :
    ∃ s' answers, reads E B s rs = some (s', answers) ∧
      s'.taken = s.taken ++ answers.flatMap (fun a => a.appended B) ∧
      ∀ a ∈ answers, a.Intact B := by
  refine inTurn_rule (I := fun _ => True)
    (R := fun (s : Io ε K) (answers : List (Answer C)) (s' : Io ε K) =>
      s'.taken = s.taken ++ answers.flatMap (fun a => a.appended B) ∧ ∀ a ∈ answers, a.Intact B)
    (fun s => ⟨(List.append_nil _).symm, fun a ha => absurd ha List.not_mem_nil⟩) ?_ rs trivial
  intro s r _
  obtain ⟨s', buf, p, bytes, hcall, hc, hfilled, hrest, hne, -⟩ :=
    pollRead_carries hE hB r.rounds s r.waker r.buf
  have hcons : s'.taken.drop s.taken.length = bytes := by rw [hc.taken, List.drop_left]
  have happ : (Answer.mk r.buf buf p bytes).appended B = bytes := by
    show (B.filled buf).drop (B.filled r.buf).length = bytes
    rw [hfilled, List.drop_left]
  have hintact : (Answer.mk r.buf buf p bytes).Intact B := by
    refine ⟨?_, ?_, happ, hne⟩
    · rw [happ]
      exact hfilled
    · rw [happ]
      exact hrest
  refine ⟨s', ⟨r.buf, buf, p, bytes⟩, ?_, trivial, fun as s'' h => ⟨?_, fun a ha => ?_⟩⟩
  · simp only [hcall, Option.map_some, hcons]
  · rw [List.flatMap_cons, happ, h.1, hc.taken, List.append_assoc]
  · rcases List.mem_cons.mp ha with rfl | ha
    · exact hintact
    · exact h.2 a ha

end

/-- a stream whose socket brings five bytes, blocks, brings a sixth and fails, with events in
between -/
def conversation : Io Script ℕ where
  env :=
    { chunks := [.ok [1, 2, 3, 4, 5], .error .wouldBlock, .ok [6], .error (.other 3)]
      accepts := []
      ticks := [[], [], [.write, .read], [], [], [], [.read]] }
  source := some .new
  taken := []
  sent := []
  events _ := 0

/-- calls with cursors for three bytes, for none, for more than `TMP_BUF_LEN` and for two -/
def requests : List (Request ℕ ReadBuf) :=
  [⟨9, 7, ⟨[], [none, none, none]⟩⟩, ⟨9, 7, ⟨[], [none, some 8, none]⟩⟩, ⟨9, 7, ⟨[9], []⟩⟩,
    ⟨9, 7, ⟨[9], List.replicate 1030 none⟩⟩, ⟨9, 5, ⟨[], [none, none]⟩⟩,
    ⟨9, 5, ⟨[], [none, none]⟩⟩, ⟨9, 5, ⟨[], [none, none]⟩⟩]

/-- The first call finds no event; the fifth one tries twice. -/
theorem reads_deliver_scripted : ∃ s' answers,
    reads Script.environment ReadBuf.cursor conversation requests = some (s', answers) ∧
      answers.map (fun a => (a.poll, a.appended ReadBuf.cursor)) =
        [(some .pending, []), (some (.ready (.ok ())), [1, 2, 3]), (some (.ready (.ok ())), []),
          (some (.ready (.ok ())), [4, 5]), (some (.ready (.ok ())), [6]),
          (some (.ready (.error (.other 3))), []), (some .pending, [])] ∧
      s'.taken = answers.flatMap (fun a => a.appended ReadBuf.cursor) ∧
      ∀ a ∈ answers, a.Intact ReadBuf.cursor := by
  obtain ⟨s', answers, h, ht, hall⟩ :=
    reads_deliver Script.reads ReadBuf.cursor_lawful conversation requests
  have hrun : (reads Script.environment ReadBuf.cursor conversation requests).map
      (fun r => r.2.map fun a => (a.poll, a.appended ReadBuf.cursor)) =
      some [(some .pending, []), (some (.ready (.ok ())), [1, 2, 3]), (some (.ready (.ok ())), []),
        (some (.ready (.ok ())), [4, 5]), (some (.ready (.ok ())), [6]),
        (some (.ready (.error (.other 3))), []), (some .pending, [])] := by decide +kernel
  rw [h] at hrun
  exact ⟨s', answers, h, Option.some.inj hrun, ht, hall⟩

end Reactor
end Nea
