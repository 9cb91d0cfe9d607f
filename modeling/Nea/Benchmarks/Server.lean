import Nea.Lib.Machine

/-!
# The writer of the tokio benchmark

`write_response` loops until it has counted as many bytes as the response has.  Every round offers
the whole response to `try_write`, not the part that is still to be sent, so what a second
successful round sends is the front of the response again.

* `Attempt`                 what one round of the loop meets;
* `Writing`, `writeStep`    the loop; `accepted` is what the socket has taken, in order;
* `Tracks`                  the counter counts the bytes accepted, so `Ok` is returned when there
                            are as many of them as the response has;
* `Continues`               from every position reached the response goes on with its own front;
* `writeResponse_sends_iff` the response is sent, once and in order, exactly then.
-/

namespace Nea
namespace Benchmarks

/-- what one round of the loop meets -/
inductive Attempt where
  /-- `writable` fails -/
  | unwritable
  /-- `try_write` accepts `n` bytes -/
  | wrote (n : ℕ)
  | wouldBlock
  /-- `try_write` fails otherwise -/
  | failed
deriving DecidableEq

/-- the bytes an attempt takes off the slice offered -/
def Attempt.bytes : Attempt → ℕ
  | .wrote n => n
  | _ => 0

inductive Outcome where
  | ok
  | err
  /-- the counter overflows -/
  | panicked
deriving DecidableEq

/-- the call of `write_response` -/
structure Writing where
  bytesWritten : ℕ
  /-- the bytes accepted by the socket (for statements only; no code reads it) -/
  accepted : List UInt8
  outcome : Option Outcome
deriving DecidableEq

section
variable (response : List UInt8)

/-- one round of the loop; the slice offered is `response` -/
def writeStep (s : Writing) (a : Attempt) : Option Writing :=
  if s.outcome = none then
    match a with
    | .unwritable | .failed => some { s with outcome := some .err }
    | .wouldBlock => some s
    | .wrote n =>
      if n ≤ response.length then
        let s := { s with accepted := s.accepted ++ response.take n }
        if s.bytesWritten + n < 2^64 then
          let s := { s with bytesWritten := s.bytesWritten + n }
          if s.bytesWritten = response.length then some { s with outcome := some .ok } else some s
        else some { s with outcome := some .panicked }
      else none
  else none

def writeResponse : Machine Writing Attempt where
  init := ⟨0, [], none⟩
  step := writeStep response

/-- from every position reached, the response goes on with its own front: as many bytes of it as
the socket takes there -/
def Continues : ℕ → List Attempt → Prop
  | _, [] => True
  | t, a :: l => response.take a.bytes <+: response.drop t ∧ Continues (t + a.bytes) l

instance Continues.decidable : ∀ t l, Decidable (Continues response t l)
  | _, [] => isTrue trivial
  | t, a :: l =>
    have := Continues.decidable (t + a.bytes) l
    inferInstanceAs (Decidable (_ ∧ _))

end

section
variable {response : List UInt8} {s s' : Writing} {a : Attempt}

/-- what a round can do -/
inductive Round (response : List UInt8) (s : Writing) : Attempt → Writing → Prop where
  /-- nothing is accepted; the loop goes on or returns an error -/
  | idle {a : Attempt} (o : Option Outcome) (ha : a.bytes = 0) (ho : o ≠ some .ok) :
      Round response s a { s with outcome := o }
  | partly (n : ℕ) (hn : n ≤ response.length) (hne : s.bytesWritten + n ≠ response.length) :
      Round response s (.wrote n) ⟨s.bytesWritten + n, s.accepted ++ response.take n, none⟩
  | wholly (n : ℕ) (hn : n ≤ response.length) (he : s.bytesWritten + n = response.length) :
      Round response s (.wrote n) ⟨s.bytesWritten + n, s.accepted ++ response.take n, some .ok⟩
  | overflow (n : ℕ) (hn : n ≤ response.length) :
      Round response s (.wrote n) ⟨s.bytesWritten, s.accepted ++ response.take n, some .panicked⟩

theorem writeStep_cases (h : writeStep response s a = some s') :
    s.outcome = none ∧ Round response s a s' := by
  unfold writeStep at h
  split at h
  · next ho =>
    refine ⟨ho, ?_⟩
    cases a with
    | unwritable => cases h; exact .idle (some .err) rfl (fun he => by cases he)
    | failed => cases h; exact .idle (some .err) rfl (fun he => by cases he)
    | wouldBlock =>
      cases h
      have hr : Round response s .wouldBlock { s with outcome := none } :=
        .idle none rfl (fun he => by cases he)
      rw [← ho] at hr
      exact hr
    | wrote n =>
      dsimp only at h
      split at h
      · next hn =>
        split at h
        · split at h
          · next he => cases h; exact .wholly n hn he
          · next hne =>
            cases h
            rw [ho]
            exact .partly n hn hne
        · cases h; exact .overflow n hn
      · cases h
  · cases h

/-- Whatever the attempt, the socket is given the front of the response. -/
theorem writeStep_accepted (h : writeStep response s a = some s') :
    s'.accepted = s.accepted ++ response.take a.bytes := by
  cases (writeStep_cases h).2 with
  | idle o ha ho => rw [ha, List.take_zero, List.append_nil]
  | partly n hn hne => rfl
  | wholly n hn he => rfl
  | overflow n hn => rfl

theorem writeStep_bytes_le (h : writeStep response s a = some s') : a.bytes ≤ response.length := by
  cases (writeStep_cases h).2 with
  | idle o ha ho => rw [ha]; exact Nat.zero_le _
  | partly n hn hne => exact hn
  | wholly n hn he => exact hn
  | overflow n hn => exact hn

/-- what the counter says of the bytes accepted -/
structure Tracks (response : List UInt8) (s : Writing) : Prop where
  le : s.bytesWritten ≤ s.accepted.length
  eq : s.outcome = none → s.bytesWritten = s.accepted.length
  ok : s.outcome = some .ok → s.accepted.length = response.length

theorem tracks_init : Tracks response (writeResponse response).init :=
  ⟨Nat.le_refl 0, fun _ => rfl, fun h => by cases h⟩

theorem Tracks.step (ht : Tracks response s) (h : writeStep response s a = some s') :
    Tracks response s' := by
  obtain ⟨ho, hr⟩ := writeStep_cases h
  have heq := ht.eq ho
  have hlen (n : ℕ) (hn : n ≤ response.length) :
      s.bytesWritten + n = (s.accepted ++ response.take n).length := by
    rw [List.length_append, List.length_take, Nat.min_eq_left hn, heq]
  cases hr with
  | idle o ha ho' => exact ⟨ht.le, fun _ => heq, fun he => absurd he ho'⟩
  | partly n hn hne => exact ⟨Nat.le_of_eq (hlen n hn), fun _ => hlen n hn, fun he => by cases he⟩
  | wholly n hn he =>
    exact ⟨Nat.le_of_eq (hlen n hn), fun hc => (by cases hc), fun _ => (hlen n hn).symm.trans he⟩
  | overflow n hn =>
    have hle := Nat.le_trans (Nat.le_add_right s.bytesWritten n) (Nat.le_of_eq (hlen n hn))
    exact ⟨hle, fun hc => (by cases hc), fun hc => by cases hc⟩

/-- The socket has a front of the response after a round exactly when it had one before and the
response goes on, there, with the bytes of the round. -/
theorem prefix_step (hp : s.accepted <+: response) (h : writeStep response s a = some s') :
    s'.accepted <+: response ↔ response.take a.bytes <+: response.drop s.accepted.length := by
  obtain ⟨t, ht⟩ := hp
  have hd : response.drop s.accepted.length = t := by rw [← ht, List.drop_left]
  calc s'.accepted <+: response
      ↔ s.accepted ++ response.take a.bytes <+: s.accepted ++ t := by
        rw [writeStep_accepted h, ht]
    _ ↔ response.take a.bytes <+: t := List.prefix_append_right_inj _
    _ ↔ response.take a.bytes <+: response.drop s.accepted.length := by rw [hd]

theorem length_step (h : writeStep response s a = some s') :
    s'.accepted.length = s.accepted.length + a.bytes := by
  rw [writeStep_accepted h, List.length_append, List.length_take,
    Nat.min_eq_left (writeStep_bytes_le h)]

/-- the response goes on, behind what the socket has, with the bytes of the next attempt -/
def GoesOn (response : List UInt8) (s : Writing) (a : Attempt) : Prop :=
  response.take a.bytes <+: response.drop s.accepted.length

/-- As long as the response goes on the socket has a front of it. -/
theorem reach_prefix (h : (writeResponse response).Reach (GoesOn response) s) :
    Tracks response s ∧ s.accepted <+: response := by
  refine h.invariant (I := fun s => Tracks response s ∧ s.accepted <+: response)
    ⟨tracks_init, List.nil_prefix⟩ (fun s a s' _ hi ho hs => ?_)
  exact ⟨hi.1.step hs, (prefix_step hi.2 hs).mpr ho⟩

theorem all_goesOn_iff {l : List Attempt} {s1 : Writing}
    (hr : (writeResponse response).run s l = some s1) :
    (writeResponse response).All (fun s a _ => GoesOn response s a) s l ↔
      Continues response s.accepted.length l := by
  induction l generalizing s with
  | nil => exact Iff.rfl
  | cons a l ih =>
    rw [Machine.run_cons] at hr
    obtain ⟨s', hs, hr'⟩ := Option.bind_eq_some_iff.mp hr
    rw [Machine.all_cons hs, Continues, ih hr', length_step hs]
    rfl

/-- attempts at which the socket takes nothing do not matter -/
theorem continues_idle {l : List Attempt} (h : ∀ a ∈ l, a.bytes = 0) (t : ℕ) (l' : List Attempt) :
    Continues response t (l ++ l') ↔ Continues response t l' := by
  induction l with
  | nil => exact Iff.rfl
  | cons a l ih =>
    rw [List.forall_mem_cons] at h
    rw [List.cons_append, Continues, h.1, List.take_zero, Nat.add_zero, ih h.2]
    exact and_iff_right List.nil_prefix

/-- A response that the socket takes in one piece goes on at no other position. -/
theorem continues_one_piece {l l' : List Attempt} (hl : ∀ a ∈ l, a.bytes = 0)
    (hl' : ∀ a ∈ l', a.bytes = 0) (a : Attempt) : Continues response 0 (l ++ a :: l') := by
  have h' : Continues response (0 + a.bytes) (l' ++ []) := (continues_idle hl' _ []).mpr trivial
  rw [List.append_nil] at h'
  exact (continues_idle hl 0 _).mpr ⟨List.take_prefix _ _, h'⟩

/-- **The response is sent once and in order** exactly when, at every position at which the socket
takes bytes, the response goes on with its own front: in one piece always, in several pieces only
if it repeats itself. -/
theorem writeResponse_sends_iff {l : List Attempt} {s : Writing}
    (hr : (writeResponse response).run (writeResponse response).init l = some s) :
    ((s.outcome = some .ok → s.accepted = response) ∧
      (writeResponse response).All (fun _ _ s' =>
        s'.accepted <+: response ∧ s'.bytesWritten ≤ response.length)
        (writeResponse response).init l) ↔
    Continues response 0 l := by
  have hstep (s s' : Writing) (a : Attempt)
      (h : (writeResponse response).Reach (GoesOn response) s)
      (hs : (writeResponse response).step s a = some s') :
      s'.accepted <+: response ∧ s'.bytesWritten ≤ response.length ↔ GoesOn response s a := by
    obtain ⟨ht, hp⟩ := reach_prefix h
    have hle := (ht.step hs).le
    rw [GoesOn, ← prefix_step hp hs]
    exact ⟨And.left, fun hp' => ⟨hp', Nat.le_trans hle hp'.length_le⟩⟩
  have hall := Machine.all_iff (fun s a s' => hstep s s' a) .init l
  have hgo := all_goesOn_iff hr
  constructor
  · exact fun h => hgo.mp (hall.mp h.2)
  · intro h
    obtain ⟨ht, hp⟩ := reach_prefix (Machine.Reach.init.run hr (hgo.mpr h))
    exact ⟨fun ho => hp.eq_of_length (ht.ok ho), hall.mpr (hgo.mpr h)⟩

end

/-- the response with an empty body:
`HTTP/1.1 200 OK`, `Content-Type: text/plain; charset=utf-8`, `Content-Length: 0` -/
def emptyBody : List UInt8 :=
  [72, 84, 84, 80, 47, 49, 46, 49, 32, 50, 48, 48, 32, 79, 75, 13, 10, 67, 111, 110, 116, 101,
   110, 116, 45, 84, 121, 112, 101, 58, 32, 116, 101, 120, 116, 47, 112, 108, 97, 105, 110, 59,
   32, 99, 104, 97, 114, 115, 101, 116, 61, 117, 116, 102, 45, 56, 13, 10, 67, 111, 110, 116, 101,
   110, 116, 45, 76, 101, 110, 103, 116, 104, 58, 32, 48, 13, 10, 13, 10]

/-- in one piece, after the socket has refused it once -/
theorem writeResponse_sends_iff_whole :
    ((writeResponse emptyBody).final [.wouldBlock, .wrote 79]).accepted = emptyBody := by
  have hr : (writeResponse emptyBody).run (writeResponse emptyBody).init
      [.wouldBlock, .wrote 79] = some ((writeResponse emptyBody).final [.wouldBlock, .wrote 79]) :=
    by decide
  exact ((writeResponse_sends_iff hr).mpr (by decide)).1 (by decide)

/-- In two pieces the second starts with the front again: after `HTTP/1.1` the other 71 bytes are
the first 71, and `Ok` is returned.  A socket that then takes all it is offered is past the exit. -/
theorem front_sent_again :
    ((writeResponse emptyBody).final [.wrote 8, .wrote 71]).outcome = some .ok ∧
    ((writeResponse emptyBody).final [.wrote 8, .wrote 71]).accepted =
      emptyBody.take 8 ++ emptyBody.take 71 ∧
    ((writeResponse emptyBody).final [.wrote 8, .wrote 71]).accepted ≠ emptyBody ∧
    ((writeResponse emptyBody).final [.wrote 8, .wrote 79]).outcome = none ∧
    emptyBody.length < ((writeResponse emptyBody).final [.wrote 8, .wrote 79]).bytesWritten := by
  decide

end Benchmarks
end Nea
