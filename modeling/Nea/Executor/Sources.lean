import Nea.Executor.Streams
import Nea.Executor.Restore

/-!
# A live stream has its source

A place of `sources` is used again for every request and every connection of a slot.  That there is
never more than one stream for it follows from the life of the slot: a bucket is claimed when its
count is zero, a slot is reserved when it is empty, and until then the future that owned the last
stream has been dropped.

* `Owner.Stands`      the future that owns a stream is stored, or may still be being dropped;
* `Server.Admitted`   the runs: no missing future is taken up, and streams are dropped no later than
                      their owners;
* `Server.Apart`      a handshake registers under a queue index that is no other task's;
* `Sourced`           the invariant: streams and calls of `register`, and the places they fill;
* `streams_sourced`   every live stream has the source of its own call of `register`.
-/

set_option linter.unusedSectionVars false

namespace Nea

/-! ## who owns a stream -/

/-- destructors of the main future or of connections may still have to run -/
def TaskPc.unfinished : TaskPc → Bool
  | .mainTaken _ => true
  | .mainClosing _ _ => true
  | .mainDropping _ => true
  | .connDropping _ _ => true
  | .unwinding _ _ => true
  | .poisoned _ _ => true
  | .cleanup _ _ .wipe => false
  | .cleanup _ _ .release => false
  | .cleanup _ _ _ => true
  | _ => false

/-- the owner is where it is polled -/
def Owner.stored (v : Bucket) : Owner → Bool
  | .conn _ i => decide ((v.connections i).val = .occupied)
  | _ => v.future.val.isSome

/-- the job bit of the task that the stream is registered for -/
def Owner.offset (r : IoResources) (o : Owner) : ℕ :=
  match o.slot with
  | none => 0
  | some i => r.tcpStreams + i

/-- the queue index of a connection is not that of the main future, and the index of the connection
is not cut off by the cast to `u32` -/
def Owner.Apart (cfg : Cfg) : Owner → Prop
  | .main _ => True
  | .handshake b i => 0 < cfg.io.tcpStreams + i ∧ cfg.io.httpStart b + i < 2^32
  | .conn b i => 0 < cfg.io.tcpStreams + i ∧ cfg.io.httpStart b + i < 2^32

instance (cfg : Cfg) : ∀ o : Owner, Decidable (o.Apart cfg)
  | .main _ => isTrue trivial
  | .handshake _ _ => inferInstanceAs (Decidable (_ ∧ _))
  | .conn _ _ => inferInstanceAs (Decidable (_ ∧ _))

/-- `i` is the place of the streams of owner `o` -/
structure Owner.Placed (cfg : Cfg) (o : Owner) (i : UInt32) : Prop where
  index : i.toNat = o.bucket * cfg.io.perBucket + o.offset cfg.io
  offset_lt : o.offset cfg.io < cfg.io.perBucket
  pos : o.slot ≠ none → 0 < o.offset cfg.io

/-- **A place belongs to one task.** -/
theorem Owner.Placed.inj {cfg : Cfg} {o o' : Owner} {i : UInt32} (h : o.Placed cfg i)
    (h' : o'.Placed cfg i) : o.bucket = o'.bucket ∧ o.slot = o'.slot := by
  obtain ⟨d1, m1⟩ := div_mod_index (b := o.bucket) h.offset_lt
  obtain ⟨d2, m2⟩ := div_mod_index (b := o'.bucket) h'.offset_lt
  rw [← h.index] at d1 m1
  rw [← h'.index] at d2 m2
  refine ⟨d1.symm.trans d2, ?_⟩
  have hoff : o.offset cfg.io = o'.offset cfg.io := m1.symm.trans m2
  have hpos := h.pos
  have hpos' := h'.pos
  cases o <;> cases o' <;> simp only [Owner.offset, Owner.slot, ne_eq, reduceCtorEq,
    not_false_eq_true, not_true_eq_false, false_implies, true_implies, Option.some.injEq]
    at hoff hpos hpos' ⊢ <;> omega

/-- Only the bucket and the slot matter. -/
theorem Owner.Placed.congr {cfg : Cfg} {o o' : Owner} {i : UInt32} (h : o.Placed cfg i)
    (hb : o'.bucket = o.bucket) (hs : o'.slot = o.slot) : o'.Placed cfg i := by
  have hoff : o'.offset cfg.io = o.offset cfg.io := by
    unfold Owner.offset
    rw [hs]
  exact ⟨by rw [h.index, hb, hoff], by rw [hoff]; exact h.offset_lt,
    fun hne => by rw [hoff]; exact h.pos (by rwa [← hs])⟩

/-- `register` finds the place of its owner. -/
theorem Owner.placed_of_queueIndex {cfg : Cfg} {o : Owner} {identifier : UInt32} {q : QueueIndex}
    (hq : (o.task cfg.io).queueIndex cfg.io identifier = some q)
    (hlt : q.index.toNat < cfg.bucketCount * cfg.io.perBucket) (hb : o.bucket < 2^32)
    (hi : ∀ i, o.slot = some i → i < cfg.io.httpConnections) (ha : o.Apart cfg) :
    o.Placed cfg q.index := by
  have hsum : cfg.io.perBucket = cfg.io.tcpStreams + cfg.io.httpConnections := rfl
  have hconn : ∀ b i, i < cfg.io.httpConnections → cfg.io.httpStart b + i < 2^32 →
      QueueIndex.fromConnectionIndex cfg.io ⟨identifier, .ofNat (cfg.io.httpStart b + i)⟩ = some q →
      q.index.toNat = b * cfg.io.perBucket + (cfg.io.tcpStreams + i) := by
    intro b i hi hc he
    obtain ⟨_, h1⟩ := QueueIndex.fromConnectionIndex_eq_some cfg.perBucket_lt he
    obtain ⟨hd, hm⟩ := div_mod_index (b := b) hi
    rw [toNat_ofNat hc] at h1
    change _ = (b * _ + i) / _ * _ + (_ + (b * _ + i) % _) at h1
    rw [hd, hm] at h1
    exact h1
  cases o with
  | main b =>
    have h1 := ((QueueIndex.fromBucketIndex_eq_some cfg.perBucket_lt).mp hq).2
    rw [toNat_ofNat (show b < 2^32 from hb)] at h1
    exact ⟨h1, Nat.pos_of_ne_zero (fun h0 => by rw [h0] at hlt; omega), fun h => absurd rfl h⟩
  | handshake b i =>
    have := hi i rfl
    exact ⟨hconn b i this ha.2 hq, by show _ + i < _; omega, fun _ => ha.1⟩
  | conn b i =>
    have := hi i rfl
    exact ⟨hconn b i this ha.2 hq, by show _ + i < _; omega, fun _ => ha.1⟩

section
variable {W T : Type} [DecidableEq W] [DecidableEq T] [Fintype W]
variable {cfg : Cfg} {e : State W T}

/-- the owner is stored, or may still be being dropped -/
def Owner.Stands (e : State W T) (o : Owner) : Prop :=
  o.stored (e.bucket o.bucket) = true ∨
    ∃ w, (e.task w).bucket = some o.bucket ∧ (e.task w).unfinished = true

instance (e : State W T) (o : Owner) : Decidable (o.Stands e) :=
  inferInstanceAs (Decidable (_ ∨ _))

theorem State.At.eq (ho : e.q.Owned) {b : ℕ} {t t' : TaskPc} (h : e.At b t) (h' : e.At b t') :
    t = t' := by
  rcases h with ⟨w, hw, rfl⟩ | ⟨hno, rfl⟩ <;> rcases h' with ⟨w', hw', rfl⟩ | ⟨hno', rfl⟩
  · rw [ho.unique b w w' hw hw']
  · exact absurd hw (hno' w)
  · exact absurd hw' (hno w')
  · rfl

/-- The worker that may still be dropping is the owner of the bucket. -/
theorem Owner.Stands.at_task (ho : e.q.Owned) (ha : Attached cfg e) {o : Owner} (h : o.Stands e)
    {t : TaskPc} (hat : e.At o.bucket t) :
    o.stored (e.bucket o.bucket) = true ∨ t.unfinished = true := by
  rcases h with h | ⟨w, hb, hu⟩
  · exact .inl h
  · rw [hat.eq ho (.inl ⟨w, ha.owns hb, rfl⟩)]
    exact .inr hu

/-! ## the slot of a handshake -/

/-- A reserved slot stays reserved until it is populated or `cleanup_bucket` empties it. -/
theorem TStep.pledge {v v' : Bucket} {t t' : TaskPc} {g : Gate} {a : TaskAct} {x : Effect} {i : ℕ}
    (ht : TaskOk cfg t) (hc : Counted cfg v t g) (hs : TStep cfg v t a v' t' x)
    (h : t.emptying = true ∨ (v.connections i).val = .reserved) :
    t'.emptying = true ∨ (v'.connections i).val = .reserved ∨ (∃ b r, t' = .cleanup b r .wipe) ∨
      ∃ b, t = .main b .polling ∧ t' = .main b (.enqueue i) := by
  have hsame : ∀ {j m}, m.val = (v.connections j).val → (v.connections i).val = .reserved →
      ((v.setConn j m).connections i).val = .reserved :=
    fun hm hr => (val_setConn_same hm i).trans hr
  cases hs with
  | dispatch b off _ hd => exact .inr (.inl (h.resolve_left nofun))
  | die => exact h.imp id .inl
  | alloc => exact h.imp id .inl
  | longjmp _ _ b ht' =>
    rcases ht' with ⟨k, rfl⟩ | rfl <;> exact .inr (.inl (h.resolve_left nofun))
  | longjmpConn _ _ b j p ht' =>
    rcases ht' with rfl | rfl <;>
      exact .inr (.inl (hsame (Mutex.val_leave ..) (h.resolve_left (fun h => by cases h))))
  | raise _ _ b owed hr => cases hr <;> exact .inr (.inl (h.resolve_left nofun))
  | populate b j hj hf hr =>
    by_cases e : i = j
    · exact .inr (.inr (.inr ⟨b, rfl, by rw [e]⟩))
    · exact .inr (.inl ((val_setConn_ne _ e).trans (h.resolve_left nofun)))
  | populateTaken b j hj hf hr => exact .inr (.inl (hsame rfl (h.resolve_left nofun)))
  | reserve b j counted hj hf he =>
    refine .inr (.inl ?_)
    by_cases e : i = j
    · rw [e]
      exact val_setConn_self j _
    · exact (val_setConn_ne _ e).trans (h.resolve_left nofun)
  | connReserved b j hr => exact .inr (.inl (hsame rfl (h.resolve_left nofun)))
  | takeConn b j hf ho =>
    exact .inr (.inl (hsame (m := (v.connections j).lock) rfl (h.resolve_left nofun)))
  | connPending b j => exact .inr (.inl (hsame rfl (h.resolve_left nofun)))
  | connReady b j =>
    have hr := h.resolve_left nofun
    have hne : i ≠ j := by
      rintro rfl
      rw [show (v.connections i).val = .occupied from hc.place] at hr
      cases hr
    exact .inr (.inl ((val_setConn_ne _ hne).trans hr))
  | connPanics _ b j ht' =>
    rcases ht' with rfl | rfl <;> exact .inr (.inl (hsame rfl (h.resolve_left nofun)))
  | connDropped b j => exact .inr (.inl (hsame rfl (h.resolve_left nofun)))
  | load => exact h.imp id .inl
  | respond => exact h.imp id .inl
  | closeError => exact .inl rfl
  | slot => exact .inl rfl
  | slotPanics => exact .inl rfl
  | slotAgain => exact .inl rfl
  | slotsDone => exact .inl rfl
  | future b r hf => exact .inr (.inr (.inl ⟨b, r, rfl⟩))
  | futurePanics => exact .inl rfl
  | futureAgain => exact .inl rfl
  | _ => exact .inr (.inl (h.resolve_left nofun))

/-- A handshake reserves an empty slot of its bucket. -/
theorem TStep.reserves {v v' : Bucket} {t t' : TaskPc} {a : TaskAct} {x : Effect} {b b' i : ℕ}
    {counted : Bool} (hs : TStep cfg v t a v' t' x) (ht : t = .main b (.search i counted))
    (ht' : t' = .main b' .polling) : b' = b ∧ i < cfg.io.httpConnections ∧
      (v.connections i).val = .empty ∧ (v'.connections i).val = .reserved := by
  cases hs with
  | reserve b1 i1 c1 hi hf he =>
    cases ht
    cases ht'
    exact ⟨rfl, hi, he, val_setConn_self i _⟩
  | die => rw [ht] at ht'; cases ht'
  | alloc => rw [ht] at ht'; cases ht'
  | connPanics => rw [ht] at ht'; cases ht'
  | longjmp => cases ht'
  | longjmpConn => cases ht'
  | raise => cases ht'
  | search => cases ht'
  | _ => cases ht

/-- Every worker is in a bucket that the server has. -/
theorem bucket_lt_of_reach {ok : Bucket → TaskPc → Gate → TaskAct → Prop}
    (h : (Executor.machine cfg).Reach (State.Admits ok) e) :
    e.Everywhere (fun _ t _ => ∀ b, t.bucket = some b → b < cfg.bucketCount) := by
  refine LocalInv.of_reach (K := fun _ _ _ => True) ⟨nofun, fun v g b off hj _ b' hb => ?_,
    fun v t g a v' t' x ht _ h _ hs b hb => ?_, fun _ _ _ _ _ _ _ h _ => h⟩
    (fun _ _ _ _ _ => trivial) h
  · cases hb
    exact hj.bucket_lt
  · rcases hs.bucket_eq ht with h1 | h1
    · exact h b (h1.symm.trans hb)
    · rw [h1] at hb
      cases hb

theorem TaskPc.failing_of_unfinished {t : TaskPc} (hq : t.quiet = true)
    (hu : t.unfinished = true) : t.failing = true := by
  cases t with
  | unwinding => rfl
  | poisoned => rfl
  | cleanup b r k =>
    cases k with
    | load => rfl
    | _ => cases hq
  | mainTaken => cases hq
  | mainClosing => cases hq
  | mainDropping => cases hq
  | connDropping => cases hq
  | _ => cases hu

/-- When `set` puts a main future in, nothing is left of the one before. -/
theorem State.vacant_of_replacing (hr : (Executor.machine cfg).Reach (State.Admits fresh) e)
    {fd b : ℕ} (hp : e.accept = .replacing fd b) :
    ¬ (Owner.main b).Stands e ∧ ∀ w k, e.task w ≠ .main b k := by
  have ho := Queue.owned_of_reachable (queue_reachable hr)
  have ha := attached_of_reach hr
  have hg : e.accept.gate b = .replacing := by
    rw [hp]
    simp [AcceptPc.gate]
  have hparked : ∀ t, e.At b t → (e.bucket b).future.val = none ∧ t.quiet = true ∧
      t.failing = false := by
    intro t hat
    obtain ⟨hc, hl⟩ := counted_of_reach hr b t hat
    obtain ⟨h1, _, h2⟩ := hc.parked (by rw [hg]; rfl)
    refine ⟨h1, h2, Bool.eq_false_iff.mpr (fun hf => ?_)⟩
    have := (hl.failing hf).2
    rw [hg] at this
    cases this
  refine ⟨fun hst => ?_, fun w k ht => ?_⟩
  · obtain ⟨t, hat⟩ := e.exists_at b
    obtain ⟨h1, h2, h3⟩ := hparked t hat
    rcases hst.at_task ho ha hat with h | h
    · change (e.bucket b).future.val.isSome = true at h
      rw [h1] at h
      cases h
    · rw [TaskPc.failing_of_unfinished h2 h] at h3
      cases h3
  · have h1 := (hparked _ (.inl ⟨w, ha.owns (by rw [ht]; rfl), ht⟩)).2.1
    cases h1

/-! ## the invariant -/

/-- streams are dropped no later than the futures and connections that own them -/
def Server.Kept (s : Server W T) : Prop := ∀ x ∈ s.streams, x.owner.Stands s.exec

/-- a call of `register` and the place it fills -/
structure CallOk (cfg : Cfg) (s : Server W T) (w : W) (c : RegisterPc) : Prop where
  task : s.exec.task w = .main c.owner.bucket .polling
  clear : ∀ x ∈ s.streams, x.owner.bucket = c.owner.bucket → x.owner.slot ≠ c.owner.slot
  opened : ∀ b, c.owner = .main b → s.opened b = true
  reserved : ∀ b i, c.owner = .handshake b i → i < cfg.io.httpConnections ∧
    ((s.exec.bucket b).connections i).val = .reserved
  notConn : ∀ b i, c.owner ≠ .conn b i
  placed : ∀ o token id, c = .placed o token id →
    o.Placed cfg (Reactor.slot token) ∧ (s.sources (Reactor.slot token)).val = some id

structure Sourced (cfg : Cfg) (s : Server W T) : Prop where
  source : ∀ x ∈ s.streams, (s.sources x.place).val = some x.id
  nodup : (s.streams.map Stream.place).Nodup
  placed : ∀ x ∈ s.streams, x.owner.Placed cfg x.place
  opened : ∀ x ∈ s.streams, ∀ b, x.owner = .main b → s.opened b = true
  reserved : ∀ x ∈ s.streams, ∀ b i, x.owner = .handshake b i → ∀ t, s.exec.At b t →
    t.emptying = true ∨ ((s.exec.bucket b).connections i).val = .reserved
  calls : ∀ w c, s.register w = some c → CallOk cfg s w c
  dropFailed : s.dropFailed = false
  unheard : s.unheard = false

section
variable {s s' : Server W T} {a : Act W T}

theorem Stream.hand_same (b i : ℕ) (x : Stream) : (x.hand b i).id = x.id ∧
    (x.hand b i).token = x.token ∧ (x.hand b i).owner.bucket = x.owner.bucket ∧
    (x.hand b i).owner.slot = x.owner.slot ∧
    (x.hand b i = x ∨ (x.hand b i).owner = .conn b i) := by
  unfold Stream.hand
  split
  · next h => exact ⟨rfl, rfl, by rw [h]; rfl, by rw [h]; rfl, .inr rfl⟩
  · exact ⟨rfl, rfl, rfl, rfl, .inl rfl⟩

theorem populated_eq (t t' : TaskPc) (l : List Stream) : populated t t' l = l ∨
    ∃ b b' i, t = .main b .polling ∧ t' = .main b' (.enqueue i) ∧
      populated t t' l = l.map (Stream.hand b i) := by
  unfold populated
  split
  · next b b' i => exact .inr ⟨b, b', i, rfl, rfl, rfl⟩
  · exact .inl rfl

@[simp] theorem follow_exec : (s.follow e a).exec = e := by cases a <;> rfl
@[simp] theorem follow_sources : (s.follow e a).sources = s.sources := by cases a <;> rfl
@[simp] theorem follow_dropFailed : (s.follow e a).dropFailed = s.dropFailed := by cases a <;> rfl
@[simp] theorem follow_unheard : (s.follow e a).unheard = s.unheard := by cases a <;> rfl

theorem follow_opened (b : ℕ) : (s.follow e a).opened b = s.opened b ∨
    ∃ fd, s.exec.accept = .replacing fd b := by
  cases a with
  | accept busy =>
    cases hp : s.exec.accept with
    | replacing fd b1 =>
      by_cases hb : b = b1
      · exact .inr ⟨fd, by rw [hb]⟩
      · simp only [Server.follow, hp]
        exact .inl (Function.update_of_ne hb _ _)
    | _ => simp only [Server.follow, hp, true_or]
  | _ => exact .inl rfl

theorem follow_register (w : W) : (s.follow e a).register w = s.register w ∨
    (∃ a', a = .task w a') ∧ (s.follow e a).register w
      = registering (s.exec.task w) (e.task w) (s.register w) := by
  cases a with
  | task w1 a' =>
    by_cases hw : w = w1
    · subst hw
      exact .inr ⟨⟨a', rfl⟩, Function.update_self ..⟩
    · exact .inl (Function.update_of_ne hw _ _)
  | _ => exact .inl rfl

/-- The streams after a step are those before it, and some of them may have changed hands. -/
theorem follow_streams : (s.follow e a).streams.map Stream.place = s.streams.map Stream.place ∧
    ∀ y ∈ (s.follow e a).streams, ∃ x ∈ s.streams, y.id = x.id ∧ y.token = x.token ∧
      y.owner.bucket = x.owner.bucket ∧ y.owner.slot = x.owner.slot ∧
      (y = x ∨ ∃ b i, y.owner = .conn b i) := by
  have hself : ∀ y ∈ s.streams, ∃ x ∈ s.streams, y.id = x.id ∧ y.token = x.token ∧
      y.owner.bucket = x.owner.bucket ∧ y.owner.slot = x.owner.slot ∧
      (y = x ∨ ∃ b i, y.owner = .conn b i) := fun y hy => ⟨y, hy, rfl, rfl, rfl, rfl, .inl rfl⟩
  cases a with
  | task w a' =>
    show (populated _ _ _).map _ = _ ∧ ∀ y ∈ populated _ _ _, _
    rcases populated_eq (s.exec.task w) (e.task w) s.streams with h | ⟨b, b', i, _, _, h⟩
    · rw [h]
      exact ⟨rfl, hself⟩
    · rw [h]
      refine ⟨?_, fun y hy => ?_⟩
      · rw [List.map_map]
        exact List.map_congr_left (fun x _ => congrArg Reactor.slot (x.hand_same b i).2.1)
      · obtain ⟨x, hx, rfl⟩ := List.mem_map.mp hy
        obtain ⟨h1, h2, h3, h4, h5⟩ := x.hand_same b i
        exact ⟨x, hx, h1, h2, h3, h4, h5.imp id (fun h => ⟨b, i, h⟩)⟩
  | _ => exact ⟨rfl, hself⟩

theorem GStep.connections_eq {v v' : Bucket} {g g' : Gate} (h : GStep v g v' g') :
    v'.connections = v.connections := by
  cases h <;> rfl

/-- An allocation in `register`. -/
theorem TStep.stays {v v' : Bucket} {t' : TaskPc} {a : TaskAct} {x : Effect} {b b' : ℕ}
    (hs : TStep cfg v (.main b .polling) a v' t' x) (ha : a.inRegister = true)
    (ht' : t' = .main b' .polling) : b' = b ∧ v'.connections = v.connections := by
  cases hs with
  | alloc => cases ht'; exact ⟨rfl, rfl⟩
  | die => cases ht'; exact ⟨rfl, rfl⟩
  | connPanics _ _ _ h => rcases h with h | h <;> cases h
  | longjmp => cases ht'
  | longjmpConn => cases ht'
  | raise => cases ht'
  | _ => cases ha

section
variable (hr : (Executor.machine cfg).Reach (State.Admits fresh) s.exec)
variable (hr' : (Executor.machine cfg).Reach (State.Admits fresh) e)
variable (hs : s.exec.step cfg a = some e) (h : Sourced cfg s) (hk : s.Kept)
variable (hk' : (s.follow e a).Kept)
include hr h hk

theorem Sourced.opened_follow : ∀ y ∈ (s.follow e a).streams, ∀ b, y.owner = .main b →
    (s.follow e a).opened b = true := by
  intro y hy b hb
  obtain ⟨x, hx, _, _, _, _, rfl | ⟨b', i, hc⟩⟩ := follow_streams.2 y hy
  · rcases follow_opened (s := s) (e := e) (a := a) b with h1 | ⟨fd, hp⟩
    · exact h1.trans (h.opened y hx b hb)
    · have hst := hk y hx
      rw [hb] at hst
      exact absurd hst (State.vacant_of_replacing hr hp).1
  · rw [hb] at hc
    cases hc

include hr' hs hk' in
theorem Sourced.reserved_follow : ∀ y ∈ (s.follow e a).streams, ∀ b i, y.owner = .handshake b i →
    ∀ t, e.At b t → t.emptying = true ∨ ((e.bucket b).connections i).val = .reserved := by
  intro y hy b i hyo t' hat
  have hq := queue_reachable hr
  have ho := Queue.owned_of_reachable hq
  have ha := attached_of_reach hr
  obtain ⟨x, hx, _, _, _, _, rfl | ⟨b', i', hc⟩⟩ := follow_streams.2 y hy
  swap
  · rw [hyo] at hc
    cases hc
  have hold := h.reserved y hx b i hyo
  cases State.seen_of_step ho ha (Queue.named_of_reachable hq) hs hat with
  | same hat0 hb _ =>
    rw [hb]
    exact hold t' hat0
  | accept hat0 hg =>
    rw [hg.connections_eq]
    exact hold t' hat0
  | job off _ ht hat0 hb _ =>
    rw [hb]
    exact .inr ((hold .idle hat0).resolve_left nofun)
  | task w a' x' hae hb hts _ _ =>
    have hall := counted_of_reach hr
    rcases TStep.pledge (ha.taskOk w) (hall.at_task ha hb).1 (.of_taskStep hts)
      (hold _ (.inl ⟨w, ha.owns hb, rfl⟩)) with h1 | h1 | ⟨b1, r, h1⟩ | ⟨b1, h1, h2⟩
    · exact .inl h1
    · exact .inr h1
    · -- the main future has been dropped, and the stream with it
      have hst := hk' y hy
      rw [hyo, follow_exec] at hst
      have hplace := (counted_of_reach hr' b t' hat).1.place
      rw [h1] at hplace
      rcases hst.at_task (Queue.owned_of_reachable (queue_reachable hr')) (attached_of_reach hr')
        hat with h2 | h2
      · change (e.bucket b).future.val.isSome = true at h2
        rw [hplace.2.2.2] at h2
        cases h2
      · rw [h1] at h2
        cases h2
    · -- the stream has gone over to the connection
      have hw : e.task w = t' :=
        State.At.eq (Queue.owned_of_reachable (queue_reachable hr'))
          (.inl ⟨w, ha.owns_step hb hs, rfl⟩) hat
      subst hae
      rw [h1] at hb
      cases hb
      change y ∈ populated (s.exec.task w) (e.task w) s.streams at hy
      rw [h1, hw, h2] at hy
      obtain ⟨z, hz, rfl⟩ := List.mem_map.mp hy
      unfold Stream.hand at hyo
      split at hyo
      · cases hyo
      · next hne => exact absurd hyo hne

include hr' hs in
/-- Another thread has made the step: a call of `register` is where it was. -/
theorem Sourced.call_other {w : W} {c : RegisterPc} (hne : ∀ a', a ≠ .task w a')
    (hc : CallOk cfg s w c) : CallOk cfg (s.follow e a) w c := by
  have hq := queue_reachable hr
  have ho := Queue.owned_of_reachable hq
  have ha := attached_of_reach hr
  have hb : (s.exec.task w).bucket = some c.owner.bucket := by rw [hc.task]; rfl
  have htask : e.task w = .main c.owner.bucket .polling := by
    rw [(ha.frame hb hs hne).1]
    exact hc.task
  refine ⟨by rw [follow_exec]; exact htask, fun y hy => ?_, fun b hcb => ?_, fun b i hcb => ?_,
    hc.notConn, by rw [follow_sources]; exact hc.placed⟩
  · obtain ⟨x, hx, _, _, h1, h2, _⟩ := follow_streams.2 y hy
    rw [h1, h2]
    exact hc.clear x hx
  · rcases follow_opened (s := s) (e := e) (a := a) b with h1 | ⟨fd, hp⟩
    · exact h1.trans (hc.opened b hcb)
    · have ht := hc.task
      rw [hcb] at ht
      exact absurd ht ((State.vacant_of_replacing hr hp).2 w _)
  · obtain ⟨hi, hres⟩ := hc.reserved b i hcb
    rw [hcb] at hb htask
    have hat : e.At b (.main b .polling) := .inl ⟨w, ha.owns_step hb hs, htask⟩
    refine ⟨hi, ?_⟩
    rw [follow_exec]
    cases State.seen_of_step ho ha (Queue.named_of_reachable hq) hs hat with
    | same _ h1 _ => rw [h1]; exact hres
    | accept _ hg => rw [hg.connections_eq]; exact hres
    | job off _ ht _ _ _ => cases ht
    | task w' a' x hae hb' _ _ _ =>
      have hw : w' = w := ho.unique b w' w (ha.owns hb') (ha.owns hb)
      exact absurd (hae.trans (by rw [hw])) (hne a')

/-- No stream fills an empty slot: it would be that of a handshake or of a connection. -/
theorem Sourced.slot_ne {x : Stream} (hx : x ∈ s.streams) {i : ℕ} {t : TaskPc}
    (hat : s.exec.At x.owner.bucket t) (het : t.emptying = false) (hun : t.unfinished = false)
    (hempty : ((s.exec.bucket x.owner.bucket).connections i).val = .empty) :
    x.owner.slot ≠ some i := by
  intro hsl
  have ho := Queue.owned_of_reachable (queue_reachable hr)
  have ha := attached_of_reach hr
  have hst := (hk x hx).at_task ho ha hat
  cases hxo : x.owner with
  | main b1 => rw [hxo] at hsl; cases hsl
  | handshake b1 i1 =>
    rw [hxo] at hsl hat hempty
    cases hsl
    rcases h.reserved x hx b1 i hxo t hat with h1 | h1
    · rw [het] at h1; cases h1
    · exact absurd (hempty.symm.trans h1) (by decide)
  | conn b1 i1 =>
    rw [hxo] at hsl hempty hst
    cases hsl
    rcases hst with h1 | h1
    · have h2 : ((s.exec.bucket b1).connections i).val = .occupied := of_decide_eq_true h1
      exact absurd (hempty.symm.trans h2) (by decide)
    · rw [hun] at h1; cases h1

include hs in
/-- The worker itself has made the step: it may have begun a call of `register`. -/
theorem Sourced.call_own {w : W} {a' : TaskAct} {c : RegisterPc} (hae : a = .task w a')
    (hbusy : s.busy a = false) (hc : (s.follow e a).register w = some c) :
    CallOk cfg (s.follow e a) w c := by
  have ha := attached_of_reach hr
  subst hae
  change Function.update s.register w (registering (s.exec.task w) (e.task w) (s.register w)) w
    = some c at hc
  rw [Function.update_self] at hc
  unfold registering at hc
  split at hc
  · next b i counted b' ht ht' =>
    cases hc
    have hb : (s.exec.task w).bucket = some b := by rw [ht]; rfl
    obtain ⟨_, x, hts, _⟩ := State.step_task_eq hs hb
    obtain ⟨rfl, hi, hempty, hres⟩ := TStep.reserves (.of_taskStep hts) ht ht'
    have hat : s.exec.At b' (s.exec.task w) := .inl ⟨w, ha.owns hb, rfl⟩
    refine ⟨by rw [follow_exec]; exact ht', fun y hy hyb hys => ?_, nofun, fun b1 i1 h1 => ?_,
      nofun, nofun⟩
    · obtain ⟨x, hx, _, _, h1, h2, _⟩ := follow_streams.2 y hy
      rw [h1] at hyb
      rw [h2] at hys
      obtain rfl : x.owner.bucket = b' := hyb
      exact h.slot_ne hr hk hx hat (by rw [ht]; rfl) (by rw [ht]; rfl) hempty hys
    · cases h1
      rw [follow_exec]
      exact ⟨hi, hres⟩
  · next b b' ht ht' =>
    have hold := h.calls w c hc
    have hb : (s.exec.task w).bucket = some b := by rw [ht]; rfl
    obtain ⟨_, x, hts, _⟩ := State.step_task_eq hs hb
    have hin : a'.inRegister = true := by
      simp only [Server.busy, hc, Option.isSome_some, Bool.true_and, Bool.not_eq_false'] at hbusy
      exact hbusy
    rw [ht] at hts
    obtain ⟨rfl, hconn⟩ := TStep.stays (.of_taskStep hts) hin ht'
    have hob : c.owner.bucket = b' := by
      have h1 := hold.task
      rw [ht] at h1
      cases h1
      rfl
    refine ⟨by rw [follow_exec, hob]; exact ht', fun y hy => ?_, hold.opened, fun b i hcb => ?_,
      hold.notConn, by rw [follow_sources]; exact hold.placed⟩
    · obtain ⟨x, hx, _, _, h1, h2, _⟩ := follow_streams.2 y hy
      rw [h1, h2]
      exact hold.clear x hx
    · obtain ⟨hi, hres⟩ := hold.reserved b i hcb
      refine ⟨hi, ?_⟩
      rw [hcb] at hob
      obtain rfl : b = b' := hob
      rw [follow_exec, hconn]
      exact hres
  · cases hc

include hr' hs hk' in
/-- **A step of the executor** keeps the streams and their places. -/
theorem Sourced.follow (hbusy : s.busy a = false) : Sourced cfg (s.follow e a) where
  source y hy := by
    obtain ⟨x, hx, h1, h2, _⟩ := follow_streams.2 y hy
    have hp : y.place = x.place := congrArg Reactor.slot h2
    rw [follow_sources, hp, h1]
    exact h.source x hx
  nodup := by
    rw [follow_streams.1]
    exact h.nodup
  placed y hy := by
    obtain ⟨x, hx, _, h2, h3, h4, _⟩ := follow_streams.2 y hy
    have hp : y.place = x.place := congrArg Reactor.slot h2
    rw [hp]
    exact (h.placed x hx).congr h3 h4
  opened := h.opened_follow hr hk
  reserved y hy b i hyo t hat := by
    rw [follow_exec] at hat ⊢
    exact h.reserved_follow hr hr' hs hk hk' y hy b i hyo t hat
  calls w c hc := by
    by_cases hw : ∃ a', a = .task w a'
    · obtain ⟨a', hae⟩ := hw
      exact h.call_own hr hs hk hae hbusy hc
    · have hne : ∀ a', a ≠ .task w a' := fun a' hae => hw ⟨a', hae⟩
      rcases follow_register (s := s) (e := e) (a := a) w with h1 | ⟨h1, _⟩
      · exact h.call_other hr hr' hs hk hne (h.calls w c (h1.symm.trans hc))
      · exact absurd h1 hw
  dropFailed := by
    rw [follow_dropFailed]
    exact h.dropFailed
  unheard := by
    rw [follow_unheard]
    exact h.unheard

end
end

/-! ## a step of the server -/

section
variable {s s' : Server W T}

theorem execStep_eq {a : Act W T} (hs : s.execStep cfg a = some s') :
    s.busy a = false ∧ ∃ e, s.exec.step cfg a = some e ∧ s' = s.follow e a := by
  unfold Server.execStep at hs
  split at hs
  · cases hs
  · next hb =>
    obtain ⟨e, he, rfl⟩ := Option.map_eq_some_iff.mp hs
    exact ⟨Bool.eq_false_iff.mpr hb, e, he, rfl⟩

theorem admits_panic (e : State W T) (w : W) : e.Admits fresh (.task w .panic) := by
  cases hb : (e.task w).bucket with
  | none => simp only [State.Admits, hb]
  | some b =>
    rw [State.admits_task hb]
    unfold fresh Bucket.stale
    cases e.task w <;> rfl

/-- The executor goes on. -/
theorem Sourced.execStep (h : Sourced cfg s)
    (hr : (Executor.machine cfg).Reach (State.Admits fresh) s.exec) (hk : s.Kept) {a : Act W T}
    (hf : s.exec.Admits fresh a) (hs : s.execStep cfg a = some s') (hk' : s'.Kept) :
    Sourced cfg s' ∧ (Executor.machine cfg).Reach (State.Admits fresh) s'.exec := by
  obtain ⟨hb, e, he, rfl⟩ := execStep_eq hs
  have hr' : (Executor.machine cfg).Reach (State.Admits fresh) e := .step hr hf he
  refine ⟨h.follow hr hr' he hk hk' hb, ?_⟩
  rw [follow_exec]
  exact hr'

theorem CallOk.congr {w : W} {c : RegisterPc} (h : CallOk cfg s w c) (he : s'.exec = s.exec)
    (hst : s'.streams = s.streams) (ho : s'.opened = s.opened)
    (hsrc : ∀ o token id, c = .placed o token id →
      (s'.sources (Reactor.slot token)).val = (s.sources (Reactor.slot token)).val) :
    CallOk cfg s' w c where
  task := by rw [he]; exact h.task
  clear := by rw [hst]; exact h.clear
  opened := by rw [ho]; exact h.opened
  reserved := by rw [he]; exact h.reserved
  notConn := h.notConn
  placed o token id hc := by rw [hsrc o token id hc]; exact h.placed o token id hc

/-- At most one worker registers streams of a bucket. -/
theorem Sourced.one_call (h : Sourced cfg s)
    (hr : (Executor.machine cfg).Reach (State.Admits fresh) s.exec) {w w' : W} {c c' : RegisterPc}
    (hc : s.register w = some c) (hc' : s.register w' = some c')
    (hb : c.owner.bucket = c'.owner.bucket) : w = w' := by
  have ha := attached_of_reach hr
  refine (Queue.owned_of_reachable (queue_reachable hr)).unique c.owner.bucket w w'
    (ha.owns (by rw [(h.calls w c hc).task]; rfl)) (ha.owns ?_)
  rw [(h.calls w' c' hc').task, hb]
  rfl

/-- `replace` at a place that no stream and no other call fills. -/
theorem Sourced.put (h : Sourced cfg s) {i : UInt32} (hx : ∀ x ∈ s.streams, x.place ≠ i)
    (hc : ∀ w o token id, s.register w = some (.placed o token id) → Reactor.slot token ≠ i) :
    Sourced cfg (s.put i) :=
  { h with
    source := fun x hmem => by
      show (Function.update s.sources i _ x.place).val = _
      rw [Function.update_of_ne (hx x hmem)]
      exact h.source x hmem
    calls := fun w c hcall => (h.calls w c hcall).congr rfl rfl rfl (fun o token id he => by
      show (Function.update s.sources i _ _).val = _
      rw [Function.update_of_ne (hc w o token id (by rw [← he]; exact hcall))]) }

theorem Sourced.nextIdentifier (h : Sourced cfg s) (o : Owner) :
    Sourced cfg (s.nextIdentifier o) := by
  have hid : ∀ n, Sourced cfg { s with identifier := n } := fun n =>
    { h with calls := fun w c hc => (h.calls w c hc).congr rfl rfl rfl (fun _ _ _ _ => rfl) }
  cases o with
  | main b => exact h
  | _ => exact hid _

theorem put_sources_self (i : UInt32) : ((s.put i).sources i).val = some s.calls := by
  show (Function.update s.sources i _ i).val = _
  rw [Function.update_self, Mutex.val_set]

theorem setRegister_self (w : W) (c : Option RegisterPc) : (s.setRegister w c).register w = c :=
  Function.update_self ..

theorem setRegister_ne {w w' : W} {c : Option RegisterPc} (h : w' ≠ w) :
    (s.setRegister w c).register w' = s.register w' := Function.update_of_ne h ..

/-- A worker begins, continues or ends its call of `register`. -/
theorem Sourced.setRegister (h : Sourced cfg s) {w : W} {o : Option RegisterPc}
    (ho : ∀ c, o = some c → CallOk cfg s w c) : Sourced cfg (s.setRegister w o) :=
  { h with
    calls := fun w' c hc => by
      have hold : CallOk cfg s w' c := by
        by_cases hw : w' = w
        · subst hw
          rw [setRegister_self] at hc
          exact ho c hc
        · rw [setRegister_ne hw] at hc
          exact h.calls w' c hc
      exact hold.congr rfl rfl rfl (fun _ _ _ _ => rfl) }

/-! ## the runs -/

/-- no missing future is taken up, and streams are dropped in time -/
def Server.Admitted (cfg : Cfg) (debug : Bool) (s : Server W T) (a : ServerAct W T) : Prop :=
  (∀ a', a = .exec a' → s.exec.Admits fresh a') ∧ ∀ s', s.step cfg debug a = some s' → s'.Kept

instance (s : Server W T) : Decidable s.Kept :=
  inferInstanceAs (Decidable (∀ x ∈ s.streams, x.owner.Stands s.exec))

/-- the part of a step that the executor takes -/
def ServerAct.executes : ServerAct W T → Option (Act W T)
  | .exec a => some a
  | _ => none

theorem ServerAct.mem_executes {a : ServerAct W T} {a' : Act W T} :
    a' ∈ a.executes ↔ a = .exec a' := by
  cases a with
  | exec a1 => simp [ServerAct.executes]
  | _ => simp [ServerAct.executes]

theorem Server.admitted_iff {debug : Bool} {s : Server W T} {a : ServerAct W T} :
    s.Admitted cfg debug a ↔ (∀ a' ∈ a.executes, s.exec.Admits fresh a') ∧
      ∀ s' ∈ s.step cfg debug a, s'.Kept := by
  unfold Server.Admitted
  simp only [ServerAct.mem_executes]
  exact Iff.rfl

instance (debug : Bool) (s : Server W T) (a : ServerAct W T) :
    Decidable (s.Admitted cfg debug a) := decidable_of_iff' _ Server.admitted_iff

/-- what a handshake registers is not registered under the queue index of another task -/
def Server.Apart (cfg : Cfg) (s : Server W T) : ServerAct W T → Prop
  | .register w _ => ∀ c, s.register w = some c → c.owner.Apart cfg
  | _ => True

/-- `register` returns a stream. -/
theorem Sourced.push (h : Sourced cfg s) {x : Stream} (hsrc : (s.sources x.place).val = some x.id)
    (hclear : ∀ y ∈ s.streams, y.place ≠ x.place) (hpl : x.owner.Placed cfg x.place)
    (hop : ∀ b, x.owner = .main b → s.opened b = true)
    (hres : ∀ b i, x.owner = .handshake b i → ((s.exec.bucket b).connections i).val = .reserved)
    (hcalls : ∀ w c, s.register w = some c → c.owner.bucket ≠ x.owner.bucket) :
    Sourced cfg { s with streams := x :: s.streams } where
  source := List.forall_mem_cons.mpr ⟨hsrc, h.source⟩
  nodup := by
    refine List.nodup_cons.mpr ⟨fun hmem => ?_, h.nodup⟩
    obtain ⟨y, hy, he⟩ := List.mem_map.mp hmem
    exact hclear y hy he
  placed := List.forall_mem_cons.mpr ⟨hpl, h.placed⟩
  opened := List.forall_mem_cons.mpr ⟨hop, h.opened⟩
  reserved := List.forall_mem_cons.mpr ⟨fun b i hb _ _ => .inr (hres b i hb), h.reserved⟩
  calls w c hc :=
    have hold := h.calls w c hc
    { hold with
      clear := List.forall_mem_cons.mpr ⟨fun hb => absurd hb.symm (hcalls w c hc), hold.clear⟩ }
  dropFailed := h.dropFailed
  unheard := h.unheard

/-- The owner of a call of `register` names a bucket and a slot that exist. -/
theorem CallOk.bucket_lt {w : W} {c : RegisterPc} (hcall : CallOk cfg s w c)
    (hr : (Executor.machine cfg).Reach (State.Admits fresh) s.exec) : c.owner.bucket < 2^32 := by
  have hta : (s.exec.task w).bucket = some c.owner.bucket := by rw [hcall.task]; rfl
  have := (bucket_lt_of_reach hr).at_task (attached_of_reach hr) hta _ hta
  exact lt_trans this cfg.bucketCount_lt

theorem CallOk.slot_lt {w : W} {c : RegisterPc} (hcall : CallOk cfg s w c) {i : ℕ}
    (hi : c.owner.slot = some i) : i < cfg.io.httpConnections := by
  cases ho : c.owner with
  | main b => rw [ho] at hi; cases hi
  | handshake b j =>
    rw [ho] at hi
    cases hi
    exact (hcall.reserved b i ho).1
  | conn b j => exact absurd ho (hcall.notConn b j)

/-- **One step inside `register`.** -/
theorem Sourced.registerStep (h : Sourced cfg s)
    (hr : (Executor.machine cfg).Reach (State.Admits fresh) s.exec) (hk : s.Kept) {debug : Bool}
    {w : W} {fails : Bool} {c : RegisterPc} (hc : s.register w = some c)
    (hap : c.owner.Apart cfg) (hs : s.registerStep cfg debug w fails c = some s') (hk' : s'.Kept) :
    Sourced cfg s' ∧ (Executor.machine cfg).Reach (State.Admits fresh) s'.exec := by
  have hcall := h.calls w c hc
  have hother : ∀ w' c', w' ≠ w → s.register w' = some c' → c'.owner.bucket ≠ c.owner.bucket :=
    fun w' c' hne hc' hb => hne (h.one_call hr hc' hc hb)
  -- nothing fills the place of the owner
  have hclear : ∀ i, c.owner.Placed cfg i → ∀ x ∈ s.streams, x.place ≠ i := by
    rintro i hpl x hx rfl
    obtain ⟨hb, hsl⟩ := (h.placed x hx).inj hpl
    exact hcall.clear x hx hb hsl
  cases c with
  | placed o token id =>
    simp only [Server.registerStep] at hs
    obtain ⟨hpl, hsrc⟩ := hcall.placed o token id rfl
    split at hs
    · exact h.execStep hr hk (admits_panic _ w) hs hk'
    · cases hs
      have h1 : Sourced cfg (s.setRegister w none) := h.setRegister nofun
      refine ⟨h1.push (x := ⟨id, token, o⟩) hsrc (hclear _ hpl) hpl hcall.opened
        (fun b i hb => (hcall.reserved b i hb).2) (fun w' c' hc' => ?_), hr⟩
      by_cases hw : w' = w
      · subst hw
        rw [setRegister_self] at hc'
        cases hc'
      · rw [setRegister_ne hw] at hc'
        exact hother w' c' hw hc'
  | start o =>
    have h1 : Sourced cfg (s.nextIdentifier o) := h.nextIdentifier o
    have hr1 : (Executor.machine cfg).Reach (State.Admits fresh) (s.nextIdentifier o).exec := by
      cases o <;> exact hr
    have hk1 : (s.nextIdentifier o).Kept := by cases o <;> exact hk
    have hstreams : (s.nextIdentifier o).streams = s.streams := by cases o <;> rfl
    have hreg : (s.nextIdentifier o).register = s.register := by cases o <;> rfl
    have hcalls : (s.nextIdentifier o).calls = s.calls := by cases o <;> rfl
    simp only [Server.registerStep] at hs
    split at hs
    · exact h1.execStep hr1 hk1 (admits_panic _ w) hs hk'
    · next q hq =>
      split at hs
      · exact h1.execStep hr1 hk1 (admits_panic _ w) hs hk'
      · next hn =>
        have hpl : o.Placed cfg q.index :=
          Owner.placed_of_queueIndex hq (by omega) (hcall.bucket_lt hr) (fun i => hcall.slot_lt) hap
        have h2 : Sourced cfg ((s.nextIdentifier o).put q.index) := by
          refine h1.put (by rw [hstreams]; exact hclear _ hpl) (fun w' o' token id hc' he => ?_)
          rw [hreg] at hc'
          by_cases hw : w' = w
          · subst hw
            rw [hc] at hc'
            cases hc'
          · obtain ⟨hpl', _⟩ := (h.calls w' _ hc').placed o' token id rfl
            rw [he] at hpl'
            exact hother w' _ hw hc' (hpl'.inj hpl).1
        split at hs
        · exact h2.execStep hr1 hk1 (admits_panic _ w) hs hk'
        · cases hs
          refine ⟨h2.setRegister (fun c' hc' => ?_), hr1⟩
          cases hc'
          have hstart : CallOk cfg ((s.nextIdentifier o).put q.index) w (.start o) :=
            h2.calls w _ (hreg ▸ hc)
          refine { hstart with placed := fun o' token id he => ?_ }
          cases he
          rw [Reactor.slot_toUsize]
          refine ⟨hpl, ?_⟩
          show (((s.nextIdentifier o).put q.index).sources q.index).val = _
          rw [put_sources_self, hcalls]

/-- `drop` finds the source of its stream and leaves the others where they are. -/
theorem Sourced.drop (h : Sourced cfg s) {x : Stream} (hx : x ∈ s.streams) :
    Sourced cfg (s.dropStep x) := by
  have hnodup : s.streams.Nodup := h.nodup.of_map _
  have hmem : ∀ y ∈ s.streams.erase x, y ∈ s.streams := fun y hy => List.mem_of_mem_erase hy
  have hne : ∀ y ∈ s.streams.erase x, y.place ≠ x.place := by
    intro y hy he
    have := List.inj_on_of_nodup_map h.nodup (hmem y hy) hx he
    rw [this] at hy
    exact hnodup.not_mem_erase hy
  -- without the change of `sources`
  have herase : Sourced cfg { s with streams := s.streams.erase x } :=
    { h with
      source := fun y hy => h.source y (hmem y hy)
      nodup := h.nodup.sublist ((List.erase_sublist).map _)
      placed := fun y hy => h.placed y (hmem y hy)
      opened := fun y hy => h.opened y (hmem y hy)
      reserved := fun y hy => h.reserved y (hmem y hy)
      calls := fun w c hc =>
        { h.calls w c hc with clear := fun y hy => (h.calls w c hc).clear y (hmem y hy) } }
  unfold Server.dropStep
  dsimp only
  split
  · exact herase
  · refine { herase with
      source := fun y hy => ?_
      calls := fun w c hc => (herase.calls w c hc).congr rfl rfl rfl (fun o token id he => ?_)
      dropFailed := ?_ }
    · show (Function.update s.sources x.place _ y.place).val = _
      rw [Function.update_of_ne (hne y hy)]
      exact h.source y (hmem y hy)
    · show (Function.update s.sources x.place _ _).val = _
      rw [Function.update_of_ne]
      intro hp
      obtain ⟨hpl, _⟩ := (h.calls w c hc).placed o token id he
      rw [hp] at hpl
      obtain ⟨hb, hsl⟩ := (h.placed x hx).inj hpl
      refine (h.calls w c hc).clear x hx ?_ ?_
      · rw [he]; exact hb
      · rw [he]; exact hsl
    · show (s.dropFailed || _) = false
      rw [h.dropFailed, h.source x hx]
      rfl

/-- A main future calls `register` for its client once. -/
theorem Sourced.client (h : Sourced cfg s) {w : W} {b : ℕ} (ht : s.exec.task w = .main b .polling)
    (hb : s.opened b = false) :
    Sourced cfg { s.setRegister w (some (.start (.main b))) with
      opened := Function.update s.opened b true } := by
  have hop : ∀ b', s.opened b' = true → Function.update s.opened b true b' = true := by
    intro b' h'
    by_cases e : b' = b
    · subst e
      exact Function.update_self ..
    · rw [Function.update_of_ne e]
      exact h'
  have h1 : Sourced cfg { s with opened := Function.update s.opened b true } :=
    { h with
      opened := fun x hx b' hb' => hop b' (h.opened x hx b' hb')
      calls := fun w' c hc =>
        { h.calls w' c hc with opened := fun b' hb' => hop b' ((h.calls w' c hc).opened b' hb') } }
  refine h1.setRegister (fun c hc => ?_)
  cases hc
  refine ⟨ht, fun x hx hxb hxs => ?_, fun b' hb' => ?_, nofun, nofun, nofun⟩
  · -- the stream would be the client's of this main future
    cases hxo : x.owner with
    | main b' =>
      rw [hxo] at hxb
      obtain rfl : b' = b := hxb
      rw [h.opened x hx b' hxo] at hb
      cases hb
    | _ => rw [hxo] at hxs; cases hxs
  · cases hb'
    exact Function.update_self ..

/-- **One step of the server.** -/
theorem Sourced.step (h : Sourced cfg s)
    (hr : (Executor.machine cfg).Reach (State.Admits fresh) s.exec) (hk : s.Kept) {debug : Bool}
    {a : ServerAct W T} (had : s.Admitted cfg debug a) (hap : s.Apart cfg a)
    (hs : s.step cfg debug a = some s') :
    Sourced cfg s' ∧ (Executor.machine cfg).Reach (State.Admits fresh) s'.exec := by
  have hk' := had.2 s' hs
  cases a with
  | exec a => exact h.execStep hr hk (had.1 a rfl) hs hk'
  | client w =>
    simp only [Server.step] at hs
    split at hs
    · next b ht =>
      split at hs
      · next hg =>
        cases hs
        exact ⟨h.client ht hg.2.2.2, hr⟩
      · cases hs
    · cases hs
  | register w fails =>
    simp only [Server.step] at hs
    split at hs
    · obtain ⟨c, hc, hs⟩ := Option.bind_eq_some_iff.mp hs
      exact h.registerStep hr hk hc (hap c hc) hs hk'
    · cases hs
  | drop x =>
    simp only [Server.step] at hs
    split at hs
    · next hx =>
      cases hs
      refine ⟨h.drop hx, ?_⟩
      unfold Server.dropStep
      dsimp only
      split <;> exact hr
    · cases hs
  | pollIo x =>
    simp only [Server.step] at hs
    split at hs
    · next hx =>
      cases hs
      refine ⟨{ h with
        calls := fun w c hc => (h.calls w c hc).congr rfl rfl rfl (fun _ _ _ _ => rfl)
        unheard := ?_ }, hr⟩
      show (s.unheard || _) = false
      rw [h.unheard, h.source x hx.1]
      rfl
    · cases hs
  | poison i =>
    cases hs
    have hval : ∀ j, (Function.update s.sources i (s.sources i).unwind j).val
        = (s.sources j).val := by
      intro j
      by_cases e : j = i
      · subst e
        rw [Function.update_self, Mutex.val_unwind]
      · rw [Function.update_of_ne e]
    exact ⟨{ h with
      source := fun x hx => (hval x.place).trans (h.source x hx)
      calls := fun w c hc => (h.calls w c hc).congr rfl rfl rfl (fun _ _ _ _ => hval _) }, hr⟩

/-- With a stream in every bucket, and connections that `u32` can count, no handshake registers
under the queue index of another task. -/
theorem Sourced.apart (h : Sourced cfg s)
    (hr : (Executor.machine cfg).Reach (State.Admits fresh) s.exec)
    (ht : 1 ≤ cfg.io.tcpStreams ∨ cfg.io.httpConnections = 0)
    (hn : cfg.bucketCount * cfg.io.httpConnections ≤ 2^32) {w : W} {c : RegisterPc}
    (hc : s.register w = some c) : c.owner.Apart cfg := by
  have hcall := h.calls w c hc
  cases ho : c.owner with
  | main b => trivial
  | handshake b i =>
    obtain ⟨hi, _⟩ := hcall.reserved b i ho
    have hta : (s.exec.task w).bucket = some b := by
      rw [hcall.task, ho]
      rfl
    have hb := (bucket_lt_of_reach hr).at_task (attached_of_reach hr) hta b hta
    have hmul := Nat.mul_le_mul_right cfg.io.httpConnections (Nat.succ_le_of_lt hb)
    rw [Nat.succ_mul] at hmul
    refine ⟨by omega, ?_⟩
    show b * cfg.io.httpConnections + i < 2^32
    omega
  | conn b i => exact absurd ho (hcall.notConn b i)

end
end

end Nea
