import Nea.Benchmarks.RocList

/-!
# The request parser of the roc benchmark (`roc-nea/platform/src/lib.rs`)

`Request::parse` over `RocStr`: the fields of the request are not copied but cut from the buffer of
the handler, in front of which it leaves eight bytes for the count; the headers are copied into the
arena.

* `Roc.Request`, `parse`   the function, with the strings it drops on each of its ways out;
* `Raw`, `Spare`           what `from_raw_parts` asks of a buffer, and where the arena may be;
* `parse_refines`          it is `Request::parse` of the text, unless there is no room for the headers,
                           and changes nothing but the count and what was free in the arena;
* `handlerInput_calls`     what the handler calls the application with.
-/

open X64 Text Utf8

namespace Nea
namespace Benchmarks
namespace Roc

structure Request where
  body : RocStr
  headers : RocList
  method : RocStr
  path : RocStr
  version : RocStr

/-- strings that go out of scope, one after the other -/
def dropAll : Memory → List RocStr → Memory
  | m, [] => m
  | m, s :: l => dropAll (s.drop m) l

/-- `none` is the early return of `?` -/
def parse (o : X64.Word) (s : Store) (string : RocStr) : Outcome (Option Request) :=
  match string.splitOnce s.mem (crlf ++ crlf) with
  | none => .panic
  | some (none, m) => .value none { s with mem := m }
  | some (some (headers, body), m) =>
    match string.splitOnce m crlf with
    | none => .panic
    | some (none, m) => .value none { s with mem := dropAll m [body, headers] }
    | some (some (x, headers'), m) =>
      match x.next m (charIndices 0 (x.str m)) with
      | (none, _, m) => .value none { s with mem := dropAll m [headers', x, body, headers] }
      | (some method, it, m) =>
        match x.next m it with
        | (none, _, m) =>
          .value none { s with mem := dropAll m [method, headers', x, body, headers] }
        | (some path, it, m) =>
          match x.next m it with
          | (none, _, m) =>
            .value none { s with mem := dropAll m [path, method, headers', x, body, headers] }
          | (some version, it, m) =>
            match x.next m it with
            | (some _, _, _) => .panic
            | (none, _, m) =>
              (RocList.withCapacity o 16 { s with mem := m }).andThen fun list s =>
                (collect o list s (lines (headers'.str s.mem))).andThen fun list s =>
                  .value (some ⟨body, list, method, path, version⟩)
                    { s with mem := dropAll s.mem [headers', x, headers] }

/-! ## the buffer of the handler -/

/-- the buffer of zeros, with the bytes that were read at `p`, eight bytes from its start -/
def buffer (m : Memory) (p : X64.Word) (bytes : List UInt8) : Memory :=
  writeBytes (writeBytes m (p - 8) (List.replicate 4096 0)) p (bytes.map UInt8.toBitVec)

/-- what `handler` gives to `mainForHost` -/
def handlerInput (o p : X64.Word) (bytes : List UInt8) (s : Store) : Outcome Request :=
  let m := buffer s.mem p bytes
  match decode bytes with
  | none => .panic
  | some _ =>
    if 8 + bytes.length < 4096 then
      (parse o { s with mem := m }
        (RocStr.fromRawParts m p bytes.length bytes.length)).andThen fun input s =>
          match input with
          | none => .panic
          | some input => .value input s
    else .panic

/-- `n` bytes at `p`, which are a text, of `cap` bytes behind a count -/
structure Raw (m : Memory) (p : X64.Word) (n cap : ℕ) (t : Str) : Prop where
  aligned : 8 ∣ p.toNat
  text : bytesAt m p n = encode t
  le : n ≤ cap
  fits : allocBytes 1 cap ≤ 2^63 - 8

/-- no byte of the buffer, the count included, is free in the arena at `o` -/
structure Spare (o : X64.Word) (s : Store) (p : X64.Word) (cap : ℕ) : Prop where
  le : s.remaining ≤ 2^62
  apart : ∀ i < allocBytes 1 cap, s.remaining ≤ (p - 8 + BitVec.ofNat 64 i - o).toNat

section
variable {o p k : X64.Word} {m : Memory} {s s' : Store} {n cap : ℕ} {t : Str}

theorem allocBytes_one (n : ℕ) : allocBytes 1 n = 8 + n := congrArg (8 + ·) (Nat.mul_one n)

theorem Raw.length (h : Raw m p n cap t) : n = (encode t).length := by
  rw [← h.text, length_bytesAt]

theorem Raw.lt (h : Raw m p n cap t) : n + 16 ≤ 2^63 := by
  have hle := h.le
  have hfits := h.fits
  rw [allocBytes_one] at hfits
  omega

/-- The string over the buffer reads the text. -/
theorem Raw.front (h : Raw m p n cap t) :
    (RocStr.fromRawParts m p n cap).isSmallStr = decide (n ≤ smallCapacity) ∧
      Front m p n (RocStr.fromRawParts m p n cap) (encode t) := by
  unfold RocStr.fromRawParts
  by_cases hn : n ≤ smallCapacity
  · have hfit : (encode t).length ≤ smallCapacity := by
      rw [← h.length]
      exact hn
    obtain ⟨h1, h2⟩ := RocStr.isSmallStr_small hfit
    have hs : (RocStr.ofSmall (bytesAt m p n)).getD (.small []) = .small (encode t) := by
      rw [h.text, RocStr.ofSmall, if_pos hfit]
      rfl
    rw [if_pos hn, hs, h1]
    refine ⟨(decide_eq_true hn).symm, ⟨fun m' _ => h2 m', fun _ => hfit, fun hf => ?_,
      fun hf => ?_⟩, fun hf => ?_⟩
    all_goals
      rw [h1] at hf
      cases hf
  · have hle := h.le
    have hfits := h.fits
    rw [allocBytes_one] at hfits
    obtain ⟨h1, h2, h3, h4⟩ := ofBig_block p (by omega : n < 2^63) (by omega : cap < 2^63)
    rw [if_neg hn, h1]
    refine ⟨(decide_eq_false hn).symm, ⟨fun m' hm => ?_, fun hf => ?_, fun _ => ?_, fun _ _ => ?_⟩,
      fun _ => RocStr.elements_ofBig⟩
    · rw [RocStr.asBytes_big h1, RocStr.len_big h1, h3, RocStr.elements_ofBig, hm, h.text]
    · rw [h1] at hf
      cases hf
    · rw [RocStr.ptrToRefcount, h2, RocStr.elements_ofBig]
      rfl
    · rw [h4]
      rintro rfl
      exact hn (hle.trans (Nat.zero_le _))

/-- the bytes of the headers are some of the bytes of the text -/
theorem Raw.headers (h : Raw m p n cap t) {x r : Str} (hl : Text.splitOnce crlf t = some (x, r)) :
    ∀ y ∈ headersOf r,
      (encode y.key).length + 16 ≤ 2^63 ∧ (encode y.value).length + 16 ≤ 2^63 := by
  intro y hy
  have hd : crlf ≠ [] := List.cons_ne_nil _ _
  have hn := h.length
  have hlt := h.lt
  have hr : r.Sublist t := by
    rw [((splitOnce_eq_some hd).mp hl).1]
    exact List.sublist_append_right _ r
  have hline := length_encode_le ((sublist_of_mem_headersOf hy).trans hr)
  have hlen : (encode y.line).length =
      (encode y.key).length + (encode colon).length + (encode y.value).length := by
    rw [Benchmarks.Header.line, encode_append, encode_append, List.length_append,
      List.length_append]
  omega

theorem bytesAt_buffer {bytes : List UInt8} (h : bytes.length ≤ 2^64) :
    bytesAt (buffer m p bytes) p bytes.length = bytes := bytesAt_writeBytes h p

/-- the handler keeps to what `from_raw_parts` asks -/
theorem buffer_raw (hp : 8 ∣ p.toNat) {bytes : List UInt8} (hb : decode bytes = some t)
    (hlen : 8 + bytes.length < 4096) :
    Raw (buffer m p bytes) p bytes.length bytes.length t where
  aligned := hp
  text := by
    rw [bytesAt_buffer (by omega)]
    exact decode_eq_some.mp hb
  le := le_rfl
  fits := by
    rw [allocBytes_one]
    omega

/-- The eight bytes in front of the text are zero. -/
theorem load_buffer {bytes : List UInt8} (hlen : 8 + bytes.length < 4096) :
    load (buffer m p bytes) (p - 8) = 0 := by
  have hzero : ∀ i < 8, buffer m p bytes (p - 8 + BitVec.ofNat 64 i) = 0 := by
    intro i hi
    have he : p - 8 + BitVec.ofNat 64 i - p = BitVec.ofNat 64 i - 8 := by grind
    have hle : (bytes.map UInt8.toBitVec).length ≤ (p - 8 + BitVec.ofNat 64 i - p).toNat := by
      rw [he, BitVec.toNat_sub, BitVec.toNat_ofNat, Nat.mod_eq_of_lt (by omega : i < 2^64),
        List.length_map]
      show bytes.length ≤ (2^64 - 8 + i) % 2^64
      omega
    show (bytes.map UInt8.toBitVec)[(p - 8 + BitVec.ofNat 64 i - p).toNat]?.getD _ = 0
    rw [List.getElem?_eq_none hle, Option.getD_none]
    have hin : i < (List.replicate 4096 (0 : BitVec 8)).length := by
      rw [List.length_replicate]
      omega
    rw [writeBytes_apply (by rw [List.length_replicate]; decide) hin, List.getElem_replicate]
  have hload : load (buffer m p bytes) (p - 8) = load (fun _ => 0) 0 := load_congr hzero
  rw [hload]
  decide

/-! ## the arena beside the buffer -/

namespace Spare

/-- a byte of the buffer -/
theorem offset (h : Spare o s p cap) {x : X64.Word} (hx : (x - (p - 8)).toNat < allocBytes 1 cap) :
    s.remaining ≤ (x - o).toNat := by
  have hle := h.apart _ hx
  rwa [BitVec.ofNat_toNat, BitVec.setWidth_eq, BitVec.add_comm, BitVec.sub_add_cancel] at hle

/-- what is written for the headers leaves the buffer as it is -/
theorem kept (h : Spare o s p cap) (hr : Raw s.mem p n cap t)
    (hk : Kept o s.remaining { s with mem := counted s.mem p k } s') :
    bytesAt s'.mem p n = bytesAt s.mem p n ∧ counted s'.mem p k = s'.mem := by
  have hle := hr.le
  have hfits := hr.fits
  have hone := allocBytes_one cap
  have hsame : ∀ i < allocBytes 1 cap,
      s'.mem (p - 8 + BitVec.ofNat 64 i) = counted s.mem p k (p - 8 + BitVec.ofNat 64 i) :=
    fun i hi => hk.mem _ (.inr (h.apart i hi))
  constructor
  · have hbytes : bytesAt s'.mem p n = bytesAt (counted s.mem p k) p n := by
      refine bytesAt_congr (fun i hi => ?_)
      have he : p + BitVec.ofNat 64 i = p - 8 + BitVec.ofNat 64 (i + 8) := by
        rw [BitVec.ofNat_add]
        grind
      rw [he]
      exact hsame (i + 8) (by omega)
    rw [hbytes, bytesAt_counted (by omega)]
  · have hload : load s'.mem (p - 8) = k := by
      rw [← load_counted (m := s.mem) (p := p) (k := k)]
      exact load_congr (fun i hi => hsame i (by omega))
    rw [← hload, counted_load]

/-- whatever the count becomes -/
theorem counted (h : Spare o s p cap) (k' : X64.Word)
    (hk : Kept o s.remaining { s with mem := Roc.counted s.mem p k } s') :
    Kept o s.remaining { s with mem := Roc.counted s.mem p k' }
      { s' with mem := Roc.counted s'.mem p k' } ∧
    SameOn o (fun y => y < s.remaining) s'.mem (Roc.counted s'.mem p k') := by
  have hone := allocBytes_one cap
  constructor
  · refine ⟨hk.le, fun x hx => ?_⟩
    by_cases hc : (x - (p - 8)).toNat < 8
    · show store _ _ _ x = store _ _ _ x
      rw [store, store, if_pos hc, if_pos hc]
    · have hx1 := hk.mem x hx
      show store _ _ _ x = store _ _ _ x
      rw [store_of_le _ _ (by omega), store_of_le _ _ (by omega), hx1]
      exact store_of_le _ _ (by omega)
  · intro x hx
    refine store_of_le _ _ (Nat.le_of_not_lt (fun hc => ?_))
    have hoff := h.offset (x := x) (by omega)
    omega

end Spare

/-! ## what is dropped -/

theorem dropAll_eq {l : List RocStr} (hl : ∀ s ∈ l, ∃ b, Piece m p n s b) (k : X64.Word) :
    ∃ k', dropAll (counted m p k) l = counted m p k' := by
  induction l generalizing k with
  | nil => exact ⟨k, rfl⟩
  | cons s l ih =>
    rw [List.forall_mem_cons] at hl
    obtain ⟨b, hb⟩ := hl.1
    obtain ⟨k1, h1⟩ := hb.drop_eq k
    rw [dropAll, h1]
    exact ih hl.2 k1

theorem dropAll_small {l : List RocStr} (hl : ∀ s ∈ l, s.isSmallStr = true) (m : Memory) :
    dropAll m l = m := by
  induction l with
  | nil => rfl
  | cons s l ih =>
    rw [List.forall_mem_cons] at hl
    have hs : s.drop m = m := if_pos hl.1
    rw [dropAll, hs]
    exact ih hl.2

/-- Big strings that are not empty leave the count. -/
theorem dropAll_big {l : List RocStr}
    (hl : ∀ s ∈ l, s.isSmallStr = false ∧ ∃ b, b ≠ [] ∧ Piece m p n s b) (k : X64.Word) :
    dropAll (counted m p k) l = counted m p (lowered^[l.length] k) := by
  induction l generalizing k with
  | nil => rfl
  | cons s l ih =>
    rw [List.forall_mem_cons] at hl
    obtain ⟨⟨hs, b, hne, hb⟩, hl⟩ := hl
    rw [dropAll, hb.drop hs hne, List.length_cons, Function.iterate_succ_apply]
    exact ih hl (lowered k)

/-- Behind a line that is not empty neither part of the request is empty. -/
theorem parts_ne_nil {a b x r : Str} (hb : Text.splitOnce (crlf ++ crlf) t = some (a, b))
    (hl : Text.splitOnce crlf t = some (x, r)) (hx : x ≠ []) : a ≠ [] ∧ r ≠ [] := by
  have hd : crlf ++ crlf ≠ [] := List.cons_ne_nil _ _
  have hd' : crlf ≠ [] := List.cons_ne_nil _ _
  obtain ⟨h1, -⟩ := (splitOnce_eq_some hd).mp hb
  obtain ⟨h2, h3⟩ := (splitOnce_eq_some hd').mp hl
  constructor
  · rintro rfl
    rw [h1, List.nil_append, List.append_assoc, splitOnce_prefix] at hl
    cases hl
    exact hx rfl
  · rintro rfl
    -- the first of the two line ends is over before the end of the text
    refine h3 ⟨a, (crlf ++ b).dropLast, ?_⟩
    have hne : crlf ++ b ≠ [] := List.cons_ne_nil _ _
    have he : a ++ crlf ++ (crlf ++ b) = x ++ crlf := by
      rw [List.append_nil] at h2
      rw [← h2, h1]
      simp only [List.append_assoc]
    have hlast := congrArg List.dropLast he
    rw [List.dropLast_append_of_ne_nil hne, List.dropLast_append_of_ne_nil hd'] at hlast
    exact hlast

/-! ## the request -/

/-- the count when seven strings have been cut -/
def cutCount (n : ℕ) (k : X64.Word) : X64.Word := if n ≤ smallCapacity then k else k + 7

/-- the count when three of them have been dropped -/
def heldCount (n : ℕ) (k : X64.Word) : X64.Word :=
  if n ≤ smallCapacity then k else lowered^[3] (k + 7)

/-- the strings of a request, cut from the buffer at `p`, and its headers, which are in the arena
below `top` -/
structure Reads (o : X64.Word) (top : ℕ) (s : Store) (p : X64.Word) (n : ℕ) (q : Request)
    (r : Benchmarks.Request) : Prop where
  body : Piece s.mem p n q.body (encode r.body)
  headers : ∀ m, SameOn o (fun y => s.remaining ≤ y ∧ y < top) s.mem m →
    q.headers.headers m = r.headers
  method : Piece s.mem p n q.method (encode r.method)
  path : Piece s.mem p n q.path (encode r.path)
  version : Piece s.mem p n q.version (encode r.version)

/-- the blocks for the list and the headers of a request -/
def blocks (r : Benchmarks.Request) : List ℕ := allocBytes headerSize 16 :: needs 0 r.headers

/-- an accepted request: it reads the fields, if there is room for its blocks -/
def Accepts {α : Type} (o : X64.Word) (s : Store) (p : X64.Word) (n : ℕ) (r : Benchmarks.Request)
    (ret : Request → α) (x : Outcome α) : Prop :=
  match supply s.remaining (blocks r) with
  | none => ∃ s', x = .outOfMemory s' ∧
    Kept o s.remaining { s with mem := counted s.mem p (cutCount n (load s.mem (p - 8))) } s'
  | some left => ∃ q s', x = .value (ret q) s' ∧ s'.remaining = left ∧
    Kept o s.remaining { s with mem := counted s.mem p (heldCount n (load s.mem (p - 8))) } s' ∧
    Reads o s.remaining s' p n q r

theorem Accepts.andThen {α β : Type} {r : Benchmarks.Request} {f : Request → α} {g : Request → β}
    {x : Outcome α} {y : α → Store → Outcome β} (h : Accepts o s p n r f x)
    (hy : ∀ q s', y (f q) s' = .value (g q) s') : Accepts o s p n r g (x.andThen y) := by
  unfold Accepts at h ⊢
  cases hroom : supply s.remaining (blocks r) with
  | none =>
    rw [hroom] at h
    obtain ⟨s', rfl, hk⟩ := h
    exact ⟨s', rfl, hk⟩
  | some left =>
    rw [hroom] at h
    obtain ⟨q, s', rfl, hread⟩ := h
    exact ⟨q, s', hy q s', hread⟩

/-- what the parser of the text says, said of the strings -/
def Agrees (o : X64.Word) (s : Store) (p : X64.Word) (n : ℕ) :
    Option (Option Benchmarks.Request) → Outcome (Option Request) → Prop
  | none, x => x = .panic
  | some none, x => ∃ k, x = .value none { s with mem := counted s.mem p k }
  | some (some r), x => Accepts o s p n r some x

theorem agrees_none {l : List RocStr} (hl : ∀ x ∈ l, ∃ b, Piece s.mem p n x b) (k : X64.Word) :
    Agrees o s p n (some none) (.value none { s with mem := dropAll (counted s.mem p k) l }) := by
  obtain ⟨k', hk⟩ := dropAll_eq hl k
  exact ⟨k', by rw [hk]⟩

theorem cutCount_eq {x y : RocStr} (hsmall : x.isSmallStr = decide (n ≤ smallCapacity))
    (hy : y.isSmallStr = x.isSmallStr) (k : X64.Word) :
    y.more (y.more (y.more (x.more (x.more (x.more (x.more k)))))) = cutCount n k := by
  have hmore : ∀ q : RocStr, q.isSmallStr = decide (n ≤ smallCapacity) →
      ∀ k, q.more k = if n ≤ smallCapacity then k else k + 1 := by
    intro q hq k
    rw [RocStr.more, hq]
    by_cases hn : n ≤ smallCapacity <;> simp [hn]
  simp only [hmore x hsmall, hmore y (hy.trans hsmall), cutCount]
  by_cases hn : n ≤ smallCapacity
  · simp only [if_pos hn]
  · simp only [if_neg hn, BitVec.add_assoc]
    rfl

/-- three strings that are not empty are dropped -/
theorem dropAll_cut {x y z : RocStr} (hsmall : x.isSmallStr = decide (n ≤ smallCapacity))
    (hy : y.isSmallStr = x.isSmallStr) (hz : z.isSmallStr = x.isSmallStr) {a b c : Str}
    (ha : a ≠ []) (hb : b ≠ []) (hc : c ≠ []) (h1 : Piece m p n x (encode a))
    (h2 : Piece m p n y (encode b)) (h3 : Piece m p n z (encode c)) (k : X64.Word) :
    dropAll (counted m p (cutCount n k)) [x, y, z] = counted m p (heldCount n k) := by
  unfold cutCount heldCount
  by_cases hn : n ≤ smallCapacity
  · rw [decide_eq_true hn] at hsmall
    have hall : ∀ q ∈ [x, y, z], q.isSmallStr = true := by
      simp only [List.forall_mem_cons]
      exact ⟨hsmall, hy.trans hsmall, hz.trans hsmall, fun q hq => absurd hq List.not_mem_nil⟩
    rw [if_pos hn, if_pos hn]
    exact dropAll_small hall _
  · rw [decide_eq_false hn] at hsmall
    have hall : ∀ q ∈ [x, y, z], q.isSmallStr = false ∧ ∃ l, l ≠ [] ∧ Piece m p n q l := by
      simp only [List.forall_mem_cons]
      exact ⟨⟨hsmall, _, encode_ne_nil ha, h1⟩, ⟨hy.trans hsmall, _, encode_ne_nil hb, h2⟩,
        ⟨hz.trans hsmall, _, encode_ne_nil hc, h3⟩, fun q hq => absurd hq List.not_mem_nil⟩
    rw [if_neg hn, if_neg hn]
    exact dropAll_big hall _

/-- **The headers are copied**, and three strings go out of scope. -/
theorem accepts_headers (h : Raw s.mem p n cap t) (hs : Spare o s p cap) {line rest : Str}
    (hl : Text.splitOnce crlf t = some (line, rest)) {x y z body method path version : RocStr}
    (hx : Piece s.mem p n x (encode rest))
    (hdrop : ∀ m, bytesAt m p n = bytesAt s.mem p n →
      dropAll (counted m p (cutCount n (load s.mem (p - 8)))) [x, y, z] =
        counted m p (heldCount n (load s.mem (p - 8))))
    {b w1 w2 w3 : Str} (hbody : Piece s.mem p n body (encode b))
    (h1 : Piece s.mem p n method (encode w1)) (h2 : Piece s.mem p n path (encode w2))
    (h3 : Piece s.mem p n version (encode w3)) :
    Accepts o s p n ⟨b, headersOf rest, w1, w2, w3⟩ some
      ((RocList.withCapacity o 16
        { s with mem := counted s.mem p (cutCount n (load s.mem (p - 8))) }).andThen fun list s =>
          (collect o list s (lines (x.str s.mem))).andThen fun list s =>
            .value (some ⟨body, list, method, path, version⟩)
              { s with mem := dropAll s.mem [x, y, z] }) := by
  unfold Accepts
  generalize load s.mem (p - 8) = k at hdrop ⊢
  have hroom : Runs o s.remaining { s with mem := counted s.mem p (cutCount n k) }
      [allocBytes headerSize 16]
      (RocList.withCapacity o 16 { s with mem := counted s.mem p (cutCount n k) })
      (fun l s' => l.capacityOrRefPtr = 16 ∧ Listed o s.remaining s'.remaining s' l []) :=
    withCapacity_runs hs.le rfl
  have hlist : Runs o s.remaining { s with mem := counted s.mem p (cutCount n k) }
      (blocks ⟨b, headersOf rest, w1, w2, w3⟩)
      ((RocList.withCapacity o 16 { s with mem := counted s.mem p (cutCount n k) }).andThen
        fun list s => collect o list s (lines (x.str s.mem)))
      (fun l s' => ∃ a, Listed o s.remaining a s' l (headersOf rest)) := by
    show Runs _ _ _ ([allocBytes headerSize 16] ++ needs 0 (headersOf rest)) _ _
    refine hroom.andThen (fun l s1 hk hnew => ?_)
    rw [hx.str (hs.kept h hk).1]
    exact collect_runs hs.le (h.headers hl) hnew.2 hnew.1
  rw [← Outcome.andThen_assoc]
  unfold Runs at hlist
  cases hr : supply s.remaining (blocks ⟨b, headersOf rest, w1, w2, w3⟩) with
  | none =>
    rw [hr] at hlist
    obtain ⟨s', he, hk⟩ := hlist
    rw [he]
    exact ⟨s', rfl, hk⟩
  | some left =>
    rw [hr] at hlist
    obtain ⟨l, s', he, hleft, hk, a, hread⟩ := hlist
    obtain ⟨hbytes, hcount⟩ := hs.kept h hk
    have hfinal := hdrop s'.mem hbytes
    rw [hcount] at hfinal
    obtain ⟨hk', hsame⟩ := hs.counted (heldCount n k) hk
    have hn := h.lt
    have hcut : bytesAt (counted s'.mem p (heldCount n k)) p n = bytesAt s.mem p n :=
      (bytesAt_counted (by omega) _).trans hbytes
    refine ⟨⟨body, l, method, path, version⟩, { s' with mem := counted s'.mem p (heldCount n k) },
      ?_, hleft, hk', hbody.transfer hcut, ?_, h1.transfer hcut, h2.transfer hcut, h3.transfer hcut⟩
    · rw [he, ← hfinal]
      rfl
    · intro m hm
      exact hread.reads m (fun x hu => (hm x ⟨hu.1, hu.2.1⟩).trans (hsame x hu.2.1))

/-- Whatever the string over the buffer is, the parser cuts it up as that of the text says. -/
theorem parse_front (h : Raw s.mem p n cap t) (hs : Spare o s p cap) {w : RocStr}
    (hsmall : w.isSmallStr = decide (n ≤ smallCapacity)) (hw : Front s.mem p n w (encode t)) :
    Agrees o s p n (Benchmarks.Request.parse t) (parse o s w) := by
  have hd : crlf ++ crlf ≠ [] := List.cons_ne_nil _ _
  have hd' : crlf ≠ [] := List.cons_ne_nil _ _
  have hn : n < 2^63 := by
    have hlt := h.lt
    omega
  have hm : { s with mem := counted s.mem p (load s.mem (p - 8)) } = s := by rw [counted_load]
  have hstart : parse o s w =
      parse o { s with mem := counted s.mem p (load s.mem (p - 8)) } w := by rw [hm]
  rw [hstart]
  unfold Benchmarks.Request.parse parse
  generalize hk : load s.mem (p - 8) = k
  cases hb : Text.splitOnce (crlf ++ crlf) t with
  | none =>
    rw [hw.splitOnce_none hn k hb]
    exact ⟨k, rfl⟩
  | some ab =>
    obtain ⟨a, b⟩ := ab
    obtain ⟨headers, body, e1, hs1, hfront1, hs2, hbody⟩ :=
      hw.splitOnce_some h.aligned hn k hd hb
    rw [e1]
    dsimp only
    cases hl : Text.splitOnce crlf t with
    | none =>
      rw [hw.splitOnce_none hn _ hl]
      have hlist : ∀ x ∈ [body, headers], ∃ b, Piece s.mem p n x b :=
        List.forall_mem_cons.mpr ⟨⟨_, hbody⟩, List.forall_mem_singleton.mpr ⟨_, hfront1.toPiece⟩⟩
      exact agrees_none hlist _
    | some xr =>
      obtain ⟨line, rest⟩ := xr
      obtain ⟨x, headers', e2, hs3, hx, hs4, hrest⟩ :=
        hw.splitOnce_some h.aligned hn (w.more (w.more k)) hd' hl
      rw [e2]
      dsimp only
      rw [hx.str (bytesAt_counted hn _)]
      have hlist : ∀ q ∈ [headers', x, body, headers], ∃ b, Piece s.mem p n q b := by
        simp only [List.forall_mem_cons]
        exact ⟨⟨_, hrest⟩, ⟨_, hx.toPiece⟩, ⟨_, hbody⟩, ⟨_, hfront1.toPiece⟩,
          fun q hq => absurd hq List.not_mem_nil⟩
      have hline : charIndices 0 line = charIndices (encode []).length line := rfl
      rw [hline]
      -- one case for each word that is missing, and one for a word too many
      rcases hx.next h.aligned hn (List.nil_append line).symm
        (w.more (w.more (w.more (w.more k)))) with
        ⟨hw1, e3⟩ | ⟨w1, method, pre1, r1, hw1, ht1, e3, -, hmethod⟩
      · rw [e3, hw1]
        exact agrees_none hlist _
      rw [e3, hw1]
      dsimp only
      have hlist1 : ∀ q ∈ [method, headers', x, body, headers], ∃ b, Piece s.mem p n q b :=
        List.forall_mem_cons.mpr ⟨⟨_, hmethod⟩, hlist⟩
      rcases hx.next h.aligned hn ht1 _ with
        ⟨hw2, e4⟩ | ⟨w2, path, pre2, r2, hw2, ht2, e4, -, hpath⟩
      · rw [e4, hw2]
        exact agrees_none hlist1 _
      rw [e4, hw2]
      dsimp only
      have hlist2 : ∀ q ∈ [path, method, headers', x, body, headers], ∃ b, Piece s.mem p n q b :=
        List.forall_mem_cons.mpr ⟨⟨_, hpath⟩, hlist1⟩
      rcases hx.next h.aligned hn ht2 _ with
        ⟨hw3, e5⟩ | ⟨w3, version, pre3, r3, hw3, ht3, e5, -, hversion⟩
      · rw [e5, hw3]
        exact agrees_none hlist2 _
      rw [e5, hw3]
      dsimp only
      rcases hx.next h.aligned hn ht3 _ with
        ⟨hw4, e6⟩ | ⟨w4, fourth, pre4, r4, hw4, ht4, e6, -, -⟩
      · rw [e6, hw4, cutCount_eq hsmall hs3]
        have hne : line ≠ [] := by
          rintro rfl
          cases hw1
        obtain ⟨hane, hrne⟩ := parts_ne_nil hb hl hne
        subst hk
        refine accepts_headers h hs hl hrest (fun m hm => ?_) hbody hmethod hpath hversion
        exact dropAll_cut (hs4.trans hsmall) (hs3.trans hs4.symm) (hs1.trans hs4.symm) hrne hne hane
          (hrest.transfer hm) (hx.toPiece.transfer hm) (hfront1.toPiece.transfer hm) _
      · rw [e6, hw4]
        rfl

/-- **The parser over strings is the parser of the text.**  It panics, refuses and accepts as that
does, but for an accepted request whose blocks do not fit into the arena; every field reads the same
text; and of the memory it changes the count and what it was given of the arena only. -/
theorem parse_refines (h : Raw s.mem p n cap t) (hs : Spare o s p cap) :
    Agrees o s p n (Benchmarks.Request.parse t)
      (parse o s (RocStr.fromRawParts s.mem p n cap)) := by
  obtain ⟨hsmall, hw⟩ := h.front
  exact parse_front h hs hsmall hw

/-- `get` with a header that is too long for a small string -/
def long : Benchmarks.Request :=
  { get [] with headers := [⟨['H', 'o', 's', 't'], List.replicate 24 'a'⟩] }

/-- its text at 8, in a buffer of 100 bytes with a count of five, and an arena of 4096 bytes -/
def longStore : Store := ⟨counted (buffer (fun _ => 0) 8 (encode long.format)) 8 5, 4096⟩

/-- the blocks take 776 and 32 bytes, and the count ends four above where it was -/
theorem parse_refines_long : ∃ q s',
    parse 8192 longStore
      (RocStr.fromRawParts longStore.mem 8 (encode long.format).length 100) =
        .value (some q) s' ∧
    s'.remaining = 3288 ∧ load s'.mem (8 - 8) = 9 ∧
    Reads 8192 longStore.remaining s' 8 (encode long.format).length q long := by
  have htext : bytesAt longStore.mem 8 (encode long.format).length = encode long.format :=
    (bytesAt_counted (by decide) 5).trans (bytesAt_buffer (by decide))
  have hraw : Raw longStore.mem 8 (encode long.format).length 100 long.format :=
    ⟨by decide, htext, by decide, by decide⟩
  have hspare : Spare 8192 longStore 8 100 := ⟨by decide, by decide⟩
  have hparse : Benchmarks.Request.parse long.format = some (some long) := by decide
  have hroom : supply longStore.remaining (blocks long) = some 3288 := by decide
  have hcount : heldCount (encode long.format).length 5 = 9 := by decide
  have hagree := parse_refines hraw hspare
  rw [hparse] at hagree
  have hagree : Accepts 8192 longStore 8 (encode long.format).length long some _ := hagree
  unfold Accepts at hagree
  rw [hroom] at hagree
  obtain ⟨q, s', hrun, hleft, hk, hreads⟩ := hagree
  have hload : load longStore.mem (8 - 8) = 5 := load_counted
  rw [hload, hcount] at hk
  refine ⟨q, s', hrun, hleft, ?_, hreads⟩
  rw [← (hspare.kept hraw hk).2]
  exact load_counted

/-! ## what the application is called with -/

/-- The count ends with the four strings that the application gets. -/
theorem heldCount_buffer {bytes : List UInt8} (hlen : 8 + bytes.length < 4096) :
    heldCount bytes.length (load (buffer m p bytes) (p - 8)) =
      if bytes.length ≤ smallCapacity then 0 else 4 := by
  have hfour : lowered^[3] (0 + 7) = 4 := by decide
  rw [load_buffer hlen, heldCount, hfour]

/-- **What the handler calls the application with**, and when: its strings read the fields of the
text, and whatever is not the text of an accepted request ends in a panic. -/
theorem handlerInput_calls (hp : 8 ∣ p.toNat) (hs : Spare o s p 4088) (bytes : List UInt8) :
    (∀ t r, bytes = encode t → 8 + bytes.length < 4096 →
      Benchmarks.Request.parse t = some (some r) →
      Accepts o { s with mem := buffer s.mem p bytes } p bytes.length r id
        (handlerInput o p bytes s)) ∧
    ∀ q s', handlerInput o p bytes s = .value q s' → ∃ t r, bytes = encode t ∧
      8 + bytes.length < 4096 ∧ Benchmarks.Request.parse t = some (some r) := by
  have hspare : 8 + bytes.length < 4096 →
      Spare o { s with mem := buffer s.mem p bytes } p bytes.length := by
    intro hlen
    refine ⟨hs.le, fun i hi => hs.apart i ?_⟩
    rw [allocBytes_one] at hi ⊢
    omega
  constructor
  · intro t r hb hlen hr
    have hraw : Raw (buffer s.mem p bytes) p bytes.length bytes.length t :=
      buffer_raw hp (decode_eq_some.mpr hb) hlen
    obtain ⟨hsmall, hw⟩ := hraw.front
    have hagree := parse_front hraw (hspare hlen) hsmall hw
    rw [hr] at hagree
    unfold handlerInput
    rw [decode_eq_some.mpr hb]
    dsimp only
    rw [if_pos hlen]
    exact Accepts.andThen hagree (fun _ _ => rfl)
  · intro q s' ho
    unfold handlerInput at ho
    cases hb : decode bytes with
    | none =>
      rw [hb] at ho
      cases ho
    | some t =>
      rw [hb] at ho
      dsimp only at ho
      by_cases hlen : 8 + bytes.length < 4096
      · have hraw : Raw (buffer s.mem p bytes) p bytes.length bytes.length t :=
          buffer_raw hp hb hlen
        obtain ⟨hsmall, hw⟩ := hraw.front
        have hagree := parse_front hraw (hspare hlen) hsmall hw
        rw [if_pos hlen] at ho
        cases hr : Benchmarks.Request.parse t with
        | none =>
          rw [hr] at hagree
          have hagree : parse _ _ _ = .panic := hagree
          rw [hagree] at ho
          cases ho
        | some r =>
          cases r with
          | none =>
            rw [hr] at hagree
            obtain ⟨k, hk⟩ := hagree
            rw [hk] at ho
            cases ho
          | some r => exact ⟨t, r, decode_eq_some.mp hb, hlen, hr⟩
      · rw [if_neg hlen] at ho
        cases ho

end

end Roc
end Benchmarks
end Nea
