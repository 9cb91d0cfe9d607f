import Nea.Benchmarks.Tokio
import Nea.Lib.Utf8

/-!
# The responses of the tokio benchmark (`rust-tokio/src/response.rs`)

A response announces the length of its body.  What a client makes of that is said by a reader that
knows nothing of the writer: it takes a message to end as many bytes behind the blank line as the
head announces.

* `Response.display`  what `Display` writes: the lines of the head, a blank line, the body;
* `readMessage`       the client: one message off the front of a stream of bytes;
* `readMessage_bytes` a response is read as it was written, whatever follows it.
-/

open Text Utf8

namespace Nea
namespace Benchmarks
namespace Tokio

/-- one line of ASCII -/
structure Plain (s : Str) : Prop where
  ascii : Ascii s
  oneLine : OneLine s

theorem Plain.append {s t : Str} (h : Plain s) (h' : Plain t) : Plain (s ++ t) where
  ascii c hc := (List.mem_append.mp hc).elim (h.ascii c) (h'.ascii c)
  oneLine := by
    constructor
    · exact fun hc => (List.mem_append.mp hc).elim h.oneLine.cr h'.oneLine.cr
    · exact fun hc => (List.mem_append.mp hc).elim h.oneLine.lf h'.oneLine.lf

theorem Plain.of_all {s : Str}
    (h : s.all (fun c => decide (c.toNat < 128 ∧ c ≠ '\r' ∧ c ≠ '\n')) = true) : Plain s := by
  have hs : ∀ c ∈ s, c.toNat < 128 ∧ c ≠ '\r' ∧ c ≠ '\n' := by
    intro c hc
    exact of_decide_eq_true (List.all_eq_true.mp h c hc)
  exact ⟨fun c hc => (hs c hc).1, fun hc => (hs _ hc).2.1 rfl, fun hc => (hs _ hc).2.2 rfl⟩

/-! ## what is written -/

/-- The field of the source is private: the two constants are the values there are, and a value is
one line of ASCII. -/
structure ContentType where
  text : Str
  plain : Plain text
deriving DecidableEq

/-- `text/plain` -/
def ContentType.textPlain : ContentType where
  text := ['t', 'e', 'x', 't', '/', 'p', 'l', 'a', 'i', 'n']
  plain := .of_all (by decide)

/-- `image/svg+xml` -/
def ContentType.imageSvg : ContentType where
  text := ['i', 'm', 'a', 'g', 'e', '/', 's', 'v', 'g', '+', 'x', 'm', 'l']
  plain := .of_all (by decide)

/-- `NonZeroU16` -/
structure StatusCode where
  code : UInt16
  ne_zero : code ≠ 0
deriving DecidableEq

def StatusCode.ok : StatusCode := ⟨200, by decide⟩

def StatusCode.desc (s : StatusCode) : Str :=
  if s.code = 200 then ['O', 'K'] else ['U', 'n', 'k', 'n', 'o', 'w', 'n']

structure Response where
  contentType : ContentType
  body : Str
  status : StatusCode
deriving DecidableEq

/-- `From<&str>` and `From<String>` -/
def Response.ofStr (value : Str) : Response := ⟨.textPlain, value, .ok⟩

/-- a number as `Display` writes it -/
def decimal (n : ℕ) : Str := Nat.toDigits 10 n

def StatusCode.display (s : StatusCode) : Str := decimal s.code.toNat ++ ' ' :: s.desc

/-- `HTTP/1.1` -/
def httpVersion : Str := ['H', 'T', 'T', 'P', '/', '1', '.', '1']
/-- `Content-Type` -/
def contentTypeName : Str := ['C', 'o', 'n', 't', 'e', 'n', 't', '-', 'T', 'y', 'p', 'e']
/-- `; charset=utf-8` -/
def charset : Str :=
  [';', ' ', 'c', 'h', 'a', 'r', 's', 'e', 't', '=', 'u', 't', 'f', '-', '8']
/-- `Content-Length` -/
def contentLengthName : Str :=
  ['C', 'o', 'n', 't', 'e', 'n', 't', '-', 'L', 'e', 'n', 'g', 't', 'h']

namespace Response

/-- the lines of the head -/
def head (r : Response) : List Str :=
  [httpVersion ++ ' ' :: r.status.display,
    contentTypeName ++ colon ++ (r.contentType.text ++ charset),
    contentLengthName ++ colon ++ decimal (encode r.body).length]

/-- `len()` of a `String` is its length in bytes -/
def display (r : Response) : Str := r.head.flatMap (· ++ crlf) ++ crlf ++ r.body

/-- `to_string().as_bytes()` -/
def bytes (r : Response) : List UInt8 := encode r.display

end Response

/-! ## what a client reads -/

/-- the length that a line announces -/
def lengthOf (line : Str) : Option ℕ :=
  match splitOnce colon line with
  | some (name, value) =>
    if name = contentLengthName ∧ value ≠ [] ∧ value.all Char.isDigit = true then
      some (Nat.ofDigitChars 10 value 0)
    else none
  | none => none

def blankLine : List UInt8 := [13, 10, 13, 10]

/-- the lines of the head and the bytes of the body of the first message of a stream, and what
follows it -/
def readMessage (input : List UInt8) : Option ((List Str × List UInt8) × List UInt8) :=
  match splitOnce blankLine input with
  | none => none
  | some (head, rest) =>
    match (lines (head.map Char.ofUInt8)).findSome? lengthOf with
    | none => none
    | some n =>
      if n ≤ rest.length then
        some ((lines (head.map Char.ofUInt8), rest.take n), rest.drop n)
      else none

/-! ## the head -/

theorem isDigit_decimal {n : ℕ} {c : Char} (hc : c ∈ decimal n) : c.isDigit = true :=
  Nat.isDigit_of_mem_toDigits (by decide) (by decide) hc

theorem plain_decimal (n : ℕ) : Plain (decimal n) := by
  have hne : ∀ c : Char, c.isDigit = false → c ∉ decimal n := by
    intro c hc hm
    rw [isDigit_decimal hm] at hc
    cases hc
  refine ⟨fun c hc => ?_, hne _ (by decide), hne _ (by decide)⟩
  have hd := isDigit_decimal hc
  simp only [Char.isDigit, Bool.and_eq_true, decide_eq_true_eq] at hd
  have h57 : c.val.toNat ≤ 57 := hd.2
  exact Nat.lt_of_le_of_lt h57 (by decide)

section
variable (r : Response)

theorem plain_head : ∀ l ∈ r.head, l ≠ [] ∧ Plain l := by
  have hdesc : Plain r.status.desc := by
    unfold StatusCode.desc
    split
    · exact .of_all (by decide)
    · exact .of_all (by decide)
  have hblank : Plain [' '] := .of_all (by decide)
  have hcolon : Plain colon := .of_all (by decide)
  intro l hl
  rcases List.mem_cons.mp hl with rfl | hl
  · refine ⟨by simp [httpVersion], ?_⟩
    have hv : Plain httpVersion := .of_all (by decide)
    exact hv.append (hblank.append ((plain_decimal _).append (hblank.append hdesc)))
  · rcases List.mem_cons.mp hl with rfl | hl
    · refine ⟨by simp [contentTypeName], ?_⟩
      have hn : Plain contentTypeName := .of_all (by decide)
      exact (hn.append hcolon).append (r.contentType.plain.append (.of_all (by decide)))
    · rw [List.mem_singleton.mp hl]
      refine ⟨by simp [contentLengthName], ?_⟩
      have hn : Plain contentLengthName := .of_all (by decide)
      exact (hn.append hcolon).append (plain_decimal _)

/-- The head is found, and its lines are the lines written. -/
theorem splitOnce_display : ∃ t, Ascii t ∧ lines t = r.head ∧
    r.display = t ++ (crlf ++ crlf) ++ r.body ∧
    ¬ crlf ++ crlf <:+: t ++ (crlf ++ crlf).dropLast := by
  have hp := plain_head r
  obtain ⟨l, ls, hls⟩ : ∃ l ls, r.head = l :: ls := ⟨_, _, rfl⟩
  obtain ⟨t, ht⟩ := flatMap_crlf (List.cons_ne_nil l ls)
  rw [hls] at hp
  obtain ⟨h1, h2⟩ := List.forall_mem_cons.mp hp
  obtain ⟨u, hu⟩ := splitOnce_blank h1.2.oneLine.cr
    (fun l' hl' => ⟨(h2 l' hl').1, (h2 l' hl').2.oneLine.cr⟩) r.body
  have hd : crlf ++ crlf ≠ [] := List.cons_ne_nil _ _
  obtain ⟨h3, h4⟩ := (splitOnce_eq_some hd).mp hu
  have htu : t = u := by
    rw [ht, ← List.append_assoc u] at h3
    exact List.append_cancel_right (List.append_cancel_right (List.append_cancel_right h3))
  subst htu
  refine ⟨t, ?_, ?_, ?_, h4⟩
  · -- every character of the head is in one of its lines
    intro c hc
    have hm : c ∈ (l :: ls).flatMap (· ++ crlf) := by
      rw [ht]
      exact List.mem_append_left _ hc
    obtain ⟨l', hl', hc'⟩ := List.mem_flatMap.mp hm
    rcases List.mem_append.mp hc' with hc' | hc'
    · exact (hp l' hl').2.ascii c hc'
    · rcases List.mem_cons.mp hc' with rfl | hc'
      · decide
      · rw [List.mem_singleton.mp hc']
        decide
  · rw [hls]
    exact lines_of_flatMap (List.cons_ne_nil l ls)
      (fun l' hl' => ⟨(hp l' hl').1, (hp l' hl').2.oneLine.lf⟩) ht
  · rw [Response.display, hls]
    exact h3

/-- **The head announces the length of the body.** -/
theorem findSome_head : r.head.findSome? lengthOf = some (encode r.body).length := by
  have hstatus : lengthOf (httpVersion ++ ' ' :: r.status.display) = none := by
    have hcolon : ':' ∉ httpVersion ++ ' ' :: r.status.display := by
      have h1 : ':' ∉ decimal r.status.code.toNat := by
        intro hm
        have := isDigit_decimal hm
        revert this
        decide
      have h2 : ':' ∉ r.status.desc := by
        unfold StatusCode.desc
        split <;> decide
      simp only [StatusCode.display, List.mem_append, List.mem_cons, not_or]
      exact ⟨by decide, by decide, h1, by decide, h2⟩
    have hnone : splitOnce colon (httpVersion ++ ' ' :: r.status.display) = none := by
      rw [splitOnce_eq_none]
      intro hi
      exact hcolon (hi.subset List.mem_cons_self)
    rw [lengthOf, hnone]
  have htype : lengthOf (contentTypeName ++ colon ++ (r.contentType.text ++ charset)) = none := by
    have hsome : splitOnce colon (contentTypeName ++ colon ++ (r.contentType.text ++ charset)) =
        some (contentTypeName, r.contentType.text ++ charset) :=
      splitOnce_append (by decide) _
    rw [lengthOf, hsome]
    exact if_neg (fun hn => absurd hn.1 (by decide))
  have hlength : lengthOf (contentLengthName ++ colon ++ decimal (encode r.body).length) =
      some (encode r.body).length := by
    have hsome : splitOnce colon (contentLengthName ++ colon ++ decimal (encode r.body).length) =
        some (contentLengthName, decimal (encode r.body).length) :=
      splitOnce_append (by decide) _
    have hdigits : (decimal (encode r.body).length).all Char.isDigit = true :=
      List.all_eq_true.mpr (fun c hc => isDigit_decimal hc)
    rw [lengthOf, hsome]
    dsimp only
    rw [if_pos ⟨rfl, Nat.toDigits_ne_nil, hdigits⟩, decimal, Nat.ofDigitChars_ten_toDigits]
  rw [Response.head, List.findSome?_cons, hstatus]
  dsimp only
  rw [List.findSome?_cons, htype]
  dsimp only
  rw [List.findSome?_cons, hlength]

/-! ## what comes back -/

/-- The bytes of the blank line are no part of the head. -/
theorem splitOnce_bytes (rest : List UInt8) :
    ∃ t, Ascii t ∧ lines t = r.head ∧
      splitOnce blankLine (r.bytes ++ rest) = some (encode t, encode r.body ++ rest) := by
  obtain ⟨t, hascii, hlines, hd, hno⟩ := splitOnce_display r
  have hblank : encode (crlf ++ crlf) = blankLine := by decide
  refine ⟨t, hascii, hlines, (splitOnce_eq_some (List.cons_ne_nil _ _)).mpr ⟨?_, fun hi => ?_⟩⟩
  · rw [Response.bytes, hd, encode_append, encode_append, hblank, List.append_assoc]
    rfl
  · -- an occurrence in the bytes is one in the text
    refine hno ?_
    have h1 := hi.map Char.ofUInt8
    rw [List.map_append, (encode_ascii hascii).1] at h1
    exact h1

theorem readMessage_eq {input rest : List UInt8} (h : input = r.bytes ++ rest) :
    readMessage input = some ((r.head, encode r.body), rest) := by
  obtain ⟨t, hascii, hlines, hs⟩ := splitOnce_bytes r rest
  rw [h, readMessage, hs]
  dsimp only
  rw [(encode_ascii hascii).1, hlines, findSome_head r]
  dsimp only
  rw [if_pos (by rw [List.length_append]; omega), List.take_left, List.drop_left]

/-- **A response is read as it was written**, whatever follows it on the connection. -/
theorem readMessage_bytes (rest : List UInt8) :
    readMessage (r.bytes ++ rest) = some ((r.head, encode r.body), rest) := readMessage_eq r rfl

end

end Tokio
end Benchmarks
end Nea
