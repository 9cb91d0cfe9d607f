import Nea.Benchmarks.Request
import Mathlib.Data.Finmap

/-!
# The request parser of the tokio benchmark (`rust-tokio/src/request.rs`)

`Request::from_str` takes the text apart at the blank line once, and the head into lines; it refuses
what `Request::parse` of the other benchmarks passes over.

* `Tokio.Request`, `fromStr`   the function with its two errors;
* `collect`, `lookup_collect`  the map of the headers, in which the last one of a name stands;
* `fromStr_eq_ok_iff`          what is accepted, and as what;
* `fromStr_format`             the parser inverts the format, whatever the body;
* `fromStr_append`             what follows an accepted request goes to its body.
-/

open Text

namespace Nea
namespace Benchmarks
namespace Tokio

inductive ParseRequestError where
  | unexpectedEof
  | syntaxError
deriving DecidableEq

/-- `BTreeMap<&str, &str>` -/
abbrev HeaderMap := Finmap (fun _ : Str => Str)

structure Request where
  body : Str
  headers : HeaderMap
  method : Str
  path : Str
  version : Str
deriving DecidableEq

/-- the map of a list of pairs: a later one replaces an earlier one of the same name -/
def collect (hs : List Header) : HeaderMap :=
  hs.foldl (fun m h => m.insert h.key h.value) ∅

/-- `collect` of the pairs of all lines, the first error ends it -/
def headerLines : List Str → Except ParseRequestError (List Header)
  | [] => .ok []
  | line :: rest =>
    match splitOnce colon line with
    | none => .error .syntaxError
    | some (key, value) => (headerLines rest).map (⟨key, value⟩ :: ·)

def fromStr (content : Str) : Except ParseRequestError Request :=
  match splitOnce (crlf ++ crlf) content with
  | none => .error .syntaxError
  | some (headers, body) =>
    match lines headers with
    | [] => .error .unexpectedEof
    | line :: rest =>
      match splitOnce [' '] line with
      | none => .error .syntaxError
      | some (method, remainder) =>
        match splitOnce [' '] remainder with
        | none => .error .syntaxError
        | some (path, version) =>
          (headerLines rest).map (fun hs => ⟨body, collect hs, method, path, version⟩)

/-! ## the headers -/

/-- the value of the last header of a name -/
def lastValue (hs : List Header) (key : Str) : Option Str :=
  (hs.reverse.find? (fun h => h.key = key)).map Header.value

theorem lookup_foldl (hs : List Header) (m : HeaderMap) (key : Str) :
    (hs.foldl (fun m h => m.insert h.key h.value) m).lookup key =
      (lastValue hs key).or (m.lookup key) := by
  induction hs generalizing m with
  | nil => rfl
  | cons h hs ih =>
    rw [List.foldl_cons, ih, lastValue, lastValue, List.reverse_cons, List.find?_append]
    cases hf : hs.reverse.find? (fun h => h.key = key) with
    | some x => rfl
    | none =>
      by_cases e : h.key = key
      · subst e
        rw [Finmap.lookup_insert]
        simp
      · rw [Finmap.lookup_insert_of_ne m (Ne.symm e)]
        simp [e]

theorem lookup_collect (hs : List Header) (key : Str) :
    (collect hs).lookup key = lastValue hs key := by
  rw [collect, lookup_foldl, Finmap.lookup_empty, Option.or_none]

theorem not_infix_colon {key : Str} : ¬ colon <:+: key ++ colon.dropLast ↔ ¬ colon <:+: key := by
  have e : colon.dropLast = [':'] := rfl
  rw [e, List.infix_concat_iff, List.suffix_concat_iff, not_or, not_or]
  refine ⟨And.right, fun h => ⟨⟨List.cons_ne_nil _ _, ?_⟩, h⟩⟩
  rintro ⟨t, ht, -⟩
  have hl := congrArg List.getLast? ht
  rw [List.getLast?_concat] at hl
  cases hl

theorem splitOnce_colon {line key value : Str} : splitOnce colon line = some (key, value) ↔
    line = (⟨key, value⟩ : Header).line ∧ ¬ colon <:+: key := by
  have hne : colon ≠ [] := List.cons_ne_nil _ _
  rw [splitOnce_eq_some hne, not_infix_colon]
  rfl

theorem headerLines_eq_ok {ls : List Str} {hs : List Header} : headerLines ls = .ok hs ↔
    ls = hs.map Header.line ∧ ∀ h ∈ hs, ¬ colon <:+: h.key := by
  induction ls generalizing hs with
  | nil =>
    constructor
    · intro h
      cases h
      exact ⟨rfl, fun h hh => absurd hh List.not_mem_nil⟩
    · intro ⟨h1, _⟩
      rw [List.map_eq_nil_iff.mp h1.symm]
      rfl
  | cons l ls ih =>
    rw [headerLines]
    constructor
    · intro h
      split at h
      · cases h
      · next key value hl =>
        cases hr : headerLines ls with
        | error e => rw [hr] at h; cases h
        | ok hs' =>
          rw [hr] at h
          cases h
          obtain ⟨h1, h2⟩ := ih.mp hr
          obtain ⟨h3, h4⟩ := splitOnce_colon.mp hl
          exact ⟨by rw [h3, h1]; rfl, List.forall_mem_cons.mpr ⟨h4, h2⟩⟩
    · intro ⟨h1, h2⟩
      cases hs with
      | nil => cases h1
      | cons h hs =>
        rw [List.map_cons, List.cons.injEq] at h1
        rw [List.forall_mem_cons] at h2
        rw [splitOnce_colon.mpr ⟨h1.1, h2.1⟩]
        show (headerLines ls).map _ = _
        rw [ih.mpr ⟨h1.2, h2.2⟩]
        rfl

/-! ## what is accepted -/

theorem infix_blank {l : Str} : ¬ [' '] <:+: l ++ [' '].dropLast ↔ ' ' ∉ l := by
  have e : [' '].dropLast = [] := rfl
  rw [e, List.append_nil, List.singleton_infix_iff]

theorem splitOnce_blankChar {l m r : Str} :
    splitOnce [' '] l = some (m, r) ↔ l = m ++ ' ' :: r ∧ ' ' ∉ m := by
  rw [splitOnce_eq_some (List.cons_ne_nil _ _), infix_blank, List.append_assoc]
  rfl

/-- What is accepted has these parts. -/
theorem parts_of_fromStr {content : Str} {r : Request} (h : fromStr content = .ok r) :
    ∃ head hs, content = head ++ (crlf ++ crlf) ++ r.body ∧
      ¬ crlf ++ crlf <:+: head ++ (crlf ++ crlf).dropLast ∧
      lines head = (r.method ++ ' ' :: r.path ++ ' ' :: r.version) :: hs.map Header.line ∧
      ' ' ∉ r.method ∧ ' ' ∉ r.path ∧ (∀ h ∈ hs, ¬ colon <:+: h.key) ∧
      r.headers = collect hs := by
  have hd : crlf ++ crlf ≠ [] := List.cons_ne_nil _ _
  unfold fromStr at h
  split at h
  · cases h
  · next head body hs =>
    obtain ⟨h1, h2⟩ := (splitOnce_eq_some hd).mp hs
    split at h
    · cases h
    · next line rest hl =>
      split at h
      · cases h
      · next method remainder hm =>
        split at h
        · cases h
        · next path version hp =>
          cases hr : headerLines rest with
          | error e => rw [hr] at h; cases h
          | ok hs =>
            rw [hr] at h
            cases h
            obtain ⟨h3, h4⟩ := headerLines_eq_ok.mp hr
            obtain ⟨h5, h6⟩ := splitOnce_blankChar.mp hm
            obtain ⟨h7, h8⟩ := splitOnce_blankChar.mp hp
            refine ⟨head, hs, h1, h2, ?_, h6, h8, h4, rfl⟩
            rw [hl, h3, h5, h7, List.append_assoc]
            rfl

/-- What has these parts is accepted. -/
theorem fromStr_of_parts {content head : Str} {r : Request} {hs : List Header}
    (h1 : content = head ++ (crlf ++ crlf) ++ r.body)
    (h2 : ¬ crlf ++ crlf <:+: head ++ (crlf ++ crlf).dropLast)
    (h3 : lines head = (r.method ++ ' ' :: r.path ++ ' ' :: r.version) :: hs.map Header.line)
    (h4 : ' ' ∉ r.method) (h5 : ' ' ∉ r.path) (h6 : ∀ h ∈ hs, ¬ colon <:+: h.key)
    (h7 : r.headers = collect hs) : fromStr content = .ok r := by
  have hd : crlf ++ crlf ≠ [] := List.cons_ne_nil _ _
  have hline : r.method ++ ' ' :: r.path ++ ' ' :: r.version =
      r.method ++ ' ' :: (r.path ++ ' ' :: r.version) := by
    rw [List.append_assoc]
    rfl
  rw [fromStr, (splitOnce_eq_some hd).mpr ⟨h1, h2⟩]
  dsimp only
  rw [h3]
  dsimp only
  rw [splitOnce_blankChar.mpr ⟨hline, h4⟩]
  dsimp only
  rw [splitOnce_blankChar.mpr ⟨rfl, h5⟩]
  dsimp only
  rw [headerLines_eq_ok.mpr ⟨rfl, h6⟩]
  show Except.ok (Request.mk _ (collect hs) _ _ _) = _
  rw [← h7]

/-- **What is accepted, and as what**: a head that ends at the first blank line, of which the first
line is method, path and version, with the first two blanks between them, and every other line a
header, with the first `": "` in it between name and value; the last header of a name stands. -/
theorem fromStr_eq_ok_iff (content : Str) (r : Request) : fromStr content = .ok r ↔
    ∃ head hs, content = head ++ (crlf ++ crlf) ++ r.body ∧
      ¬ crlf ++ crlf <:+: head ++ (crlf ++ crlf).dropLast ∧
      lines head = (r.method ++ ' ' :: r.path ++ ' ' :: r.version) :: hs.map Header.line ∧
      ' ' ∉ r.method ∧ ' ' ∉ r.path ∧ (∀ h ∈ hs, ¬ colon <:+: h.key) ∧
      r.headers = collect hs := by
  constructor
  · exact parts_of_fromStr
  · intro ⟨head, hs, h1, h2, h3, h4, h5, h6, h7⟩
    exact fromStr_of_parts h1 h2 h3 h4 h5 h6 h7

/-- What follows an accepted request goes to its body. -/
theorem fromStr_append {content : Str} {r : Request} (h : fromStr content = .ok r) (s : Str) :
    fromStr (content ++ s) = .ok { r with body := r.body ++ s } := by
  obtain ⟨head, hs, h1, h2, h3, h4, h5, h6, h7⟩ := parts_of_fromStr h
  refine fromStr_of_parts ?_ h2 h3 h4 h5 h6 h7
  rw [h1, List.append_assoc]

/-! ## the format -/

/-- a text without line ends -/
structure OneLine (s : Str) : Prop where
  cr : '\r' ∉ s
  lf : '\n' ∉ s

/-- what a request must be for its format to be accepted as it is -/
structure Readable (r : Benchmarks.Request) : Prop where
  method : OneLine r.method
  method_blank : ' ' ∉ r.method
  path : OneLine r.path
  path_blank : ' ' ∉ r.path
  version : OneLine r.version
  headers : ∀ h ∈ r.headers, h.WellFormed

/-- the request as this parser hands it out -/
def ofRequest (r : Benchmarks.Request) : Request where
  body := r.body
  headers := collect r.headers
  method := r.method
  path := r.path
  version := r.version

section
variable {r : Benchmarks.Request}

theorem Readable.oneLine (h : Readable r) : OneLine r.requestLine := by
  constructor
  · simp only [Request.requestLine, List.mem_append, List.mem_cons, not_or]
    exact ⟨⟨h.method.cr, by decide, h.path.cr⟩, by decide, h.version.cr⟩
  · simp only [Request.requestLine, List.mem_append, List.mem_cons, not_or]
    exact ⟨⟨h.method.lf, by decide, h.path.lf⟩, by decide, h.version.lf⟩

/-- **The parser inverts the format**, with any body: what `": "` there is in the body is not taken
for a header. -/
theorem fromStr_format (h : Readable r) : fromStr r.format = .ok (ofRequest r) := by
  have hline : ∀ l ∈ r.headers.map Header.line, l ≠ [] ∧ '\r' ∉ l ∧ '\n' ∉ l := by
    intro l hl
    obtain ⟨x, hx, rfl⟩ := List.mem_map.mp hl
    have hw := h.headers x hx
    exact ⟨x.line_ne_nil, Header.notMem_line hw.key_cr (by decide) hw.value_cr,
      Header.notMem_line hw.key_lf (by decide) hw.value_lf⟩
  obtain ⟨head, hs⟩ := splitOnce_blank h.oneLine.cr
    (fun l hl => ⟨(hline l hl).1, (hline l hl).2.1⟩) r.body
  rw [← Request.format_eq] at hs
  have hd : crlf ++ crlf ≠ [] := List.cons_ne_nil _ _
  obtain ⟨h1, h2⟩ := (splitOnce_eq_some hd).mp hs
  have hlines : lines head = r.requestLine :: r.headers.map Header.line := by
    refine lines_of_flatMap (List.cons_ne_nil _ _) ?_ ?_
    · refine List.forall_mem_cons.mpr ⟨⟨?_, h.oneLine.lf⟩, fun l hl => ?_⟩
      · simp [Request.requestLine]
      · exact ⟨(hline l hl).1, (hline l hl).2.2⟩
    · have h3 := h1
      rw [Request.format_eq, ← List.append_assoc head] at h3
      exact List.append_cancel_right (List.append_cancel_right h3)
  exact fromStr_of_parts h1 h2 hlines h.method_blank h.path_blank
    (fun x hx => (h.headers x hx).key_colon) rfl

end

end Tokio
end Benchmarks
end Nea
