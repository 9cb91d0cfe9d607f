import Nea.Lib.Text

/-!
# The request parser of the benchmarks

`Request::parse` of `rust-nea` and of `roc-nea`: the same text, the one over `&str`, the other over
`RocStr`, whose slices and words are those of `str`.  It splits the request twice, at the blank line
and at the end of the request line, and takes the headers from the remainder of the second split.

* `Request.parse`        the function; the assert that a fourth word fails is the outer `none`;
* `Request.format`       the format it reads, as its clients write it;
* `parse_format`         what comes back: every line of the body with a `": "` in it is a header;
* `parse_format_iff`     the parser inverts the format when the body has no `": "` in it.
-/

open Text

namespace Nea
namespace Benchmarks

abbrev Str := List Char

structure Header where
  key : Str
  value : Str
deriving DecidableEq

structure Request where
  body : Str
  headers : List Header
  method : Str
  path : Str
  version : Str
deriving DecidableEq

/-- the delimiter `": "` -/
def colon : Str := [':', ' ']

/-- one round of the loop over the lines; a line without the delimiter is passed over -/
def Header.ofLine (line : Str) : Option Header :=
  (splitOnce colon line).map (fun q => ⟨q.1, q.2⟩)

/-- the headers among the lines of a text -/
def headersOf (text : Str) : List Header := (lines text).filterMap Header.ofLine

/-- `none` is the panic of the assert, `some none` the early return of `?` -/
def Request.parse (string : Str) : Option (Option Request) :=
  match splitOnce (crlf ++ crlf) string with
  | none => some none
  | some (_, body) =>
    match splitOnce crlf string with
    | none => some none
    -- the second binding of `_headers` hides the first: the body is in it
    | some (x, headers) =>
      match words isWhitespace x with
      | [method, path, version] =>
        some (some ⟨body, headersOf headers, method, path, version⟩)
      | _ :: _ :: _ :: _ :: _ => none
      | _ => some none

/-! ## the format -/

def Header.line (h : Header) : Str := h.key ++ colon ++ h.value

def Request.requestLine (r : Request) : Str :=
  r.method ++ ' ' :: r.path ++ ' ' :: r.version

def Request.format (r : Request) : Str :=
  r.requestLine ++ crlf ++ r.headers.flatMap (fun h => h.line ++ crlf) ++ crlf ++ r.body

/-- a word of the request line -/
structure Word (w : Str) : Prop where
  ne_nil : w ≠ []
  whitespace : ∀ c ∈ w, isWhitespace c = false

structure Header.WellFormed (h : Header) : Prop where
  key_cr : '\r' ∉ h.key
  key_lf : '\n' ∉ h.key
  value_cr : '\r' ∉ h.value
  value_lf : '\n' ∉ h.value
  key_colon : ¬ colon <:+: h.key

/-- what a request must be for its format to be read back -/
structure Request.WellFormed (r : Request) : Prop where
  method : Word r.method
  path : Word r.path
  version : Word r.version
  headers : ∀ h ∈ r.headers, h.WellFormed

theorem Word.of_all {w : Str} (hne : w ≠ []) (h : w.all (fun c => !isWhitespace c) = true) :
    Word w := by
  refine ⟨hne, fun c hc => ?_⟩
  have hn := List.all_eq_true.mp h c hc
  rwa [Bool.not_eq_true'] at hn

theorem Word.notMem {w : Str} (h : Word w) {c : Char} (hc : isWhitespace c = true) : c ∉ w := by
  intro hm
  rw [h.whitespace c hm] at hc
  cases hc

namespace Header

theorem notMem_line {h : Header} {c : Char} (hk : c ∉ h.key) (hc : c ∉ colon) (hv : c ∉ h.value) :
    c ∉ h.line := by
  simp only [line, List.mem_append, not_or]
  exact ⟨⟨hk, hc⟩, hv⟩

theorem line_ne_nil (h : Header) : h.line ≠ [] := by simp [line, colon]

/-- The delimiter ends with a blank, so it does not straddle the end of the key. -/
theorem WellFormed.ofLine_line {h : Header} (hw : h.WellFormed) : ofLine h.line = some h := by
  have hi : ¬ colon <:+: h.key ++ colon.dropLast := by
    have e : colon.dropLast = [':'] := rfl
    rw [e, List.infix_concat_iff, List.suffix_concat_iff]
    rintro ((hn | ⟨t, ht, -⟩) | hk)
    · cases hn
    · have hl := congrArg List.getLast? ht
      rw [List.getLast?_concat] at hl
      cases hl
    · exact hw.key_colon hk
  rw [ofLine, line, splitOnce_append hi]
  rfl

theorem ofLine_eq_none {line : Str} : ofLine line = none ↔ ¬ colon <:+: line := by
  rw [ofLine, Option.map_eq_none_iff, splitOnce_eq_none]

theorem eq_line_of_ofLine {h : Header} {s : Str} (hs : ofLine s = some h) : s = h.line := by
  have hd : colon ≠ [] := List.cons_ne_nil _ _
  obtain ⟨⟨k, v⟩, hq, rfl⟩ := Option.map_eq_some_iff.mp hs
  exact ((splitOnce_eq_some hd).mp hq).1

theorem WellFormed.map_line {l : List Header} (h : ∀ x ∈ l, x.WellFormed) :
    (l.map line).filterMap ofLine = l := by
  induction l with
  | nil => rfl
  | cons x l ih =>
    rw [List.forall_mem_cons] at h
    rw [List.map_cons, List.filterMap_cons_some h.1.ofLine_line, ih h.2]

end Header

theorem headersOf_append {l : List Header} (h : ∀ x ∈ l, x.WellFormed) (body : Str) :
    headersOf ((l.map Header.line).flatMap (· ++ crlf) ++ crlf ++ body) = l ++ headersOf body := by
  have hl : ∀ s ∈ l.map Header.line, '\n' ∉ s := by
    intro s hs
    obtain ⟨x, hx, rfl⟩ := List.mem_map.mp hs
    exact Header.notMem_line (h x hx).key_lf (by decide) (h x hx).value_lf
  -- the blank line is a line without a header
  have hb : lines (crlf ++ body) = [] :: lines body := lines_append List.not_mem_nil body
  have hn : Header.ofLine [] = none := by decide
  rw [headersOf, List.append_assoc, lines_flatMap hl, hb, List.filterMap_append,
    Header.WellFormed.map_line h, List.filterMap_cons_none hn]
  rfl

theorem sublist_of_mem_headersOf {h : Header} {text : Str} (hm : h ∈ headersOf text) :
    h.line.Sublist text := by
  obtain ⟨s, hs, hl⟩ := List.mem_filterMap.mp hm
  rw [← Header.eq_line_of_ofLine hl]
  exact sublist_of_mem_lines hs

/-- the lines of a text carry no header when it has no delimiter in it -/
theorem headersOf_eq_nil {text : Str} : headersOf text = [] ↔ ¬ colon <:+: text := by
  have h := exists_infix_lines (d := colon) (by decide) (by decide) (by decide) text
  rw [headersOf, List.filterMap_eq_nil_iff, ← h]
  simp only [Header.ofLine_eq_none, not_exists, not_and]

namespace Request
variable {r : Request}

theorem format_eq (r : Request) :
    r.format =
      (r.requestLine :: r.headers.map Header.line).flatMap (· ++ crlf) ++ crlf ++ r.body := by
  rw [format, List.flatMap_cons, List.flatMap_map]

theorem WellFormed.words_requestLine (h : r.WellFormed) :
    words isWhitespace r.requestLine = [r.method, r.path, r.version] := by
  have hb : isWhitespace ' ' = true := by decide
  rw [requestLine, List.append_assoc, List.cons_append,
    words_append h.method.ne_nil h.method.whitespace hb,
    words_append h.path.ne_nil h.path.whitespace hb,
    words_word h.version.ne_nil h.version.whitespace]

theorem WellFormed.notMem_requestLine (h : r.WellFormed) : '\r' ∉ r.requestLine := by
  have hw : isWhitespace '\r' = true := by decide
  have hm := h.method.notMem hw
  have hp := h.path.notMem hw
  have hv := h.version.notMem hw
  simp only [requestLine, List.mem_append, List.mem_cons, not_or]
  exact ⟨⟨hm, by decide, hp⟩, by decide, hv⟩

/-- **What comes back**: the request, with the headers that the body has among its lines. -/
theorem WellFormed.parse_format (h : r.WellFormed) :
    parse r.format = some (some { r with headers := r.headers ++ headersOf r.body }) := by
  have hl : ∀ s ∈ r.headers.map Header.line, s ≠ [] ∧ '\r' ∉ s := by
    intro s hs
    obtain ⟨x, hx, rfl⟩ := List.mem_map.mp hs
    have hw := h.headers x hx
    exact ⟨x.line_ne_nil, Header.notMem_line hw.key_cr (by decide) hw.value_cr⟩
  obtain ⟨t, ht⟩ := splitOnce_blank h.notMem_requestLine hl r.body
  have hx : splitOnce crlf r.format = some (r.requestLine,
      (r.headers.map Header.line).flatMap (· ++ crlf) ++ crlf ++ r.body) := by
    rw [format_eq, List.flatMap_cons, List.append_assoc, List.append_assoc, List.append_assoc,
      splitOnce_skip rfl h.notMem_requestLine, splitOnce_prefix, ← List.append_assoc]
    simp
  rw [← format_eq] at ht
  rw [parse, ht]
  dsimp only
  rw [hx]
  dsimp only
  rw [h.words_requestLine]
  dsimp only
  rw [headersOf_append h.headers]

/-- The parser inverts the format for the requests whose body has no `": "` in it. -/
theorem parse_format_iff (h : r.WellFormed) :
    parse r.format = some (some r) ↔ ¬ colon <:+: r.body := by
  rw [h.parse_format, ← headersOf_eq_nil, Option.some_inj, Option.some_inj]
  constructor
  · intro he
    exact List.append_right_eq_self.mp (congrArg Request.headers he)
  · intro he
    rw [he, List.append_nil]

end Request

/-- `GET / HTTP/1.1`, one header, and the body `body` -/
def get (body : Str) : Request where
  body := body
  headers := [⟨['H', 'o', 's', 't'], ['n', 'e', 'a']⟩]
  method := ['G', 'E', 'T']
  path := ['/']
  version := ['H', 'T', 'T', 'P', '/', '1', '.', '1']

theorem get_wellFormed (body : Str) : (get body).WellFormed where
  method := Word.of_all (List.cons_ne_nil _ _) rfl
  path := Word.of_all (List.cons_ne_nil _ _) rfl
  version := Word.of_all (List.cons_ne_nil _ _) rfl
  headers := List.forall_mem_singleton.mpr
    ⟨by decide, by decide, by decide, by decide, by decide⟩

/-- the body `a:b`, CR LF, `c` -/
theorem parse_format_iff_get :
    Request.parse (get ['a', ':', 'b', '\r', '\n', 'c']).format =
      some (some (get ['a', ':', 'b', '\r', '\n', 'c'])) :=
  (Request.parse_format_iff (get_wellFormed _)).mpr (by decide)

/-- the body `a: b` comes back as a second header -/
theorem body_among_headers :
    (get ['a', ':', ' ', 'b']).WellFormed ∧
    Request.parse (get ['a', ':', ' ', 'b']).format ≠ some (some (get ['a', ':', ' ', 'b'])) ∧
    (Request.parse (get ['a', ':', ' ', 'b']).format).map (Option.map Request.headers) =
      some (some ((get []).headers ++ [⟨['a'], ['b']⟩])) :=
  ⟨get_wellFormed _, by decide, by decide⟩

end Benchmarks
end Nea
