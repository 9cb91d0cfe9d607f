import Mathlib.Data.List.Basic
import Mathlib.Data.List.Infix
import Mathlib.Data.List.TakeWhile

/-!
# Text: splitting at a delimiter, into words, into lines

The operations on text that a line-oriented format rests on, over lists:

* `splitOnce d`         the text before and after the first `d`;
* `words p`             the non-empty runs between the separators `p`;
* `splitInclusive p`    the pieces that end with a separator `p`;
* `lines`               the lines of a text, ended by LF or CR LF, without their ends.

Each has a rule for a text of which the first piece is known, so that a writer is inverted piece by
piece, and `splitOnce` and `lines` say what is found in a text of which nothing is known
(`splitOnce_eq_none`, `splitOnce_eq_some`, `exists_infix_lines`).
-/

namespace Text
variable {α : Type*}

/-! ## the first occurrence of a delimiter -/

section Once
variable [DecidableEq α]

/-- the text before the first `d` and the text after it -/
def splitOnce (d : List α) : List α → Option (List α × List α)
  | [] => if d = [] then some ([], []) else none
  | a :: s =>
    if d <+: a :: s then some ([], (a :: s).drop d.length)
    else (splitOnce d s).map (fun q => (a :: q.1, q.2))

theorem splitOnce_prefix (d s : List α) : splitOnce d (d ++ s) = some ([], s) := by
  cases h : d ++ s with
  | nil =>
    obtain ⟨rfl, rfl⟩ := List.append_eq_nil_iff.mp h
    rfl
  | cons a t =>
    have hp : d <+: a :: t := h ▸ List.prefix_append d s
    rw [splitOnce, if_pos hp, ← h, List.drop_left]

theorem splitOnce_cons {d s : List α} {a : α} (h : ¬ d <+: a :: s) :
    splitOnce d (a :: s) = (splitOnce d s).map (fun q => (a :: q.1, q.2)) := if_neg h

/-- **The first occurrence is found**: `l ++ d` has `d` at its end only. -/
theorem splitOnce_append {d l : List α} (h : ¬ d <:+: l ++ d.dropLast) (s : List α) :
    splitOnce d (l ++ d ++ s) = some (l, s) := by
  induction l with
  | nil => exact splitOnce_prefix d s
  | cons a l ih =>
    have hp : ¬ d <+: a :: (l ++ d ++ s) := by
      intro hd
      -- an occurrence at the front is over before the last element of `l ++ d`
      refine h (List.IsPrefix.isInfix (List.prefix_of_prefix_length_le hd ?_ ?_))
      · refine List.cons_prefix_cons.mpr ⟨rfl, ?_⟩
        rw [List.append_assoc]
        exact (List.prefix_append_right_inj l).mpr
          ((List.dropLast_prefix d).trans (List.prefix_append d s))
      · simp only [List.length_append, List.length_cons, List.length_dropLast]
        omega
    have hl : ¬ d <:+: l ++ d.dropLast := fun hi => h (hi.trans (List.suffix_cons a _).isInfix)
    rw [List.cons_append, List.cons_append, splitOnce_cons hp, ih hl]
    rfl

/-- no occurrence starts where the first element of the delimiter is not -/
theorem splitOnce_skip {d l : List α} {c : α} (hd : d.head? = some c) (h : c ∉ l) (s : List α) :
    splitOnce d (l ++ s) = (splitOnce d s).map (fun q => (l ++ q.1, q.2)) := by
  induction l with
  | nil => exact Option.map_id'.symm
  | cons a l ih =>
    rw [List.mem_cons, not_or] at h
    have hp : ¬ d <+: a :: (l ++ s) := by
      cases d with
      | nil => cases hd
      | cons b d =>
        cases hd
        exact fun hp => h.1 (List.cons_prefix_cons.mp hp).1
    rw [List.cons_append, splitOnce_cons hp, ih h.2, Option.map_map]
    rfl

theorem splitOnce_eq_none {d s : List α} : splitOnce d s = none ↔ ¬ d <:+: s := by
  induction s with
  | nil =>
    rw [List.infix_nil, splitOnce]
    split <;> simp_all
  | cons a s ih =>
    rw [List.infix_cons_iff, not_or, splitOnce]
    split
    · next hp => simp [hp]
    · next hp => simp [hp, ih]

/-- **What is found is the first occurrence**, and the text is what was found around it. -/
theorem splitOnce_eq_some {d s l t : List α} (hne : d ≠ []) :
    splitOnce d s = some (l, t) ↔ s = l ++ d ++ t ∧ ¬ d <:+: l ++ d.dropLast := by
  refine ⟨fun h => ?_, fun ⟨h1, h2⟩ => h1 ▸ splitOnce_append h2 t⟩
  induction s generalizing l with
  | nil =>
    rw [splitOnce, if_neg hne] at h
    cases h
  | cons a s ih =>
    by_cases hp : d <+: a :: s
    · rw [splitOnce, if_pos hp] at h
      cases h
      obtain ⟨t, ht⟩ := hp
      refine ⟨by rw [← ht, List.drop_left, List.nil_append], fun hi => ?_⟩
      have hlen := hi.length_le
      have hpos := List.length_pos_of_ne_nil hne
      rw [List.nil_append, List.length_dropLast] at hlen
      omega
    · rw [splitOnce_cons hp] at h
      obtain ⟨⟨l1, t1⟩, h1, h2⟩ := Option.map_eq_some_iff.mp h
      cases h2
      obtain ⟨e, hi⟩ := ih h1
      refine ⟨by rw [e]; rfl, fun hi' => ?_⟩
      rw [List.cons_append, List.infix_cons_iff] at hi'
      rcases hi' with hpre | hi'
      · -- an occurrence at the front would be one in the text
        refine hp (hpre.trans (List.cons_prefix_cons.mpr ⟨rfl, ?_⟩))
        rw [e, List.append_assoc]
        exact (List.prefix_append_right_inj l1).mpr
          ((List.dropLast_prefix d).trans (List.prefix_append d t1))
      · exact hi hi'

end Once

/-! ## words -/

/-- the runs between separators, the empty ones included -/
def fields (p : α → Bool) : List α → List (List α)
  | [] => [[]]
  | a :: s => if p a then [] :: fields p s else (fields p s).modifyHead (a :: ·)

theorem fields_eq_splitOnP (p : α → Bool) (s : List α) : fields p s = s.splitOnP p := by
  induction s with
  | nil => rfl
  | cons a s ih => rw [fields, ih, List.splitOnP_cons_eq_if_modifyHead]

/-- the non-empty runs between separators -/
def words (p : α → Bool) (s : List α) : List (List α) := (fields p s).filter (fun l => !l.isEmpty)

theorem words_word {p : α → Bool} {l : List α} (hne : l ≠ []) (h : ∀ a ∈ l, p a = false) :
    words p l = [l] := by
  have hs : fields p l = [l] := by
    rw [fields_eq_splitOnP]
    exact List.splitOnP_eq_singleton h
  rw [words, hs]
  simp [hne]

theorem words_append {p : α → Bool} {l : List α} {c : α} (hne : l ≠ []) (h : ∀ a ∈ l, p a = false)
    (hc : p c = true) (s : List α) : words p (l ++ c :: s) = l :: words p s := by
  have hs : fields p (l ++ c :: s) = l :: fields p s := by
    rw [fields_eq_splitOnP, fields_eq_splitOnP]
    exact List.splitOnP_append_cons_of_forall_mem h c hc s
  rw [words, hs]
  simp [hne, words]

theorem words_skip {p : α → Bool} {l : List α} (h : ∀ a ∈ l, p a = true) (s : List α) :
    words p (l ++ s) = words p s := by
  induction l with
  | nil => rfl
  | cons a l ih =>
    rw [List.forall_mem_cons] at h
    rw [← ih h.2, List.cons_append, words, fields, if_pos h.1]
    rfl

/-- The first word of a text, and what is left behind the separator that ends it. -/
theorem words_cases (p : α → Bool) (s : List α) :
    (∀ a ∈ s, p a = true) ∧ words p s = [] ∨
    ∃ u w v, s = u ++ (w ++ v) ∧ (∀ a ∈ u, p a = true) ∧ w ≠ [] ∧ (∀ a ∈ w, p a = false) ∧
      (∀ a ∈ v.head?, p a = true) ∧ words p s = w :: words p v.tail := by
  have hu : ∀ a ∈ s.takeWhile p, p a = true := fun a ha => List.mem_takeWhile_imp ha
  have hs : s.takeWhile p ++ s.dropWhile p = s := List.takeWhile_append_dropWhile
  cases ht : s.dropWhile p with
  | nil =>
    rw [ht, List.append_nil] at hs
    rw [hs] at hu
    refine .inl ⟨hu, ?_⟩
    have hskip := words_skip hu []
    rw [List.append_nil] at hskip
    exact hskip
  | cons c r =>
    have hc : p c = false := by
      have hhead := List.head?_dropWhile_not p s
      rw [ht] at hhead
      exact hhead
    have hw : ∀ a ∈ (c :: r).takeWhile (fun a => !p a), p a = false := by
      intro a ha
      have := List.mem_takeWhile_imp ha
      rwa [Bool.not_eq_true'] at this
    have hsplit : (c :: r).takeWhile (fun a => !p a) ++ (c :: r).dropWhile (fun a => !p a) =
        c :: r := List.takeWhile_append_dropWhile
    have hne : (c :: r).takeWhile (fun a => !p a) ≠ [] := by
      rw [List.takeWhile_cons, hc]
      exact List.cons_ne_nil _ _
    have hv : ∀ a ∈ ((c :: r).dropWhile (fun a => !p a)).head?, p a = true := by
      intro a ha
      have hhead := List.head?_dropWhile_not (fun a => !p a) (c :: r)
      rw [Option.mem_def.mp ha] at hhead
      simpa using hhead
    refine .inr ⟨_, _, _, by rw [hsplit, ← ht, hs], hu, hne, hw, hv, ?_⟩
    rw [← hs, ht, words_skip hu]
    cases hd : (c :: r).dropWhile (fun a => !p a) with
    | nil =>
      rw [hd, List.append_nil] at hsplit
      rw [hsplit] at hne hw ⊢
      exact words_word hne hw
    | cons c' r' =>
      rw [hd] at hsplit hv
      calc words p (c :: r)
          = words p ((c :: r).takeWhile (fun a => !p a) ++ c' :: r') := by rw [hsplit]
        _ = (c :: r).takeWhile (fun a => !p a) :: words p r' :=
          words_append hne hw (hv c' rfl) r'

/-- `White_Space` of Unicode -/
def isWhitespace (c : Char) : Bool :=
  [0x9, 0xA, 0xB, 0xC, 0xD, 0x20, 0x85, 0xA0, 0x1680, 0x2000, 0x2001, 0x2002, 0x2003, 0x2004,
    0x2005, 0x2006, 0x2007, 0x2008, 0x2009, 0x200A, 0x2028, 0x2029, 0x202F, 0x205F,
    0x3000].contains c.toNat

/-! ## lines -/

/-- an element before the first piece -/
def consHead (a : α) : List (List α) → List (List α)
  | [] => [[a]]
  | l :: ls => (a :: l) :: ls

theorem headD_consHead (a : α) (L : List (List α)) :
    (consHead a L).headD [] = a :: L.headD [] := by
  cases L <;> rfl

/-- the pieces of a text that end with a separator, and what is left after the last of them -/
def splitInclusive (p : α → Bool) : List α → List (List α)
  | [] => []
  | a :: s => if p a then [a] :: splitInclusive p s else consHead a (splitInclusive p s)

theorem splitInclusive_append {p : α → Bool} {l : List α} {c : α} (h : ∀ a ∈ l, p a = false)
    (hc : p c = true) (s : List α) :
    splitInclusive p (l ++ c :: s) = (l ++ [c]) :: splitInclusive p s := by
  induction l with
  | nil => exact if_pos hc
  | cons a l ih =>
    rw [List.forall_mem_cons] at h
    rw [List.cons_append, splitInclusive, ih h.2, h.1]
    rfl

/-- the pieces make up the text -/
theorem flatten_splitInclusive (p : α → Bool) (s : List α) : (splitInclusive p s).flatten = s := by
  induction s with
  | nil => rfl
  | cons a s ih =>
    have hcons : ∀ L : List (List α), (consHead a L).flatten = a :: L.flatten := by
      intro L
      cases L <;> rfl
    rw [splitInclusive]
    split
    · rw [List.flatten_cons, ih]
      rfl
    · rw [hcons, ih]

section Infix
variable {p : α → Bool} {d : List α} (hne : d ≠ []) (hd : ∀ a ∈ d, p a = false)
include hne hd

theorem not_prefix_of_sep {a : α} (ha : p a = true) (s : List α) : ¬ d <+: a :: s := by
  cases d with
  | nil => exact absurd rfl hne
  | cons c d =>
    intro h
    have hc := hd c List.mem_cons_self
    rw [(List.cons_prefix_cons.mp h).1, ha] at hc
    cases hc

omit hne in
/-- what has no separator in it and starts a text starts its first piece -/
theorem prefix_iff_headD (s : List α) : d <+: s ↔ d <+: (splitInclusive p s).headD [] := by
  induction s generalizing d with
  | nil => rfl
  | cons a s ih =>
    cases d with
    | nil => simp
    | cons c d =>
      rw [splitInclusive]
      split
      · next ha =>
        exact iff_of_false (not_prefix_of_sep (List.cons_ne_nil c d) hd ha s)
          (not_prefix_of_sep (List.cons_ne_nil c d) hd ha [])
      · rw [headD_consHead, List.cons_prefix_cons, List.cons_prefix_cons,
          ih (List.forall_mem_cons.mp hd).2]

omit hd in
theorem exists_infix_consHead (a : α) (L : List (List α)) :
    (∃ l ∈ consHead a L, d <:+: l) ↔ d <+: a :: L.headD [] ∨ ∃ l ∈ L, d <:+: l := by
  cases L with
  | nil => simp [consHead, List.infix_cons_iff, hne]
  | cons l L => simp [consHead, List.infix_cons_iff, or_assoc]

/-- what has no separator in it is in a text when it is in one of the pieces -/
theorem exists_infix_splitInclusive (s : List α) :
    (∃ l ∈ splitInclusive p s, d <:+: l) ↔ d <:+: s := by
  induction s with
  | nil => simp [splitInclusive, hne]
  | cons a s ih =>
    rw [List.infix_cons_iff, ← ih, splitInclusive]
    split
    · next ha =>
      have h1 := not_prefix_of_sep hne hd ha s
      have h2 := not_prefix_of_sep hne hd ha []
      simp [List.infix_cons_iff, hne, h1, h2]
    · next ha =>
      have hs := prefix_iff_headD hd (a :: s)
      rw [splitInclusive, if_neg ha, headD_consHead] at hs
      rw [exists_infix_consHead hne, hs]

end Infix

/-- the text without `d` at its end, if it ends with `d` -/
def stripSuffix [DecidableEq α] (d l : List α) : Option (List α) :=
  if d <:+ l then some (l.take (l.length - d.length)) else none

theorem stripSuffix_append [DecidableEq α] (l d : List α) : stripSuffix d (l ++ d) = some l := by
  rw [stripSuffix, if_pos (List.suffix_append l d), List.length_append, Nat.add_sub_cancel,
    List.take_left]

theorem eq_of_stripSuffix [DecidableEq α] {d l l' : List α} (h : stripSuffix d l = some l') :
    l = l' ++ d := by
  rw [stripSuffix] at h
  split at h
  · next hs =>
    cases h
    obtain ⟨t, rfl⟩ := hs
    rw [List.length_append, Nat.add_sub_cancel, List.take_left]
  · cases h

/-- a piece without its line end: LF, or CR LF -/
def chomp (l : List Char) : List Char :=
  match stripSuffix ['\n'] l with
  | none => l
  | some l => (stripSuffix ['\r'] l).getD l

/-- the lines of a text; a CR is a line end only before an LF -/
def lines (s : List Char) : List (List Char) := (splitInclusive (· == '\n') s).map chomp

def crlf : List Char := ['\r', '\n']

theorem chomp_sublist (l : List Char) : (chomp l).Sublist l := by
  unfold chomp
  cases hn : stripSuffix ['\n'] l with
  | none => exact List.Sublist.refl l
  | some l1 =>
    have h1 := eq_of_stripSuffix hn
    dsimp only
    cases hr : stripSuffix ['\r'] l1 with
    | none =>
      rw [h1]
      exact List.sublist_append_left l1 _
    | some l2 =>
      rw [h1, eq_of_stripSuffix hr, List.append_assoc]
      exact List.sublist_append_left l2 _

theorem sublist_of_mem_lines {l s : List Char} (h : l ∈ lines s) : l.Sublist s := by
  obtain ⟨x, hx, rfl⟩ := List.mem_map.mp h
  have hs := List.sublist_flatten_of_mem hx
  rw [flatten_splitInclusive] at hs
  exact (chomp_sublist x).trans hs

theorem chomp_crlf (l : List Char) : chomp (l ++ crlf) = l := by
  have h : stripSuffix ['\n'] (l ++ crlf) = some (l ++ ['\r']) := by
    rw [crlf, List.append_cons]
    exact stripSuffix_append _ _
  rw [chomp, h]
  exact congrArg (Option.getD · _) (stripSuffix_append l ['\r'])

/-- a line that is known is the first one -/
theorem lines_append {l : List Char} (h : '\n' ∉ l) (s : List Char) :
    lines (l ++ crlf ++ s) = l :: lines s := by
  have hl : ∀ a ∈ l ++ ['\r'], (a == '\n') = false := by
    intro a ha
    rw [beq_eq_false_iff_ne]
    rintro rfl
    rcases List.mem_append.mp ha with h1 | h1
    · exact h h1
    · exact absurd h1 (by decide)
  have e : l ++ crlf ++ s = (l ++ ['\r']) ++ '\n' :: s := by simp [crlf]
  have e' : (l ++ ['\r']) ++ ['\n'] = l ++ crlf := by simp [crlf]
  rw [lines, e, splitInclusive_append hl (beq_self_eq_true '\n'), List.map_cons, e', chomp_crlf]
  rfl

theorem lines_flatMap {ls : List (List Char)} (h : ∀ l ∈ ls, '\n' ∉ l) (s : List Char) :
    lines (ls.flatMap (· ++ crlf) ++ s) = ls ++ lines s := by
  induction ls with
  | nil => rfl
  | cons l ls ih =>
    rw [List.forall_mem_cons] at h
    rw [List.flatMap_cons, List.append_assoc, lines_append h.1, ih h.2]
    rfl

/-- a text that is one line -/
theorem lines_single {l : List Char} (hne : l ≠ []) (h : '\n' ∉ l) : lines l = [l] := by
  have hs : splitInclusive (· == '\n') l = [l] := by
    induction l with
    | nil => exact absurd rfl hne
    | cons a l ih =>
      rw [List.mem_cons, not_or] at h
      have ha : (a == '\n') = false := beq_eq_false_iff_ne.mpr (Ne.symm h.1)
      rw [splitInclusive, ha]
      cases l with
      | nil => rfl
      | cons b l =>
        rw [ih (List.cons_ne_nil b l) h.2]
        rfl
  have hc : stripSuffix ['\n'] l = none := by
    refine if_neg (fun hsuf => h ?_)
    exact hsuf.subset List.mem_cons_self
  rw [lines, hs, List.map_singleton, chomp, hc]

theorem flatMap_crlf {ls : List (List Char)} (hne : ls ≠ []) :
    ∃ t, ls.flatMap (· ++ crlf) = t ++ crlf := by
  induction ls with
  | nil => exact absurd rfl hne
  | cons l ls ih =>
    cases ls with
    | nil => exact ⟨l, List.append_nil _⟩
    | cons l' ls =>
      obtain ⟨t, ht⟩ := ih (List.cons_ne_nil l' ls)
      exact ⟨l ++ crlf ++ t, by rw [List.flatMap_cons, ht, ← List.append_assoc]⟩

/-- the lines of a text without the end of the last one -/
theorem lines_of_flatMap {ls : List (List Char)} {t : List Char} (hls : ls ≠ [])
    (hne : ∀ l ∈ ls, l ≠ [] ∧ '\n' ∉ l) (h : ls.flatMap (· ++ crlf) = t ++ crlf) :
    lines t = ls := by
  induction ls generalizing t with
  | nil => exact absurd rfl hls
  | cons l ls ih =>
    rw [List.forall_mem_cons] at hne
    cases ls with
    | nil =>
      rw [List.flatMap_singleton] at h
      rw [← List.append_cancel_right h]
      exact lines_single hne.1.1 hne.1.2
    | cons l' ls =>
      obtain ⟨u, hu⟩ := flatMap_crlf (List.cons_ne_nil l' ls)
      rw [List.flatMap_cons, hu, ← List.append_assoc] at h
      rw [← List.append_cancel_right h, lines_append hne.1.2,
        ih (List.cons_ne_nil l' ls) hne.2 hu]

theorem infix_concat_of_notMem {d l : List α} {c : α} (hne : d ≠ []) (hc : c ∉ d) :
    d <:+: l ++ [c] ↔ d <:+: l := by
  rw [List.infix_concat_iff, List.suffix_concat_iff]
  constructor
  · rintro ((h | ⟨t, rfl, -⟩) | h)
    · exact absurd h hne
    · exact absurd (List.mem_append_right t List.mem_cons_self) hc
    · exact h
  · exact .inr

/-- what has no CR and no LF in it is in a piece when it is in the line -/
theorem infix_chomp {d : List Char} (hne : d ≠ []) (hr : '\r' ∉ d) (hn : '\n' ∉ d)
    (l : List Char) : d <:+: chomp l ↔ d <:+: l := by
  rw [chomp]
  split
  · rfl
  · next l' h' =>
    rw [eq_of_stripSuffix h', infix_concat_of_notMem hne hn]
    cases h : stripSuffix ['\r'] l' with
    | none => rfl
    | some m =>
      rw [eq_of_stripSuffix h, infix_concat_of_notMem hne hr]
      rfl

/-- **What has no CR and no LF in it is in a text when it is in one of its lines.** -/
theorem exists_infix_lines {d : List Char} (hne : d ≠ []) (hr : '\r' ∉ d) (hn : '\n' ∉ d)
    (s : List Char) : (∃ l ∈ lines s, d <:+: l) ↔ d <:+: s := by
  have hp : ∀ a ∈ d, (a == '\n') = false := fun a ha =>
    beq_eq_false_iff_ne.mpr (fun he => hn (he ▸ ha))
  rw [← exists_infix_splitInclusive hne hp]
  simp only [lines, List.mem_map, exists_exists_and_eq_and, infix_chomp hne hr hn]

/-! ## the blank line -/

theorem splitOnce_crlf_cons {c : Char} (hc : c ≠ '\r') (s : List Char) :
    splitOnce (crlf ++ crlf) (crlf ++ c :: s) =
      (splitOnce (crlf ++ crlf) (c :: s)).map (fun q => (crlf ++ q.1, q.2)) := by
  have h1 : ¬ crlf ++ crlf <+: crlf ++ c :: s := fun h =>
    hc (List.cons_prefix_cons.mp ((List.prefix_append_right_inj crlf).mp h)).1.symm
  have h2 : ¬ crlf ++ crlf <+: '\n' :: c :: s := fun h =>
    absurd (List.cons_prefix_cons.mp h).1 (by decide)
  have e : crlf ++ c :: s = '\r' :: '\n' :: c :: s := rfl
  rw [e] at h1 ⊢
  rw [splitOnce_cons h1, splitOnce_cons h2, Option.map_map]
  rfl

/-- **The first blank line of a text ends its head**: the lines before it have no CR in them and
none of them is empty. -/
theorem splitOnce_blank {l : List Char} {ls : List (List Char)} (hl : '\r' ∉ l)
    (h : ∀ l' ∈ ls, l' ≠ [] ∧ '\r' ∉ l') (s : List Char) :
    ∃ t, splitOnce (crlf ++ crlf) ((l :: ls).flatMap (· ++ crlf) ++ crlf ++ s) = some (t, s) := by
  induction ls generalizing l with
  | nil =>
    refine ⟨l ++ [], ?_⟩
    have e : [l].flatMap (· ++ crlf) ++ crlf ++ s = l ++ (crlf ++ crlf ++ s) := by simp
    rw [e, splitOnce_skip rfl hl, splitOnce_prefix]
    rfl
  | cons l' ls ih =>
    rw [List.forall_mem_cons] at h
    obtain ⟨t, ht⟩ := ih h.1.2 h.2
    -- the next line starts with something other than CR
    obtain ⟨c, l1, rfl⟩ := List.exists_cons_of_ne_nil h.1.1
    have hc : c ≠ '\r' := fun he => h.1.2 (he ▸ List.mem_cons_self)
    have e : (l :: (c :: l1) :: ls).flatMap (· ++ crlf) ++ crlf ++ s =
        l ++ (crlf ++ c :: (l1 ++ crlf ++ ls.flatMap (· ++ crlf) ++ crlf ++ s)) := by simp
    have e' : ((c :: l1) :: ls).flatMap (· ++ crlf) ++ crlf ++ s =
        c :: (l1 ++ crlf ++ ls.flatMap (· ++ crlf) ++ crlf ++ s) := by simp
    rw [e'] at ht
    refine ⟨l ++ (crlf ++ t), ?_⟩
    rw [e, splitOnce_skip rfl hl, splitOnce_crlf_cons hc, ht]
    rfl

end Text
