import Mathlib.Data.List.Basic
import Mathlib.Data.List.Flatten

/-!
# Texts as bytes

The UTF-8 encoding of a text as a list of bytes, over the one of `String`.

* `encode`, `decode`  a text as bytes and back, where the bytes are valid;
* `decode_eq_some`    they are inverse to each other;
* `decode_zeros`      zeros behind some bytes are zeros behind their text;
* `get`, `get_encode` a part of a text by the positions of bytes;
* `encode_ascii`      a text of ASCII characters has one byte for each of them.
-/

namespace Utf8

/-- the bytes of a text -/
def encode (s : List Char) : List UInt8 := s.flatMap String.utf8EncodeChar

/-- the text with these bytes, if there is one -/
def decode (l : List UInt8) : Option (List Char) :=
  (ByteArray.mk l.toArray).utf8Decode?.map Array.toList

theorem encode_append (s t : List Char) : encode (s ++ t) = encode s ++ encode t :=
  List.flatMap_append

theorem length_encode_le {s t : List Char} (h : s.Sublist t) :
    (encode s).length ≤ (encode t).length := (h.flatMap String.utf8EncodeChar).length_le

theorem encode_ne_nil {s : List Char} (h : s ≠ []) : encode s ≠ [] := by
  obtain ⟨c, t, rfl⟩ := List.exists_cons_of_ne_nil h
  exact List.append_ne_nil_of_left_ne_nil String.utf8EncodeChar_ne_nil _

theorem mk_encode (s : List Char) : ByteArray.mk (encode s).toArray = s.utf8Encode := by
  show _ = (encode s).toByteArray
  exact ByteArray.ext (by simp)

/-- **The bytes that are a text are its encoding.** -/
theorem decode_eq_some {l : List UInt8} {s : List Char} : decode l = some s ↔ l = encode s := by
  constructor
  · intro h
    obtain ⟨a, ha, rfl⟩ := Option.map_eq_some_iff.mp h
    obtain ⟨m, hm⟩ := ByteArray.isSome_utf8Decode?_iff.mp (Option.isSome_of_eq_some ha)
    rw [hm, List.utf8Decode?_utf8Encode] at ha
    cases ha
    rw [← mk_encode] at hm
    have hd := congrArg (fun b => b.data.toList) hm
    exact hd
  · rintro rfl
    rw [decode, mk_encode, List.utf8Decode?_utf8Encode]
    rfl

/-! ## zeros -/

theorem encode_replicate (k : ℕ) : encode (List.replicate k '\x00') = List.replicate k 0 := by
  induction k with
  | zero => rfl
  | succ k ih =>
    show String.utf8EncodeChar '\x00' ++ encode (List.replicate k '\x00') = _
    rw [ih]
    rfl

/-- The bytes behind the first of a character are not zero, and neither is the first if there are
others. -/
theorem getLast_encodeChar {c : Char} (h : (String.utf8EncodeChar c).getLast? = some 0) :
    c = '\x00' := by
  have hlow (n : ℕ) (hn : n < 256) (h0 : UInt8.ofNat n = 0) : n = 0 := by
    have := congrArg UInt8.toNat h0
    rwa [UInt8.toNat_ofNat_of_lt' hn] at this
  unfold String.utf8EncodeChar at h
  dsimp only at h
  split at h
  · next hc =>
    have h0 := hlow c.val.toNat (by omega) (Option.some.inj h)
    exact Char.ext (UInt32.toNat_inj.mp h0)
  · -- the last byte is 128 and six bits
    exfalso
    split at h
    · have h0 := hlow _ (by omega) (Option.some.inj h)
      omega
    · split at h
      · have h0 := hlow _ (by omega) (Option.some.inj h)
        omega
      · have h0 := hlow _ (by omega) (Option.some.inj h)
        omega

theorem eq_concat_of_encode {l : List UInt8} {s : List Char} (h : l ++ [0] = encode s) :
    ∃ t, s = t ++ ['\x00'] ∧ l = encode t := by
  cases hs : s.getLast? with
  | none =>
    rw [List.getLast?_eq_none_iff.mp hs] at h
    exact absurd h (List.append_ne_nil_of_right_ne_nil l (List.cons_ne_nil 0 []))
  | some c =>
    obtain ⟨t, rfl⟩ := List.getLast?_eq_some_iff.mp hs
    have he : encode (t ++ [c]) = encode t ++ String.utf8EncodeChar c := by
      rw [encode_append]
      exact congrArg _ (List.flatMap_singleton _ c)
    rw [he] at h
    have hc : c = '\x00' := by
      apply getLast_encodeChar
      have hl := congrArg List.getLast? h
      rw [List.getLast?_concat, List.getLast?_append_of_ne_nil _ String.utf8EncodeChar_ne_nil] at hl
      exact hl.symm
    subst hc
    exact ⟨t, rfl, List.append_cancel_right h⟩

/-- **Zeros behind some bytes** are zeros behind their text. -/
theorem decode_zeros (l : List UInt8) (k : ℕ) :
    decode (l ++ List.replicate k 0) = (decode l).map (· ++ List.replicate k '\x00') := by
  apply Option.ext
  intro s
  rw [decode_eq_some, Option.map_eq_some_iff]
  simp only [decode_eq_some]
  constructor
  · intro h
    induction k generalizing s with
    | zero => exact ⟨s, by rw [← h, List.replicate_zero, List.append_nil], List.append_nil s⟩
    | succ k ih =>
      rw [List.replicate_succ', ← List.append_assoc] at h
      obtain ⟨t, rfl, ht⟩ := eq_concat_of_encode h
      obtain ⟨u, hu, rfl⟩ := ih t ht
      exact ⟨u, hu, by rw [List.replicate_succ', List.append_assoc]⟩
  · rintro ⟨t, rfl, rfl⟩
    rw [encode_append, encode_replicate]

/-! ## ASCII -/

/-- an ASCII text -/
def Ascii (s : List Char) : Prop := ∀ c ∈ s, c.toNat < 128

/-- **The bytes of an ASCII text are its characters.** -/
theorem encode_ascii {s : List Char} (h : Ascii s) :
    (encode s).map Char.ofUInt8 = s ∧ (encode s).length = s.length := by
  induction s with
  | nil => exact ⟨rfl, rfl⟩
  | cons c s ih =>
    have hc : c.toNat < 128 := h c List.mem_cons_self
    obtain ⟨h1, h2⟩ := ih (fun c hc => h c (List.mem_cons_of_mem _ hc))
    have hsize : c.utf8Size = 1 := by
      unfold Char.utf8Size
      rw [if_pos]
      exact Nat.le_of_lt_succ hc
    have he : encode (c :: s) = c.val.toUInt8 :: encode s := by
      show String.utf8EncodeChar c ++ encode s = _
      rw [String.utf8EncodeChar_eq_singleton hsize]
      rfl
    have hinv : Char.ofUInt8 c.val.toUInt8 = c := by
      apply Char.ext
      apply UInt32.toNat_inj.mp
      have hlt : c.val.toNat < 2^8 := Nat.lt_trans hc (by decide)
      show c.val.toUInt8.toUInt32.toNat = c.val.toNat
      rw [UInt8.toNat_toUInt32, UInt32.toNat_toUInt8, Nat.mod_eq_of_lt hlt]
    rw [he, List.map_cons, h1, hinv, List.length_cons, h2, List.length_cons]
    exact ⟨rfl, rfl⟩

/-! ## parts of a text -/

/-- `get` of a text, by the positions of bytes: none if one of them is out of bounds or inside a
character -/
def get (l : List UInt8) (start stop : ℕ) : Option (List Char) :=
  if start ≤ stop ∧ stop ≤ l.length ∧ (decode (l.take start)).isSome = true then
    decode ((l.take stop).drop start)
  else none

theorem get_encode (a b c : List Char) :
    get (encode (a ++ b ++ c)) (encode a).length ((encode a).length + (encode b).length) =
      some b := by
  have e : encode (a ++ b ++ c) = encode a ++ (encode b ++ encode c) := by
    rw [encode_append, encode_append, List.append_assoc]
  have hle : (encode a).length + (encode b).length ≤ (encode (a ++ b ++ c)).length := by
    rw [e, List.length_append, List.length_append]
    omega
  have htake : (encode (a ++ b ++ c)).take (encode a).length = encode a := by
    rw [e, List.take_left]
  have hmid : ((encode (a ++ b ++ c)).take ((encode a).length + (encode b).length)).drop
      (encode a).length = encode b := by
    rw [e, List.take_length_add_append, List.take_left, List.drop_left]
  have hsome : (decode ((encode (a ++ b ++ c)).take (encode a).length)).isSome = true := by
    rw [htake, decode_eq_some.mpr rfl]
    rfl
  rw [get, if_pos ⟨Nat.le_add_right _ _, hle, hsome⟩, hmid, decode_eq_some.mpr rfl]

end Utf8
