import Mathlib.Algebra.Group.Nat.Defs
import Mathlib.Data.List.Basic
import Mathlib.Data.Nat.Notation
import Mathlib.Tactic.Common

/-!
# UTF-8 with replacement

Bytes that need not be UTF-8, decoded to characters: every byte that begins no character, and the
longest beginning of a character that is not continued, becomes one U+FFFD.

* `decodeUtf8_encode`: the encoding of a text is decoded to the text.
* `encode_decodeUtf8_iff`: the bytes of the decoded text are the bytes given iff these are the
  encoding of a text.
-/

namespace DzIpc

/-- U+FFFD. -/
def replacement : Char := '\uFFFD'

/-- What may follow a first byte: how many bytes, and the range of the first of them; the others
are in the range from `0x80` to `0xBF`. -/
def leadOf (b : UInt8) : Option (ℕ × ℕ × ℕ) :=
  let n := b.toNat
  if n < 0xC2 then none
  else if n < 0xE0 then some (1, 0x80, 0xBF)
  else if n < 0xF0 then
    some (2, if n = 0xE0 then 0xA0 else 0x80, if n = 0xED then 0x9F else 0xBF)
  else if n < 0xF5 then
    some (3, if n = 0xF0 then 0x90 else 0x80, if n = 0xF4 then 0x8F else 0xBF)
  else none

/-- How many of the bytes that are needed follow. -/
def following : ℕ → ℕ → ℕ → List UInt8 → ℕ
  | 0, _, _, _ => 0
  | _ + 1, _, _, [] => 0
  | need + 1, low, high, b :: rest =>
    if low ≤ b.toNat ∧ b.toNat ≤ high then following need 0x80 0xBF rest + 1 else 0

/-- The number of a character: the low bits of its first byte, and six bits of each other. -/
def codePoint (b : UInt8) (tail : List UInt8) : ℕ :=
  tail.foldl (fun v c => v * 64 + c.toNat % 64) (b.toNat % 2 ^ (6 - tail.length))

/-- The character that a byte begins, and how many bytes behind it belong to it. -/
def firstChar (b : UInt8) (rest : List UInt8) : Char × ℕ :=
  if b.toNat < 0x80 then (Char.ofNat b.toNat, 0)
  else
    match leadOf b with
    | none => (replacement, 0)
    | some (need, low, high) =>
      let n := following need low high rest
      if n = need then (Char.ofNat (codePoint b (rest.take n)), n) else (replacement, n)

/-- The characters of some bytes, of which the first `skip` belong to the character before. -/
def decodeFrom : ℕ → List UInt8 → List Char
  | _, [] => []
  | skip + 1, _ :: rest => decodeFrom skip rest
  | 0, b :: rest =>
    let c := firstChar b rest
    c.1 :: decodeFrom c.2 rest

/-- The characters of some bytes. -/
def decodeUtf8 (bytes : List UInt8) : List Char := decodeFrom 0 bytes

/-- The bytes of some characters. -/
def encodeUtf8 (text : List Char) : List UInt8 := text.flatMap String.utf8EncodeChar

example : decodeUtf8 [0x61, 0xE2, 0x82, 0xAC, 0xFF, 0xE2, 0x82, 0x62] =
    ['a', '\u20AC', '\uFFFD', '\uFFFD', 'b'] := by decide

/-! ## Characters -/

theorem following_append {need low high : ℕ} {tail : List UInt8} (rest : List UInt8)
    (hlen : tail.length = need) (hfirst : ∀ b ∈ tail.head?, low ≤ b.toNat ∧ b.toNat ≤ high)
    (htail : ∀ b ∈ tail.tail, 0x80 ≤ b.toNat ∧ b.toNat ≤ 0xBF) :
    following need low high (tail ++ rest) = need := by
  induction tail generalizing need low high with
  | nil =>
    subst hlen
    rfl
  | cons b tail ih =>
    subst hlen
    have hnext : ∀ c ∈ tail, 0x80 ≤ c.toNat ∧ c.toNat ≤ 0xBF := htail
    rw [List.length_cons, List.cons_append, following, if_pos (hfirst b rfl), ih rfl]
    · exact fun c hc => hnext c (List.mem_of_mem_head? hc)
    · exact fun c hc => hnext c (List.mem_of_mem_tail hc)

theorem firstChar_append {b : UInt8} {tail : List UInt8} {need low high : ℕ} (rest : List UInt8)
    (hb : 0x80 ≤ b.toNat) (hlead : leadOf b = some (need, low, high)) (hlen : tail.length = need)
    (hfirst : ∀ b ∈ tail.head?, low ≤ b.toNat ∧ b.toNat ≤ high)
    (htail : ∀ b ∈ tail.tail, 0x80 ≤ b.toNat ∧ b.toNat ≤ 0xBF) :
    firstChar b (tail ++ rest) = (Char.ofNat (codePoint b tail), tail.length) := by
  rw [firstChar, if_neg (by omega), hlead]
  simp only
  rw [following_append rest hlen hfirst htail, if_pos rfl, List.take_left' hlen, hlen]

theorem toNat_byte {n : ℕ} (h : n < 2 ^ 8) : (UInt8.ofNat n).toNat = n :=
  UInt8.toNat_ofNat_of_lt h

/-- A character is read from its encoding. -/
theorem firstChar_encode (c : Char) (rest : List UInt8) : ∃ b tail,
    String.utf8EncodeChar c = b :: tail ∧ firstChar b (tail ++ rest) = (c, tail.length) := by
  have hvalid : c.toNat < 0xD800 ∨ 0xDFFF < c.toNat ∧ c.toNat < 0x110000 := c.valid
  have hchar : ∀ v, v = c.toNat → Char.ofNat v = c := by
    rintro v rfl
    exact Char.ofNat_toNat c
  have hval : c.val.toNat = c.toNat := rfl
  rw [String.utf8EncodeChar]
  simp only [hval]
  generalize c.toNat = v at hvalid hchar
  split_ifs with h1 h2 h3
  · refine ⟨_, [], rfl, ?_⟩
    have hb := toNat_byte (n := v) (by omega)
    rw [firstChar, hb, if_pos (by omega), hchar v rfl, List.length_nil]
  · have hb := toNat_byte (n := v / 64 % 32 + 192) (by omega)
    have hc := toNat_byte (n := v % 64 + 128) (by omega)
    have hlead : leadOf (UInt8.ofNat (v / 64 % 32 + 192)) = some (1, 0x80, 0xBF) := by
      rw [leadOf, hb, if_neg (by omega), if_pos (by omega)]
    refine ⟨_, _, rfl, ?_⟩
    rw [firstChar_append rest (by omega) hlead rfl (by simp; omega) (by simp), hchar]
    simp only [codePoint, List.length_singleton, List.foldl_cons, List.foldl_nil, hb, hc]
    omega
  · have hb := toNat_byte (n := v / 4096 % 16 + 224) (by omega)
    have hc := toNat_byte (n := v / 64 % 64 + 128) (by omega)
    have hd := toNat_byte (n := v % 64 + 128) (by omega)
    have hlead : leadOf (UInt8.ofNat (v / 4096 % 16 + 224)) =
        some (2, if v / 4096 % 16 + 224 = 0xE0 then 0xA0 else 0x80,
          if v / 4096 % 16 + 224 = 0xED then 0x9F else 0xBF) := by
      rw [leadOf, hb, if_neg (by omega), if_neg (by omega), if_pos (by omega)]
    refine ⟨_, _, rfl, ?_⟩
    rw [firstChar_append rest (by omega) hlead rfl _ (by simp; omega), hchar]
    · simp only [codePoint, List.length_cons, List.length_nil, List.foldl_cons, List.foldl_nil, hb,
        hc, hd]
      omega
    · simp only [List.head?_cons, Option.mem_def, Option.some.injEq, forall_eq', hc]
      split_ifs <;> omega
  · have hb := toNat_byte (n := v / 262144 % 8 + 240) (by omega)
    have hc := toNat_byte (n := v / 4096 % 64 + 128) (by omega)
    have hd := toNat_byte (n := v / 64 % 64 + 128) (by omega)
    have he := toNat_byte (n := v % 64 + 128) (by omega)
    have hlead : leadOf (UInt8.ofNat (v / 262144 % 8 + 240)) =
        some (3, if v / 262144 % 8 + 240 = 0xF0 then 0x90 else 0x80,
          if v / 262144 % 8 + 240 = 0xF4 then 0x8F else 0xBF) := by
      rw [leadOf, hb, if_neg (by omega), if_neg (by omega), if_neg (by omega), if_pos (by omega)]
    refine ⟨_, _, rfl, ?_⟩
    rw [firstChar_append rest (by omega) hlead rfl _ (by simp; omega), hchar]
    · simp only [codePoint, List.length_cons, List.length_nil, List.foldl_cons, List.foldl_nil, hb,
        hc, hd, he]
      omega
    · simp only [List.head?_cons, Option.mem_def, Option.some.injEq, forall_eq', hc]
      split_ifs <;> omega

/-! ## Texts -/

/-- Bytes of the character before are passed over. -/
theorem decodeFrom_append (tail rest : List UInt8) :
    decodeFrom tail.length (tail ++ rest) = decodeFrom 0 rest := by
  induction tail with
  | nil => rfl
  | cons b tail ih => rw [List.length_cons, List.cons_append, decodeFrom, ih]

theorem decodeUtf8_encode (text : List Char) : decodeUtf8 (encodeUtf8 text) = text := by
  induction text with
  | nil => rfl
  | cons c text ih =>
    obtain ⟨b, tail, hencode, hfirst⟩ := firstChar_encode c (encodeUtf8 text)
    have hbytes : encodeUtf8 (c :: text) = b :: (tail ++ encodeUtf8 text) := by
      rw [encodeUtf8, List.flatMap_cons, hencode, List.cons_append, encodeUtf8]
    rw [hbytes, decodeUtf8, decodeFrom, hfirst, decodeFrom_append]
    exact congrArg (c :: ·) ih

/-- Nothing is lost of bytes that are UTF-8, and of no others. -/
theorem encode_decodeUtf8_iff {bytes : List UInt8} :
    encodeUtf8 (decodeUtf8 bytes) = bytes ↔ ∃ text, bytes = encodeUtf8 text := by
  constructor
  · exact fun h => ⟨_, h.symm⟩
  · rintro ⟨text, rfl⟩
    rw [decodeUtf8_encode]

end DzIpc
