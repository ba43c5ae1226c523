import DzIpc.TopicCat.Unpaged

/-!
# What the echo tool reads and allocates

Nothing is checked, so what `msg_to_string` does with a buffer depends on the lengths in it.

* The text of a field is linear in the bytes of the field; every level of nesting multiplies by at
  most 8, because the lines of a nested message are indented (`textOf_length`).
* `fieldsToString_follows`: the decoder does what `textOf` says, and pays for all it allocates with
  the bytes it has taken.
* `safe_of_fits`, `not_safe_of_cut`: it is safe on the buffers whose lengths fit, and on a buffer
  with a length that does not fit it reads outside.
-/

namespace DzIpc.TopicCat

open Wire

/-! ## The length of what is printed -/

theorem length_decimal_le {n k : ℕ} (hk : 0 < k) (hn : n < 10 ^ k) : (decimal n).length ≤ k := by
  rw [decimal, bytesOf, List.length_map]
  exact (Nat.length_toDigits_le_iff (by decide) hk).mpr hn

theorem length_signedText_le {z : ℤ} (hz : z.natAbs < 10 ^ 19) : (signedText z).length ≤ 20 := by
  have hdigits := length_decimal_le (by decide) hz
  unfold signedText
  split
  · rw [List.length_cons]
    omega
  · omega

theorem natAbs_toInt_lt {w : ℕ} (hw : w ≤ 63) (v : BitVec (w + 1)) : v.toInt.natAbs < 10 ^ 19 := by
  have hlt := v.toInt_lt
  have hle := v.le_toInt
  have hpow : 2 ^ w ≤ 2 ^ 63 := Nat.pow_le_pow_right (by decide) hw
  have hpow' : ((2 ^ w : ℕ) : ℤ) ≤ ((2 ^ 63 : ℕ) : ℤ) := Int.ofNat_le.mpr hpow
  rw [Nat.add_sub_cancel] at hlt hle
  push_cast at hpow'
  omega

theorem toNat_lt {w : ℕ} (hw : w ≤ 64) (v : BitVec w) : v.toNat < 10 ^ 20 := by
  have hpow : 2 ^ w ≤ 2 ^ 64 := Nat.pow_le_pow_right (by decide) hw
  have := v.isLt
  omega

theorem length_scalarText_le (floats : FloatText) (s : Scalar) (v : s.Value) :
    (scalarText floats s v).length ≤ 20 := by
  cases s with
  | int8 => exact length_signedText_le (natAbs_toInt_lt (w := 7) (by decide) v)
  | int16 => exact length_signedText_le (natAbs_toInt_lt (w := 15) (by decide) v)
  | int32 => exact length_signedText_le (natAbs_toInt_lt (w := 31) (by decide) v)
  | int64 => exact length_signedText_le (natAbs_toInt_lt (w := 63) (by decide) v)
  | uint8 => exact length_decimal_le (by decide) (toNat_lt (w := 8) (by decide) v)
  | uint16 => exact length_decimal_le (by decide) (toNat_lt (w := 16) (by decide) v)
  | uint32 => exact length_decimal_le (by decide) (toNat_lt (w := 32) (by decide) v)
  | uint64 => exact length_decimal_le (by decide) (toNat_lt (w := 64) (by decide) v)
  | float32 => exact Nat.le_trans (floats.length_float32 v) (by decide)
  | float64 => exact Nat.le_trans (floats.length_float64 v) (by decide)

theorem length_line (name value : Text) :
    (line name value).length = name.length + value.length + 3 := by
  simp only [line, bytesOf, List.length_append, List.length_map, List.length_cons, List.length_nil]
  omega

theorem length_elements_le (items : List Text) :
    (elements items).length ≤ (items.map fun item => item.length + 2).sum := by
  induction items with
  | nil => exact Nat.le_refl _
  | cons item items ih =>
      cases items with
      | nil =>
          simp only [elements, List.map_cons, List.map_nil, List.sum_cons, List.sum_nil]
          omega
      | cons next items =>
          simp only [elements, bytesOf, List.length_append, List.length_map, List.length_cons,
            List.length_nil, List.map_cons, List.sum_cons] at ih ⊢
          omega

theorem length_arrayLine_le (name : Text) (items : List Text) :
    (arrayLine name items).length
      ≤ name.length + (items.map fun item => item.length + 2).sum + 7 := by
  have := length_elements_le items
  simp only [arrayLine, bytesOf, List.length_append, List.length_map, List.length_cons,
    List.length_nil]
  omega

/-- Every line grows by the indentation, and the last one may get an end. -/
theorem length_indentFrom_le (indent : Text) (begun : Bool) (input : Text) :
    (indentFrom indent begun input).length ≤ (indent.length + 1) * input.length + 1 := by
  induction input generalizing begun with
  | nil => cases begun <;> simp [indentFrom, bytesOf]
  | cons b rest ih =>
      have hrest := ih (decide (b ≠ 10))
      rw [indentFrom, List.length_append, List.length_cons, List.length_cons, Nat.mul_succ]
      cases begun with
      | true =>
          simp only [if_true, List.length_nil]
          omega
      | false =>
          simp only [Bool.false_eq_true, if_false]
          omega

theorem length_indentLines_le (input indent : Text) :
    (indentLines input indent).length ≤ (indent.length + 1) * input.length + 1 :=
  length_indentFrom_le indent false input

theorem sum_map_le {α : Type} {f : α → ℕ} {k : ℕ} (hf : ∀ a, f a ≤ k) (items : List α) :
    (items.map f).sum ≤ k * items.length := by
  induction items with
  | nil => exact Nat.le_refl _
  | cons a items ih =>
      have := hf a
      rw [List.map_cons, List.sum_cons, List.length_cons, Nat.mul_succ]
      omega

/-- Arrays of numbers and of flags. -/
theorem length_arrayLine_map_le {α : Type} {f : α → Text} {k : ℕ} (hf : ∀ a, (f a).length ≤ k)
    (name : Text) (items : List α) :
    (arrayLine name (items.map f)).length ≤ name.length + (k + 2) * items.length + 7 := by
  have hline := length_arrayLine_le name (items.map f)
  have hsum := sum_map_le (f := fun a => (f a).length + 2) (k := k + 2)
    (fun a => Nat.add_le_add_right (hf a) 2) items
  rw [List.map_map] at hline
  change _ ≤ name.length + (items.map fun a => (f a).length + 2).sum + 7 at hline
  omega

theorem sum_lengths (strs : List Text) :
    (strs.map fun str => 4 + str.length).sum = 4 * strs.length + (strs.map List.length).sum := by
  induction strs with
  | nil => rfl
  | cons str strs ih =>
      simp only [List.map_cons, List.sum_cons, List.length_cons, ih]
      omega

/-! ## Fields without a nested message -/

/-- A text is printed for the next `n` data bytes. -/
def Printed (buffer s : List UInt8) (c : Reader) (cost print : ℕ → ℕ) (res : Text × Reader)
    (res' : Text × List UInt8) : Prop :=
  ∃ n, res'.2.length + n = s.length ∧ res.1 = res'.1 ∧ Ahead buffer res'.2 res.2 ∧
    res.2.allocated ≤ c.allocated + cost n ∧ res'.1.length ≤ print n

section

variable {buffer : List UInt8} (hsmall : buffer.length < 2 ^ 31) (limit : ℕ)
include hsmall

theorem readValue_follows {s : List UInt8} {c : Reader} (h : Ahead buffer s c) {width : ℕ}
    (hwidth : width < 2 ^ 31) :
    Follows (Stops limit) Silent
      (fun res res' => Reads buffer s c (fun _ => 0) (fun _ => width) res res' ∧
        res'.1.length = width)
      (readValueFromBuffer buffer c width) (takeBytes s width) := by
  refine (readInto_follows hsmall limit h hwidth).mono ?_
  rintro res res' ⟨hsame, hahead, halloc, hbytes, hlen⟩
  exact ⟨⟨hsame, hahead, halloc, hlen⟩, hbytes⟩

theorem plainToString_follows (floats : FloatText) (name : Text) {s : List UInt8} {c : Reader}
    (h : Ahead buffer s c) (hlimit : c.allocated ≤ limit) (t : PlainType) :
    Follows (Stops limit) Silent
      (Printed buffer s c (fun n => 9 * n) fun n => name.length + 23 * n)
      (plainToString floats buffer name c t) (plainText floats name s t) := by
  cases t with
  | bool =>
      refine (readValue_follows hsmall limit h (by decide)).bind ?_
      rintro ⟨bytes, c₁⟩ ⟨bytes', s₁⟩ ⟨⟨rfl, hahead, halloc, hlen⟩, -⟩
      refine .pure ⟨1, hlen, rfl, hahead, ?_, ?_⟩
      · dsimp only at halloc ⊢
        omega
      · have hvalue : (boolText (decide (leNat bytes = 1))).length = 1 := by
          unfold boolText
          split <;> rfl
        dsimp only
        rw [length_line, hvalue]
        omega
  | scalar t =>
      have hpos := t.size_pos
      refine (readValue_follows hsmall limit h (by cases t <;> decide)).bind ?_
      rintro ⟨bytes, c₁⟩ ⟨bytes', s₁⟩ ⟨⟨rfl, hahead, halloc, hlen⟩, -⟩
      refine .pure ⟨t.size, hlen, rfl, hahead, ?_, ?_⟩
      · dsimp only at halloc ⊢
        omega
      · have hvalue := length_scalarText_le floats t (BitVec.ofNat _ (leNat bytes))
        dsimp only
        rw [length_line]
        omega
  | string =>
      refine (readString_follows hsmall limit h).bind ?_
      rintro ⟨str, c₁⟩ ⟨str', s₁⟩ ⟨rfl, hahead, halloc, hlen⟩
      dsimp only at halloc hlen
      refine .pure ⟨4 + str.length, hlen, rfl, hahead, ?_, ?_⟩
      · dsimp only
        omega
      · dsimp only
        rw [length_line]
        omega
  | boolArray =>
      refine (readInt32_follows hsmall limit h).bind ?_
      rintro ⟨count, c₁⟩ ⟨count', s₁⟩ ⟨⟨rfl, hahead, halloc, hlen⟩, -⟩
      dsimp only at hahead halloc hlen
      have hitems := readArray_follows hsmall limit hahead (by omega) 1 count
      unfold readBoolArrayFromBuffer
      simp only [bind_assoc]
      refine hitems.bind ?_
      rintro ⟨items, c₂⟩ ⟨items', s₂⟩ ⟨rfl, hahead', halloc', hlen'⟩
      dsimp only at hahead' halloc' hlen'
      refine .pure ⟨4 + items.length, ?_, rfl, hahead', ?_, ?_⟩
      · dsimp only
        omega
      · dsimp only
        rw [Reader.allocate_allocated]
        omega
      · have hline := length_arrayLine_map_le (f := boolText) (k := 1)
          (fun b => by cases b <;> decide) name (items.map fun b => decide (b ≠ 0))
        rw [List.length_map] at hline
        dsimp only
        omega
  | scalarArray t =>
      have hpos := t.size_pos
      refine (readInt32_follows hsmall limit h).bind ?_
      rintro ⟨count, c₁⟩ ⟨count', s₁⟩ ⟨⟨rfl, hahead, halloc, hlen⟩, -⟩
      dsimp only at hahead halloc hlen
      refine (readArray_follows hsmall limit hahead (by omega) t.size count).bind ?_
      rintro ⟨items, c₂⟩ ⟨items', s₂⟩ ⟨rfl, hahead', halloc', hlen'⟩
      dsimp only at hahead' halloc' hlen'
      refine .pure ⟨4 + items.length * t.size, ?_, rfl, hahead', ?_, ?_⟩
      · dsimp only
        omega
      · dsimp only
        omega
      · have hline := length_arrayLine_map_le (length_scalarText_le floats t) name items
        have hcount : items.length ≤ items.length * t.size := Nat.le_mul_of_pos_right _ hpos
        dsimp only
        omega
  | stringArray =>
      refine (readInt32_follows hsmall limit h).bind ?_
      rintro ⟨count, c₁⟩ ⟨count', s₁⟩ ⟨⟨rfl, hahead, halloc, hlen⟩, -⟩
      dsimp only at hahead halloc hlen ⊢
      by_cases hneg : count < 0
      · rw [if_pos hneg, if_pos hneg]
        exact .error (by change c₁.allocated ≤ limit; omega)
      · rw [if_neg hneg, if_neg hneg]
        refine (readStrings_follows hsmall limit count.toNat (hahead.allocate _)).bind ?_
        rintro ⟨strs, c₂⟩ ⟨strs', s₂⟩ ⟨⟨rfl, hahead', halloc', hlen'⟩, hcount⟩
        dsimp only at hahead' halloc' hlen' hcount
        rw [Reader.allocate_allocated, ← hcount, stringSize] at halloc'
        have hsize := sum_lengths strs
        refine .pure ⟨4 + (strs.map fun str => 4 + str.length).sum, ?_, rfl, hahead', ?_, ?_⟩
        · dsimp only
          omega
        · dsimp only
          omega
        · have hline := length_arrayLine_le name (strs.map quoted)
          rw [List.map_map] at hline
          have hquoted : (strs.map ((fun item => item.length + 2) ∘ quoted)).sum
              = (strs.map fun str => 4 + str.length).sum := by
            congr 1
            apply List.map_congr_left
            intro str _
            simp only [Function.comp_apply, quoted, List.length_cons, List.length_append,
              List.length_nil]
            omega
          dsimp only
          omega

end

theorem length_unsupportedText_le {bytes : List UInt8} (hbytes : bytes.length = 1) (name : Text) :
    (unsupportedText (leNat bytes) name).length ≤ name.length + 39 := by
  obtain ⟨b, rfl⟩ := List.length_eq_one_iff.mp hbytes
  have hbyte := b.toNat_lt
  have hdigits : (decimal (leNat [b])).length ≤ 3 := by
    refine length_decimal_le (by decide) ?_
    simp only [leNat]
    omega
  have hfront : (bytesOf "Unsupported message type".toList).length = 24 := by decide
  have hmiddle : (bytesOf " for field: ".toList).length = 12 := by decide
  rw [unsupportedText, List.length_append, List.length_append, List.length_append, hfront, hmiddle]
  omega

/-! ## Nested messages -/

/-- On this buffer the decoder does what `textOf` says; text and cost are linear in its length. -/
def Meets (msgToString : List UInt8 → ℕ → Except Stop (Text × ℕ))
    (textOf : List UInt8 → Except Misfit Text) (rate : ℕ) (buffer : List UInt8) : Prop :=
  ∀ allocated limit, allocated + 4 * (rate * buffer.length) ≤ limit →
    Follows (Stops limit) Silent
      (fun res text => res.1 = text ∧ text.length ≤ rate * buffer.length ∧
        res.2 ≤ allocated + 4 * (rate * buffer.length))
      (msgToString buffer allocated) (textOf buffer)

section

variable {buffer : List UInt8} (hsmall : buffer.length < 2 ^ 31) (limit : ℕ) {rate : ℕ}
  {msgToString : List UInt8 → ℕ → Except Stop (Text × ℕ)}
  {textOf : List UInt8 → Except Misfit Text}
include hsmall

theorem readRawBuffer_follows {s : List UInt8} {c : Reader} (h : Ahead buffer s c)
    (hlimit : c.allocated ≤ limit) {size : ℤ} (hsize : size < 2 ^ 31) :
    Follows (Stops limit) Silent (Reads buffer s c List.length List.length)
      (readRawBufferFromBuffer buffer c size) (takeMessage s size) := by
  unfold readRawBufferFromBuffer takeMessage
  by_cases hneg : size < 0
  · rw [if_pos hneg, if_pos hneg]
    exact .error hlimit
  rw [if_neg hneg, if_neg hneg]
  by_cases hzero : size ≤ 0
  · have hnone : size.toNat = 0 := by omega
    rw [if_pos hzero, hnone]
    exact .ok ⟨rfl, h, rfl, rfl⟩
  · rw [if_neg hzero]
    refine (readInto_follows hsmall limit (h.allocate size.toNat) (by omega)).mono ?_
    rintro ⟨bytes, c₁⟩ ⟨bytes', s₁⟩ ⟨rfl, hahead, halloc, hbytes, hlen⟩
    dsimp only at hahead halloc hbytes hlen
    rw [Reader.allocate_allocated, ← hbytes] at halloc
    rw [← hbytes] at hlen
    exact ⟨rfl, hahead, halloc, hlen⟩

variable (hrate : 4 ≤ rate)
include hrate

/-- A nested message costs its buffer, what `msg_to_string` allocates for it, and its lines. -/
theorem nestedToString_follows {s : List UInt8} {c : Reader} (h : Ahead buffer s c)
    (hmeets : ∀ nested : List UInt8, nested.length < s.length →
      Meets msgToString textOf rate nested)
    (hlimit : c.allocated + 11 * (rate * s.length) ≤ limit) {indent : Text}
    (hindent : indent.length ≤ 4) :
    Follows (Stops limit) Silent
      (fun res res' => Printed buffer s c (fun n => 11 * (rate * n)) (fun n => 5 * (rate * n))
        res res' ∧ res'.2.length < s.length)
      (nestedToString msgToString buffer c indent) (nestedText textOf s indent) := by
  refine (readInt32_follows hsmall limit h).bind ?_
  rintro ⟨size, c₁⟩ ⟨size', s₁⟩ ⟨⟨rfl, hahead, halloc, hlen⟩, hlt⟩
  dsimp only at hahead halloc hlen hlt
  refine (readRawBuffer_follows hsmall limit hahead (by omega) hlt).bind ?_
  rintro ⟨nested, c₂⟩ ⟨nested', s₂⟩ ⟨rfl, hahead', halloc', hlen'⟩
  dsimp only at hahead' halloc' hlen' ⊢
  have hpaid : nested.length ≤ rate * nested.length := Nat.le_mul_of_pos_left _ (by omega)
  have hmono : rate * nested.length ≤ rate * s.length := Nat.mul_le_mul_left rate (by omega)
  refine (hmeets nested (by omega) c₂.allocated limit (by omega)).bind ?_
  rintro ⟨text, allocated⟩ text' ⟨rfl, htext, hcost⟩
  dsimp only at htext hcost ⊢
  have hlines := length_indentLines_le text indent
  have hgrow : (indent.length + 1) * text.length ≤ 5 * (rate * nested.length) :=
    Nat.mul_le_mul (by omega) htext
  have htake : rate * (4 + nested.length) = rate * 4 + rate * nested.length := Nat.mul_add _ _ _
  refine .pure ⟨⟨4 + nested.length, by dsimp only; omega, rfl, hahead', ?_, ?_⟩, ?_⟩
  · dsimp only
    omega
  · dsimp only
    omega
  · dsimp only
    omega

theorem elementsToString_follows (count : ℕ) :
    ∀ {s : List UInt8} {c : Reader}, Ahead buffer s c →
      (∀ nested : List UInt8, nested.length < s.length → Meets msgToString textOf rate nested) →
      c.allocated + 17 * (rate * s.length) ≤ limit →
      Follows (Stops limit) Silent
        (Printed buffer s c (fun n => 17 * (rate * n)) fun n => 6 * (rate * n))
        (elementsToString msgToString buffer count c) (elementsText textOf count s) := by
  induction count with
  | zero =>
      intro s c h _ _
      exact .pure ⟨0, rfl, rfl, h, Nat.le_add_right _ _, Nat.zero_le _⟩
  | succ count ih =>
      intro s c h hmeets hlimit
      refine (nestedToString_follows hsmall limit hrate h hmeets (by omega) (by decide)).bind ?_
      rintro ⟨lines, c₁⟩ ⟨lines', s₁⟩ ⟨⟨n, hlen, rfl, hahead, hcost, hprint⟩, hshorter⟩
      dsimp only at hlen hahead hcost hprint hshorter ⊢
      have hdash : dashLine.length = 4 := rfl
      have hfour : 4 ≤ rate * n :=
        Nat.le_trans hrate (Nat.le_mul_of_pos_right rate (by omega))
      have hall : rate * s.length = rate * s₁.length + rate * n := by rw [← hlen, Nat.mul_add]
      refine (ih (hahead.allocate (dashLine.length + lines.length))
        (fun nested hnested => hmeets nested (by omega))
        (by rw [Reader.allocate_allocated]; omega)).bind ?_
      rintro ⟨rest, c₂⟩ ⟨rest', s₂⟩ ⟨m, hlen', rfl, hahead', hcost', hprint'⟩
      dsimp only at hlen' hcost' hprint'
      rw [Reader.allocate_allocated] at hcost'
      have hboth : rate * (n + m) = rate * n + rate * m := Nat.mul_add _ _ _
      refine .pure ⟨n + m, by dsimp only; omega, rfl, hahead', ?_, ?_⟩
      · dsimp only
        omega
      · dsimp only
        rw [List.length_append, List.length_append]
        omega

/-- A field pays for its name, its value and its text. -/
theorem fieldToString_follows (floats : FloatText) {s : List UInt8} {c : Reader}
    (h : Ahead buffer s c)
    (hmeets : ∀ nested : List UInt8, nested.length < s.length →
      Meets msgToString textOf rate nested)
    (hlimit : c.allocated + 32 * (rate * s.length) ≤ limit) :
    Follows (Stops limit) Silent
      (fun res res' => Printed buffer s c (fun n => 32 * (rate * n)) (fun n => 8 * (rate * n))
        res res' ∧ res'.2.length < s.length)
      (fieldToString floats msgToString buffer c) (fieldText floats textOf s) := by
  refine (readString_follows hsmall limit h).bind ?_
  rintro ⟨name, c₁⟩ ⟨name', s₁⟩ ⟨rfl, hahead, halloc, hlen⟩
  dsimp only at hahead halloc hlen
  refine (readValue_follows hsmall limit hahead (by decide)).bind ?_
  rintro ⟨bytes, c₂⟩ ⟨bytes', s₂⟩ ⟨⟨rfl, hahead', halloc', hlen'⟩, hbyte⟩
  dsimp only at hahead' halloc' hlen' hbyte ⊢
  -- what the header took
  have hheader : 5 + name.length ≤ rate * (5 + name.length) :=
    Nat.le_mul_of_pos_left _ (by omega)
  have hheader4 : 4 * (5 + name.length) ≤ rate * (5 + name.length) :=
    Nat.mul_le_mul_right _ hrate
  have hall : rate * s.length = rate * (5 + name.length) + rate * s₂.length := by
    rw [← Nat.mul_add]
    congr 1
    omega
  have hsum : ∀ n, rate * (5 + name.length + n) = rate * (5 + name.length) + rate * n :=
    fun n => Nat.mul_add _ _ _
  cases msgType (leNat bytes) with
  | none =>
      refine .error ?_
      have hwhat := length_unsupportedText_le hbyte name
      change c₂.allocated + _ ≤ limit
      omega
  | some type =>
      cases type with
      | plain t =>
          dsimp only
          rw [← bind_pure (plainText floats name s₂ t)]
          refine (plainToString_follows hsmall limit floats name hahead'
            (by omega) t).bind ?_
          rintro ⟨text, c₃⟩ ⟨text', s₃⟩ ⟨n, hn, rfl, hahead₃, hcost, hprint⟩
          dsimp only at hn hahead₃ hcost hprint
          have := hsum n
          have hpaid : n ≤ rate * n := Nat.le_mul_of_pos_left _ (by omega)
          have hpaid4 : 4 * n ≤ rate * n := Nat.mul_le_mul_right _ hrate
          refine .pure ⟨⟨5 + name.length + n, ?_, rfl, hahead₃, ?_, ?_⟩, ?_⟩
          · dsimp only
            omega
          · dsimp only
            rw [Reader.allocate_allocated]
            omega
          · dsimp only
            omega
          · dsimp only
            omega
      | nested =>
          refine (nestedToString_follows hsmall limit hrate hahead'
            (fun nested hnested => hmeets nested (by omega)) (by omega) (by decide)).bind ?_
          rintro ⟨lines, c₃⟩ ⟨lines', s₃⟩ ⟨⟨n, hn, rfl, hahead₃, hcost, hprint⟩, -⟩
          dsimp only at hn hahead₃ hcost hprint ⊢
          have := hsum n
          have htext : (nestedLine name ++ lines).length = name.length + 2 + lines.length := by
            rw [List.length_append, nestedLine, List.length_append]
            rfl
          refine .pure ⟨⟨5 + name.length + n, ?_, rfl, hahead₃, ?_, ?_⟩, ?_⟩
          · dsimp only
            omega
          · dsimp only
            rw [Reader.allocate_allocated]
            omega
          · dsimp only
            omega
          · dsimp only
            omega
      | nestedArray =>
          refine (readInt32_follows hsmall limit hahead').bind ?_
          rintro ⟨count, c₃⟩ ⟨count', s₃⟩ ⟨⟨rfl, hahead₃, halloc₃, hlen₃⟩, -⟩
          dsimp only at hahead₃ halloc₃ hlen₃ ⊢
          have hcount : rate * s₂.length = rate * 4 + rate * s₃.length := by
            rw [← Nat.mul_add]
            congr 1
            omega
          have hfront : (nestedArrayLine name).length = name.length + 4 := List.length_append
          have hback : closeLine.length = 2 := rfl
          refine (elementsToString_follows hsmall limit hrate count.toNat
            (hahead₃.allocate (nestedArrayLine name).length)
            (fun nested hnested => hmeets nested (by omega))
            (by rw [Reader.allocate_allocated]; omega)).bind ?_
          rintro ⟨items, c₄⟩ ⟨items', s₄⟩ ⟨n, hn, rfl, hahead₄, hcost, hprint⟩
          dsimp only at hn hahead₄ hcost hprint ⊢
          rw [Reader.allocate_allocated] at hcost
          have := hsum (4 + n)
          have hboth : rate * (4 + n) = rate * 4 + rate * n := Nat.mul_add _ _ _
          refine .pure ⟨⟨5 + name.length + (4 + n), ?_, rfl, hahead₄, ?_, ?_⟩, ?_⟩
          · dsimp only
            omega
          · dsimp only
            rw [Reader.allocate_allocated]
            omega
          · dsimp only
            rw [List.length_append, List.length_append]
            omega
          · dsimp only
            omega

end

/-! ## Whole buffers -/

/-- The bytes of text for a byte of a buffer. -/
def textRate (depth : ℕ) : ℕ := 4 * 8 ^ depth

theorem four_le_textRate (depth : ℕ) : 4 ≤ textRate depth :=
  Nat.le_mul_of_pos_right 4 (Nat.pow_pos (by decide))

theorem textRate_succ (depth : ℕ) : textRate (depth + 1) = 8 * textRate depth := by
  unfold textRate
  rw [Nat.pow_succ]
  omega

/-- With this much fuel the loop does what `fieldsText` says. -/
def FieldsFollow (floats : FloatText) (fuel : ℕ) : Prop :=
  ∀ (depth : ℕ) (buffer s : List UInt8) (c : Reader) (rounds limit : ℕ),
    buffer.length < 2 ^ 31 → Ahead buffer s c → s.length < fuel → s.length < rounds →
    c.allocated + 32 * (textRate depth * s.length) ≤ limit →
    Follows (Stops limit) Silent
      (fun res text => res.1 = text ∧ text.length ≤ 8 * (textRate depth * s.length) ∧
        res.2 ≤ c.allocated + 32 * (textRate depth * s.length))
      (fieldsToString floats buffer fuel c)
      (fieldsText floats (textOf floats depth) buffer rounds s)

/-- So does `msg_to_string`, on a buffer that is shorter. -/
theorem FieldsFollow.meets {floats : FloatText} {fuel : ℕ} (hfollow : FieldsFollow floats fuel)
    (depth : ℕ) {buffer : List UInt8} (hsmall : buffer.length < 2 ^ 31)
    (hfuel : buffer.length < fuel) :
    Meets (msgToString floats fuel) (textOf floats depth) (textRate depth) buffer := by
  intro allocated limit hlimit
  cases depth with
  | zero => exact .of_silent trivial
  | succ depth =>
      rw [textRate_succ, Nat.mul_assoc] at hlimit ⊢
      unfold msgToString textOf
      by_cases hempty : buffer = []
      · rw [if_pos hempty, if_pos hempty]
        exact .pure ⟨rfl, Nat.zero_le _, Nat.le_add_right _ _⟩
      rw [if_neg hempty, if_neg hempty]
      have hle : (dataOf buffer).length ≤ buffer.length := by
        rw [length_dataOf]
        exact dataLength_le _
      have hmono : textRate depth * (dataOf buffer).length ≤ textRate depth * buffer.length :=
        Nat.mul_le_mul_left _ hle
      refine (hfollow depth buffer (dataOf buffer) ⟨0, allocated⟩ (buffer.length + 1) limit hsmall
        ⟨[], rfl, rfl⟩ (by omega) (by omega) (by dsimp only; omega)).mono ?_
      rintro ⟨text, cost⟩ text' ⟨rfl, htext, hcost⟩
      dsimp only at htext hcost ⊢
      exact ⟨rfl, by omega, by omega⟩

/-- The loop ends where `Ended` says, and no field begins in front of a tail. -/
theorem ended_iff {buffer s : List UInt8} (hsmall : buffer.length < 2 ^ 31) {c : Reader}
    (h : Ahead buffer s c) :
    (u32 (c.offset + tailMsgSize) ≥ u32 buffer.length ↔ Ended buffer s) ∧
      ¬ c.offset % (ipcMsgMaxSize + tailMsgSize) = ipcMsgMaxSize := by
  obtain ⟨past, hdata, hoffset⟩ := h
  have hlen := congrArg List.length hdata
  rw [List.length_append, length_dataOf] at hlen
  have hle := dataLength_le buffer.length
  have hpast : (dataOf buffer).length - s.length = past.length := by
    rw [length_dataOf]
    omega
  have hposition := position_eq past.length
  have hbuffer : u32 buffer.length = buffer.length := u32_of_lt (by omega)
  have hnext : u32 (c.offset + tailMsgSize) = c.offset + tailMsgSize :=
    u32_of_lt (by simp only [tailMsgSize]; omega)
  rw [hnext, hbuffer, Ended, hpast, hoffset]
  refine ⟨Iff.rfl, ?_⟩
  simp only [ipcMsgMaxSize, tailMsgSize]
  omega

/-- The induction on the fuel: every field takes a byte at least, and so does every level. -/
theorem fieldsToString_follows (floats : FloatText) (fuel : ℕ) : FieldsFollow floats fuel := by
  induction fuel with
  | zero =>
      intro depth buffer s c rounds limit _ _ hfuel
      exact absurd hfuel (Nat.not_lt_zero _)
  | succ fuel ih =>
      intro depth buffer s c rounds limit hsmall h hfuel hrounds hlimit
      obtain ⟨rounds, rfl⟩ : ∃ n, rounds = n + 1 := ⟨rounds - 1, by omega⟩
      obtain ⟨hended, hnotail⟩ := ended_iff hsmall h
      rw [fieldsToString, fieldsText]
      by_cases hend : Ended buffer s
      · rw [if_pos (hended.mpr hend), if_pos hend]
        exact .pure ⟨rfl, Nat.zero_le _, Nat.le_add_right _ _⟩
      rw [if_neg (mt hended.mp hend), if_neg hend]
      simp only [if_neg hnotail]
      have hmeets : ∀ nested : List UInt8, nested.length < s.length →
          Meets (msgToString floats fuel) (textOf floats depth) (textRate depth) nested :=
        fun nested hnested => ih.meets depth (by have := h.length_le; omega) (by omega)
      refine (fieldToString_follows hsmall limit (four_le_textRate depth) floats h hmeets
        hlimit).bind ?_
      rintro ⟨text, c₁⟩ ⟨text', s₁⟩ ⟨⟨n, hn, rfl, hahead, hcost, hprint⟩, hshorter⟩
      dsimp only at hn hahead hcost hprint hshorter ⊢
      have hall : textRate depth * s.length = textRate depth * s₁.length + textRate depth * n := by
        rw [← hn, Nat.mul_add]
      refine (ih depth buffer s₁ c₁ rounds limit hsmall hahead (by omega) (by omega)
        (by omega)).bind ?_
      rintro ⟨rest, cost⟩ rest' ⟨rfl, hrest, hcost'⟩
      dsimp only at hrest hcost' ⊢
      refine .pure ⟨rfl, ?_, ?_⟩
      · rw [List.length_append]
        omega
      · dsimp only
        omega

/-- **The decoder.**  On every buffer below 2^31 bytes it does what `textOf` says. -/
theorem msgToString_meets (floats : FloatText) (depth : ℕ) {buffer : List UInt8}
    (hsmall : buffer.length < 2 ^ 31) :
    Meets (msgToString floats (buffer.length + 1)) (textOf floats depth) (textRate depth) buffer :=
  (fieldsToString_follows floats _).meets depth hsmall (Nat.lt_succ_self _)

/-! ## Safety -/

/-- `msg_to_string` comes to an end, by itself or by an exception, without a read outside of the
buffer, and what it allocates is `factor` for each byte at most. -/
def Safe (floats : FloatText) (factor : ℕ) (buffer : List UInt8) : Prop :=
  match msgToString floats (buffer.length + 1) buffer 0 with
  | .ok (_, allocated) => allocated ≤ factor * buffer.length
  | .error (.thrown _ allocated) => allocated ≤ factor * buffer.length
  | .error _ => False

/-- Every length in the buffer fits in what is left, and messages are nested in fewer than `depth`
levels: there is a text, or an exception is due. -/
def Fits (floats : FloatText) (depth : ℕ) (buffer : List UInt8) : Prop :=
  match textOf floats depth buffer with
  | .ok _ | .error .thrown => True
  | .error _ => False

theorem safe_of_fits {floats : FloatText} {depth : ℕ} {buffer : List UInt8}
    (hsmall : buffer.length < 2 ^ 31) (hfits : Fits floats depth buffer) :
    Safe floats (4 * textRate depth) buffer := by
  have hmeets := msgToString_meets floats depth hsmall 0 (4 * (textRate depth * buffer.length))
    (by omega)
  rw [← Nat.mul_assoc] at hmeets
  unfold Fits at hfits
  unfold Safe
  cases htext : textOf floats depth buffer with
  | ok text =>
      rw [htext] at hmeets
      obtain ⟨⟨text', allocated⟩, hrun, -, -, hcost⟩ := hmeets
      rw [hrun]
      dsimp only at hcost ⊢
      omega
  | error e =>
      rw [htext] at hfits hmeets
      cases e with
      | thrown =>
          obtain hsilent | ⟨d, hrun, hstops⟩ := hmeets
          · exact hsilent.elim
          · rw [hrun]
            cases d with
            | thrown what allocated => exact hstops
            | outOfBounds => exact hstops.elim
            | outOfFuel => exact hstops.elim
      | cut => exact hfits.elim
      | tooDeep => exact hfits.elim
      | overflow => exact hfits.elim

/-- A length that does not fit is not noticed. -/
theorem not_safe_of_cut {floats : FloatText} {depth : ℕ} {buffer : List UInt8}
    (hsmall : buffer.length < 2 ^ 31) (hcut : textOf floats depth buffer = .error .cut)
    (factor : ℕ) : ¬ Safe floats factor buffer := by
  have hmeets := msgToString_meets floats depth hsmall 0 _ (Nat.le_refl _)
  rw [hcut] at hmeets
  obtain hsilent | ⟨d, hrun, hstops⟩ := hmeets
  · exact hsilent.elim
  · unfold Safe
    rw [hrun]
    cases d with
    | outOfBounds => exact id
    | thrown what allocated => exact hstops.elim
    | outOfFuel => exact hstops.elim

end DzIpc.TopicCat
