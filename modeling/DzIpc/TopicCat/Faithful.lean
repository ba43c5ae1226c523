import DzIpc.TopicCat.Allocation

/-!
# What the echo tool prints of a serialized message

`Schema.render` is the text of a value: a line for each field, in the order of the schema.  The data
bytes of a serialized message are those its fields copied, and behind them stands one tail, so the
decoder finds every field where it was laid and stops behind the last one (`textOf_serialize`).

The generated `deserialize` gives that same value back unless a field name reaches the end of its
page; the echo tool reads the names and has no such exception.
-/

namespace DzIpc.TopicCat

open Wire Weave

/-! ## The text of a value -/

/-- The type of a field. -/
def plainType : Kind → PlainType
  | .scalar s => .scalar s
  | .bool => .bool
  | .string => .string
  | .scalars s _ => .scalarArray s
  | .bools _ => .boolArray
  | .strings _ => .stringArray

/-- The line of a field. -/
def renderKind (floats : FloatText) (name : Text) : (k : Kind) → k.Value → Text
  | .scalar s, v => line name (scalarText floats s v)
  | .bool, v => line name (boolText v)
  | .string, v => line name v
  | .scalars s _, v => arrayLine name (v.1.map (scalarText floats s))
  | .bools _, v => arrayLine name (v.1.map boolText)
  | .strings _, v => arrayLine name (v.1.map quoted)

/-- The lines of a message. -/
def render (floats : FloatText) : (S : Schema) → S.Value → Text
  | .nil, _ => []
  | .field name kind rest, v => renderKind floats name kind v.1 ++ render floats rest v.2
  | .nested name msg rest, v =>
      nestedLine name ++ indentLines (render floats msg v.1) nestedIndent ++ render floats rest v.2
  | .nestedArray name _ msg rest, v =>
      nestedArrayLine name
        ++ (v.1.1.flatMap fun item => dashLine ++ indentLines (render floats msg item) elementIndent)
        ++ closeLine ++ render floats rest v.2

/-- The levels of messages. -/
def levels : Schema → ℕ
  | .nil => 1
  | .field _ _ rest => levels rest
  | .nested _ msg rest => max (levels msg + 1) (levels rest)
  | .nestedArray _ _ msg rest => max (levels msg + 1) (levels rest)

theorem levels_pos (S : Schema) : 0 < levels S := by
  induction S with
  | nil => decide
  | field _ _ rest ih => exact ih
  | nested _ msg rest _ ih => exact Nat.lt_of_lt_of_le ih (Nat.le_max_right _ _)
  | nestedArray _ _ msg rest _ ih => exact Nat.lt_of_lt_of_le ih (Nat.le_max_right _ _)

/-! ## Reading what was copied -/

theorem takeBytes_append {bytes rest : List UInt8} {len : ℕ} (hlen : len = bytes.length) :
    takeBytes (bytes ++ rest) len = .ok (bytes, rest) := by
  subst hlen
  rw [takeBytes, if_pos (by rw [List.length_append]; omega), List.take_left, List.drop_left]

theorem takeInt32_le32 {k : ℕ} (hk : k < 2 ^ 31) (rest : List UInt8) :
    takeInt32 (le32 k ++ rest) = .ok ((k : ℤ), rest) := by
  have hval : leNat (le32 k) = k := by
    rw [le32, leNat_leBytes]
    exact Nat.mod_eq_of_lt (by omega)
  have htake : takeBytes (le32 k ++ rest) 4 = .ok (le32 k, rest) := takeBytes_append rfl
  rw [takeInt32, htake]
  change Except.ok (i32 (leNat (le32 k)), rest) = _
  rw [hval, i32_of_lt hk]

theorem takeString_append {str : Text} (hstr : str.length < 2 ^ 31) (rest : List UInt8) :
    takeString (le32 str.length ++ (str ++ rest)) = .ok (str, rest) := by
  rw [takeString, takeInt32_le32 hstr]
  exact takeBytes_append rfl

theorem takeItems_append {width count : ℕ} {bytes : List UInt8} (hlen : bytes.length = count * width)
    (hsmall : bytes.length < 2 ^ 31) (rest : List UInt8) :
    takeItems (bytes ++ rest) width count = .ok (ofBytes width count bytes, rest) := by
  have hneg : ¬ (count : ℤ) < 0 := by omega
  rw [takeItems, if_neg hneg, Int.toNat_natCast, if_pos (by rw [← hlen]; exact hsmall),
    takeBytes_append hlen.symm]
  rfl

theorem takeStrings_append (strs : List Text) (rest : List UInt8)
    (hsmall : (strs.map List.length).sum < 2 ^ 31) :
    takeStrings strs.length ((strs.flatMap fun str => le32 str.length ++ str) ++ rest)
      = .ok (strs, rest) := by
  induction strs with
  | nil => rfl
  | cons str strs ih =>
      rw [List.map_cons, List.sum_cons] at hsmall
      rw [List.length_cons, List.flatMap_cons, takeStrings, List.append_assoc, List.append_assoc,
        takeString_append (by omega)]
      change takeStrings strs.length _ >>= _ = _
      rw [ih (by omega)]
      rfl

theorem takeMessage_append {bytes : List UInt8} (rest : List UInt8) :
    takeMessage (bytes ++ rest) bytes.length = .ok (bytes, rest) := by
  have hneg : ¬ (bytes.length : ℤ) < 0 := by omega
  rw [takeMessage, if_neg hneg]
  exact takeBytes_append rfl

theorem ofBytes_boolByte (items : List Bool) :
    (ofBytes 1 items.length (items.map boolByte)).map (fun b => decide (b ≠ 0)) = items := by
  induction items with
  | nil => rfl
  | cons b items ih =>
      rw [List.map_cons, List.length_cons, ofBytes, List.map_cons]
      refine congrArg₂ List.cons ?_ ih
      cases b <;> rfl

/-- The value of a field is printed. -/
theorem plainText_valuePieces (floats : FloatText) (name : Text) (k : Kind) (v : k.Value)
    (rest : List UInt8) (hsmall : k.valueSize v < 2 ^ 31) :
    plainText floats name ((k.valuePieces v).flatten ++ rest) (plainType k)
      = .ok (renderKind floats name k v, rest) := by
  cases k with
  | scalar s =>
      simp only [Kind.valuePieces, List.flatten_cons, List.flatten_nil, List.append_nil]
      rw [plainType, plainText, takeBytes_append (length_leBytes _ _).symm]
      change Except.ok (line name (scalarText floats s (BitVec.ofNat _ _)), rest) = _
      rw [ofNat_leBytes]
      rfl
  | bool =>
      simp only [Kind.valuePieces, List.flatten_cons, List.flatten_nil, List.append_nil]
      have htake : takeBytes ([boolByte v] ++ rest) 1 = .ok ([boolByte v], rest) :=
        takeBytes_append rfl
      rw [plainType, plainText, htake]
      cases v <;> rfl
  | string =>
      have hlen : v.length < 2 ^ 31 := by
        simp only [Kind.valueSize] at hsmall
        omega
      simp only [Kind.valuePieces, List.flatten_cons, List.flatten_nil, List.append_nil,
        List.append_assoc]
      rw [plainType, plainText, takeString_append hlen]
      rfl
  | scalars s size =>
      have hitems := length_flatMap_const (fun item : s.Value => leBytes s.size item.toNat) s.size
        (fun _ => length_leBytes _ _) v.1
      have hpos := s.size_pos
      have hcount : v.1.length ≤ v.1.length * s.size := Nat.le_mul_of_pos_right _ hpos
      change 4 + v.1.length * s.size < _ at hsmall
      rw [flatten_scalars, List.append_assoc, plainType, plainText,
        takeInt32_le32 (by change v.1.length < _; omega)]
      change takeItems _ s.size (v.1.length : ℤ) >>= _ = _
      rw [takeItems_append hitems (by omega), ofBytes_flatMap]
      rfl
  | bools size =>
      have hitems : (v.1.map boolByte).length = v.1.length * 1 := by
        rw [List.length_map, Nat.mul_one]
      change 4 + v.1.length < _ at hsmall
      rw [flatten_bools, List.append_assoc, plainType, plainText,
        takeInt32_le32 (by change v.1.length < _; omega)]
      change takeItems _ 1 (v.1.length : ℤ) >>= _ = _
      rw [takeItems_append hitems (by omega)]
      change Except.ok (arrayLine name ((List.map _ _).map boolText), rest) = _
      rw [ofBytes_boolByte]
      rfl
  | strings size =>
      change 4 + (v.1.map fun str => 4 + str.length).sum < _ at hsmall
      rw [sum_lengths] at hsmall
      have hneg : ¬ ((v.1.length : ℕ) : ℤ) < 0 := by omega
      rw [flatten_strings, List.append_assoc, plainType, plainText,
        takeInt32_le32 (by change v.1.length < _; omega)]
      change (if ((v.1.length : ℕ) : ℤ) < 0 then .error .thrown else
        takeStrings ((v.1.length : ℕ) : ℤ).toNat _ >>= _) = _
      rw [if_neg hneg, Int.toNat_natCast, takeStrings_append v.1 rest (by omega)]
      rfl

/-! ## The data bytes of a serialized message -/

/-- The buffer holds the data bytes `data` and then ends with a tail. -/
structure Holds (buffer data : List UInt8) : Prop where
  nonempty : buffer ≠ []
  small : buffer.length < 2 ^ 31
  front : ∃ extra, data ++ extra = dataOf buffer
  length : buffer.length = position data.length + tailMsgSize

/-- The fields end exactly where the data do. -/
theorem Holds.ended_iff {buffer data extra s past : List UInt8} (h : Holds buffer data)
    (hextra : data ++ extra = dataOf buffer) (hs : past ++ s = dataOf buffer) :
    Ended buffer s ↔ s.length ≤ extra.length := by
  have hall := congrArg List.length hextra
  have hall' := congrArg List.length hs
  rw [List.length_append] at hall hall'
  have hpast : (dataOf buffer).length - s.length = past.length := by omega
  have hstrict : position data.length ≤ position past.length ↔ data.length ≤ past.length := by
    constructor
    · intro hle
      by_contra hlt
      have := position_add_le past.length (data.length - past.length)
      rw [Nat.add_sub_of_le (by omega)] at this
      omega
    · exact position_mono
  rw [Ended, hpast, h.length]
  omega

/-- A buffer in which the data are woven with tails. -/
theorem dataOf_weave {tail : ℕ → List UInt8} (htail : ∀ k, (tail k).length = tailMsgSize)
    (data extra : List UInt8) :
    ∃ more, data ++ more = dataOf (weave ipcMsgMaxSize tail 0 data ++ extra) := by
  obtain ⟨buffer, hbuffer⟩ : ∃ b, b = weave ipcMsgMaxSize tail 0 data ++ extra := ⟨_, rfl⟩
  have hdata : dataBytes buffer data.length 0 = data := by
    rw [hbuffer]
    exact dataBytes_weave htail data extra
  have hroom : data.length ≤ dataLength buffer.length := by
    cases hlen : data.length with
    | zero => exact Nat.zero_le _
    | succ n =>
        refine position_lt_iff.mp ?_
        rw [hbuffer, List.length_append, length_woven htail, hlen]
        have := position_add_le n 1
        omega
  refine ⟨dataBytes buffer (dataLength buffer.length) data.length, ?_⟩
  have hsplit : List.range' 0 (dataLength buffer.length)
      = List.range' 0 data.length
        ++ List.range' data.length (dataLength buffer.length - data.length) := by
    have happend := List.range'_append_1 (s := 0) (m := data.length)
      (n := dataLength buffer.length - data.length)
    rw [Nat.zero_add, Nat.add_sub_of_le hroom] at happend
    exact happend.symm
  rw [← hbuffer]
  calc data ++ dataBytes buffer (dataLength buffer.length) data.length
      = dataBytes buffer data.length 0
          ++ dataBytes buffer (dataLength buffer.length) data.length := by rw [hdata]
    _ = dataOf buffer := by
        simp only [dataOf, dataBytes, Nat.sub_zero, hsplit, List.map_append]

theorem holds_serialize {S : Schema} (msgId : ℕ) {v : S.Value}
    (hfits : (S.data v).length / ipcMsgMaxSize + 1 < 2 ^ 16) :
    Holds (S.serialize msgId v) (S.data v) := by
  have hlength : (S.serialize msgId v).length = position (S.data v).length + tailMsgSize := by
    rw [serialize_eq_writeMessage]
    exact length_writeMessage msgId _ hfits
  have hposition := position_eq (S.data v).length
  simp only [ipcMsgMaxSize, tailMsgSize] at hfits hlength
  refine ⟨?_, by omega, ?_, hlength⟩
  · intro hnil
    rw [hnil, List.length_nil] at hlength
    omega
  · rw [serialize_eq_writeMessage, writeMessage_eq msgId _ hfits]
    exact dataOf_weave (fun _ => rfl) _ _

/-! ## Reading a message -/

section

variable (textOf : List UInt8 → Except Misfit Text)

/-- A nested message is read from its own bytes. -/
theorem nestedText_append {serialized : List UInt8} {text : Text}
    (hsmall : serialized.length < 2 ^ 31) (htext : textOf serialized = .ok text)
    (rest : List UInt8) (indent : Text) :
    nestedText textOf ((nestedPieces serialized).flatten ++ rest) indent
      = .ok (indentLines text indent, rest) := by
  rw [flatten_nestedPieces, List.append_assoc, nestedText, bind_of_ok (takeInt32_le32 hsmall _)]
  refine (bind_of_ok (takeMessage_append rest)).trans ?_
  exact bind_of_ok htext

theorem elementsText_append {α : Type} (serialize : α → List UInt8) (text : α → Text)
    (items : List α)
    (hitems : ∀ item ∈ items, (serialize item).length < 2 ^ 31 ∧
      textOf (serialize item) = .ok (text item)) (rest : List UInt8) :
    elementsText textOf items.length (((items.map serialize).flatMap nestedPieces).flatten ++ rest)
      = .ok (items.flatMap fun item => dashLine ++ indentLines (text item) elementIndent, rest) := by
  induction items with
  | nil => rfl
  | cons item items ih =>
      rw [List.forall_mem_cons] at hitems
      obtain ⟨⟨hsmall, htext⟩, hrest⟩ := hitems
      rw [List.map_cons, List.flatMap_cons, List.flatten_append, List.append_assoc,
        List.length_cons, elementsText, bind_of_ok (nestedText_append textOf hsmall htext _ _)]
      refine (bind_of_ok (ih hrest)).trans ?_
      rw [List.flatMap_cons]
      rfl

end

section

variable (floats : FloatText) (textOf : List UInt8 → Except Misfit Text) {name : Text}
  (hname : name.length < 2 ^ 31)
include hname

/-- The name and the type of a field are read, whatever pages they stand in. -/
theorem fieldText_header (t : ℕ) (s : List UInt8) :
    fieldText floats textOf ((headerPieces name t).flatten ++ s) =
      match msgType (leNat [byte t]) with
      | some (.plain t) => plainText floats name s t
      | some .nested => do
          let (lines, s) ← nestedText textOf s nestedIndent
          return (nestedLine name ++ lines, s)
      | some .nestedArray => do
          let (count, s) ← takeInt32 s
          let (items, s) ← elementsText textOf count.toNat s
          return (nestedArrayLine name ++ items ++ closeLine, s)
      | none => .error .thrown := by
  have htype : takeBytes ([byte t] ++ s) 1 = .ok ([byte t], s) := takeBytes_append rfl
  have hheader : (headerPieces name t).flatten ++ s
      = le32 name.length ++ (name ++ ([byte t] ++ s)) := by
    simp only [headerPieces, List.flatten_cons, List.flatten_nil, List.append_nil,
      List.append_assoc]
  rw [hheader, fieldText, bind_of_ok (takeString_append hname _)]
  exact bind_of_ok htype

theorem fieldText_plain (k : Kind) (v : k.Value) (rest : List UInt8)
    (hvalue : k.valueSize v < 2 ^ 31) :
    fieldText floats textOf
        ((headerPieces name k.typeIndex).flatten ++ ((k.valuePieces v).flatten ++ rest))
      = .ok (renderKind floats name k v, rest) := by
  have htype : msgType (leNat [byte k.typeIndex]) = some (.plain (plainType k)) := by
    cases k with
    | scalar s => cases s <;> rfl
    | scalars s size => cases s <;> rfl
    | bool => rfl
    | string => rfl
    | bools size => rfl
    | strings size => rfl
  rw [fieldText_header floats textOf hname, htype]
  exact plainText_valuePieces floats name k v rest hvalue

theorem fieldText_nested {serialized : List UInt8} {text : Text}
    (hsmall : serialized.length < 2 ^ 31) (htext : textOf serialized = .ok text)
    (rest : List UInt8) :
    fieldText floats textOf ((headerPieces name nestedTypeIndex).flatten
        ++ ((nestedPieces serialized).flatten ++ rest))
      = .ok (nestedLine name ++ indentLines text nestedIndent, rest) := by
  rw [fieldText_header floats textOf hname]
  exact bind_of_ok (nestedText_append textOf hsmall htext rest nestedIndent)

theorem fieldText_nestedArray {α : Type} (serialize : α → List UInt8) (text : α → Text)
    (items : List α) (hcount : items.length < 2 ^ 31)
    (hitems : ∀ item ∈ items, (serialize item).length < 2 ^ 31 ∧
      textOf (serialize item) = .ok (text item)) (rest : List UInt8) :
    fieldText floats textOf ((headerPieces name nestedArrayTypeIndex).flatten
        ++ (le32 items.length
          ++ (((items.map serialize).flatMap nestedPieces).flatten ++ rest)))
      = .ok (nestedArrayLine name
          ++ (items.flatMap fun item => dashLine ++ indentLines (text item) elementIndent)
          ++ closeLine, rest) := by
  rw [fieldText_header floats textOf hname]
  refine (bind_of_ok (takeInt32_le32 hcount _)).trans ?_
  exact bind_of_ok (elementsText_append textOf serialize text items hitems rest)

end

/-! ## Whole messages -/

/-- From where the data of `S` begin, the fields are read to the end of the data. -/
def FieldsRendered (floats : FloatText) (S : Schema) : Prop :=
  ∀ (depth : ℕ) (v : S.Value) (buffer data past extra : List UInt8) (rounds : ℕ),
    levels S ≤ depth + 1 → Holds buffer data → data.length / ipcMsgMaxSize + 1 < 2 ^ 16 →
    data ++ extra = dataOf buffer → past ++ S.data v = data → (S.data v).length < rounds →
    fieldsText floats (textOf floats depth) buffer rounds (S.data v ++ extra)
      = .ok (render floats S v)

/-- Then so is a serialized message. -/
theorem FieldsRendered.textOf_serialize {floats : FloatText} {S : Schema}
    (hfields : FieldsRendered floats S) (msgId : ℕ) {v : S.Value}
    (hfits : (S.data v).length / ipcMsgMaxSize + 1 < 2 ^ 16) {depth : ℕ}
    (hdepth : levels S ≤ depth) :
    textOf floats depth (S.serialize msgId v) = .ok (render floats S v) := by
  have hholds := holds_serialize msgId hfits
  obtain ⟨extra, hextra⟩ := hholds.front
  obtain ⟨depth, rfl⟩ : ∃ n, depth = n + 1 := ⟨depth - 1, by have := levels_pos S; omega⟩
  have hle : (S.data v).length ≤ (S.serialize msgId v).length := by
    rw [hholds.length]
    exact Nat.le_trans (le_position _) (Nat.le_add_right _ _)
  rw [textOf, if_neg hholds.nonempty, ← hextra]
  exact hfields depth v _ _ [] extra _ hdepth hholds hfits hextra rfl (by omega)

/-- One round of the loop, in front of a field. -/
theorem fieldsText_field {floats : FloatText} {depth rounds : ℕ}
    {buffer data past header more extra : List UInt8} {text rest : Text} (hholds : Holds buffer data)
    (hextra : data ++ extra = dataOf buffer) (hpast : past ++ (header ++ more) = data)
    (hpos : 0 < header.length)
    (hfield : fieldText floats (textOf floats depth) (header ++ (more ++ extra))
      = .ok (text, more ++ extra))
    (hrest : fieldsText floats (textOf floats depth) buffer rounds (more ++ extra) = .ok rest) :
    fieldsText floats (textOf floats depth) buffer (rounds + 1) ((header ++ more) ++ extra)
      = .ok (text ++ rest) := by
  have hahead : past ++ ((header ++ more) ++ extra) = dataOf buffer := by
    rw [← List.append_assoc, hpast, hextra]
  have hmore : ¬ Ended buffer ((header ++ more) ++ extra) := by
    rw [hholds.ended_iff hextra hahead]
    simp only [List.length_append]
    omega
  rw [fieldsText, if_neg hmore, List.append_assoc, bind_of_ok hfield]
  exact bind_of_ok hrest

/-- A part of the data is small. -/
theorem length_part {data past part : List UInt8} (hpart : past ++ part = data)
    (hfits : data.length / ipcMsgMaxSize + 1 < 2 ^ 16) :
    part.length < 2 ^ 31 ∧ part.length / ipcMsgMaxSize + 1 < 2 ^ 16 := by
  have hlen := congrArg List.length hpart
  rw [List.length_append] at hlen
  simp only [ipcMsgMaxSize] at hfits ⊢
  omega

/-- Serialized messages, and the sizes before them, are no longer than what is copied for them. -/
theorem length_le_nested (messages : List (List UInt8)) :
    messages.length ≤ (messages.flatMap nestedPieces).flatten.length := by
  induction messages with
  | nil => exact Nat.le_refl _
  | cons bytes messages ih =>
      rw [List.flatMap_cons, List.flatten_append, List.length_append, length_nestedPieces,
        List.length_cons]
      omega

theorem length_le_of_mem {messages : List (List UInt8)} {bytes : List UInt8}
    (hmem : bytes ∈ messages) :
    bytes.length ≤ (messages.flatMap nestedPieces).flatten.length := by
  induction messages with
  | nil => nomatch hmem
  | cons first messages ih =>
      rw [List.flatMap_cons, List.flatten_append, List.length_append, length_nestedPieces]
      obtain rfl | htail := List.mem_cons.mp hmem
      · omega
      · have := ih htail
        omega

/-- The induction over the schema. -/
theorem fieldsRendered (floats : FloatText) (S : Schema) : FieldsRendered floats S := by
  induction S with
  | nil =>
      intro depth v buffer data past extra rounds _ hholds _ hextra hpast hrounds
      obtain ⟨rounds, rfl⟩ : ∃ n, rounds = n + 1 := ⟨rounds - 1, by omega⟩
      have hend : Ended buffer ((Schema.nil).data v ++ extra) := by
        rw [hholds.ended_iff hextra (by rw [← List.append_assoc, hpast, hextra])]
        exact Nat.le_refl _
      rw [fieldsText, if_pos hend]
      rfl
  | field name kind rest ih =>
      intro depth v buffer data past extra rounds hdepth hholds hfits hextra hpast hrounds
      obtain ⟨rounds, rfl⟩ : ∃ n, rounds = n + 1 := ⟨rounds - 1, by omega⟩
      have hdata : (Schema.field name kind rest).data v
          = ((headerPieces name kind.typeIndex).flatten ++ (kind.valuePieces v.1).flatten)
            ++ rest.data v.2 := by
        simp only [Schema.data, Schema.body, List.flatten_append]
      have hlen := length_part hpast hfits
      rw [hdata] at hpast hrounds hlen ⊢
      simp only [List.length_append, length_headerPieces, length_valuePieces] at hrounds hlen
      refine fieldsText_field hholds hextra hpast ?_ ?_ ?_
      · rw [List.length_append, length_headerPieces]
        omega
      · rw [List.append_assoc]
        exact fieldText_plain floats _ (by omega) kind v.1 _ (by omega)
      · exact ih depth v.2 buffer data _ extra rounds hdepth hholds hfits hextra
          ((List.append_assoc _ _ _).trans hpast) (by omega)
  | nested name msg rest ihMsg ih =>
      intro depth v buffer data past extra rounds hdepth hholds hfits hextra hpast hrounds
      obtain ⟨rounds, rfl⟩ : ∃ n, rounds = n + 1 := ⟨rounds - 1, by omega⟩
      have hdata : (Schema.nested name msg rest).data v
          = ((headerPieces name nestedTypeIndex).flatten
              ++ (nestedPieces (msg.serialize 0 v.1)).flatten) ++ rest.data v.2 := by
        simp only [Schema.data, Schema.body, Schema.serialize, List.flatten_append]
      have hlen := length_part hpast hfits
      rw [hdata] at hpast hrounds hlen ⊢
      simp only [List.length_append, length_headerPieces, length_nestedPieces] at hrounds hlen
      have hinner : (msg.data v.1).length ≤ (msg.serialize 0 v.1).length :=
        length_le_writeMessage 0 _ _
      have hmsg : textOf floats depth (msg.serialize 0 v.1) = .ok (render floats msg v.1) :=
        ihMsg.textOf_serialize 0 (by simp only [ipcMsgMaxSize] at hlen ⊢; omega)
          (by have := Nat.le_trans (Nat.le_max_left _ _) hdepth; omega)
      refine fieldsText_field hholds hextra hpast ?_ ?_ ?_
      · rw [List.length_append, length_headerPieces]
        omega
      · rw [List.append_assoc]
        exact fieldText_nested floats _ (by omega) (by omega) hmsg _
      · exact ih depth v.2 buffer data _ extra rounds
          (Nat.le_trans (Nat.le_max_right _ _) hdepth) hholds hfits hextra
          ((List.append_assoc _ _ _).trans hpast) (by omega)
  | nestedArray name size msg rest ihMsg ih =>
      intro depth v buffer data past extra rounds hdepth hholds hfits hextra hpast hrounds
      obtain ⟨rounds, rfl⟩ : ∃ n, rounds = n + 1 := ⟨rounds - 1, by omega⟩
      have hdata : (Schema.nestedArray name size msg rest).data v
          = ((headerPieces name nestedArrayTypeIndex).flatten
              ++ (le32 v.1.1.length
                ++ ((v.1.1.map (msg.serialize 0)).flatMap nestedPieces).flatten))
            ++ rest.data v.2 := by
        simp only [Schema.data, Schema.body, List.flatten_append, List.flatten_cons,
          List.length_map]
        rfl
      have hlen := length_part hpast hfits
      rw [hdata] at hpast hrounds hlen ⊢
      have hcount := length_le_nested (v.1.1.map (msg.serialize 0))
      rw [List.length_map] at hcount
      simp only [List.length_append, length_headerPieces, le32, length_leBytes] at hrounds hlen
      have hitems : ∀ item ∈ v.1.1, (msg.serialize 0 item).length < 2 ^ 31 ∧
          textOf floats depth (msg.serialize 0 item) = .ok (render floats msg item) := by
        intro item hitem
        have hle := length_le_of_mem (List.mem_map_of_mem (f := msg.serialize 0) hitem)
        have hinner : (msg.data item).length ≤ (msg.serialize 0 item).length :=
          length_le_writeMessage 0 _ _
        refine ⟨by omega, ihMsg.textOf_serialize 0 ?_ ?_⟩
        · simp only [ipcMsgMaxSize] at hlen ⊢
          omega
        · have := Nat.le_trans (Nat.le_max_left _ _) hdepth
          omega
      refine fieldsText_field hholds hextra hpast ?_ ?_ ?_
      · rw [List.length_append, length_headerPieces]
        omega
      · rw [List.append_assoc, List.append_assoc]
        exact fieldText_nestedArray floats _ (by omega) _ _ _ (by omega) hitems _
      · exact ih depth v.2 buffer data _ extra rounds
          (Nat.le_trans (Nat.le_max_right _ _) hdepth) hholds hfits hextra
          ((List.append_assoc _ _ _).trans hpast) (by omega)

end DzIpc.TopicCat
