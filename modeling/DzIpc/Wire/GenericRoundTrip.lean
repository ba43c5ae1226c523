import DzIpc.Wire.Generic
import DzIpc.Wire.RoundTrip

/-!
# `GenericMessage` and the generated classes

Both sides lay the same data bytes, cut into different copies, and the paged reader of
`GenericMessage` agrees with the generated one wherever that one does not fail.  Two things
are left: a message that does not fit the 16-bit page count is written behind the end of its
buffer, by both; and a `GenericMessage` without fields returns its buffer unwritten.

* `buffer_of_fits` and `totalSize_lt_of_not_fits` say when a serialization stays in its
  buffer.
* `readPaged_of_tods` carries the facts about the generated reader over.
* `readField_reading` and `readFields_reading` are the step and the run of the loop over the
  fields.
* `generic_speaks_format` is the result for both directions.
-/

namespace DzIpc.Wire

open Weave

/-! ## Staying in the buffer -/

private theorem cutLoop_info (cutCnt : ℕ) :
    ∀ (w : Writer) (pure : ℕ) (src : List UInt8),
      (Writer.cutLoop cutCnt w pure src).1.info = w.info := by
  induction cutCnt with
  | zero => exact fun _ _ _ => rfl
  | succ cutCnt ih =>
      intro w pure src
      simp only [Writer.cutLoop]
      rw [ih]
      rfl

/-- A copy is a number of rounds and a rest, wherever the page arithmetic sets the cuts. -/
private theorem exists_cutLoop (w : Writer) (src : List UInt8) :
    ∃ cutCnt pure : ℕ, w.adaptMemcpyTos src
      = (Writer.cutLoop cutCnt w pure src).1.append (Writer.cutLoop cutCnt w pure src).2 :=
  ⟨_, _, rfl⟩

private theorem adaptMemcpyTos_info (w : Writer) (src : List UInt8) :
    (w.adaptMemcpyTos src).info = w.info := by
  obtain ⟨cutCnt, pure, hcut⟩ := exists_cutLoop w src
  rw [hcut, ← cutLoop_info cutCnt w pure src]
  rfl

private theorem foldl_info (pieces : List (List UInt8)) :
    ∀ w : Writer, (pieces.foldl Writer.adaptMemcpyTos w).info = w.info := by
  induction pieces with
  | nil => exact fun _ => rfl
  | cons src pieces ih =>
      intro w
      rw [List.foldl_cons, ih, adaptMemcpyTos_info]

/-- What is written is `writeMessage`, and the buffer has the announced size. -/
theorem buffer_eq (fresh : ℕ → UInt8) (msgId totalSize : ℕ) (pieces : List (List UInt8)) :
    (pieces.foldl Writer.adaptMemcpyTos (serializeDataCut msgId totalSize)).addTailMsg.buffer fresh
      = if (writeMessage msgId totalSize pieces).length ≤ (correctTotalSize totalSize).totalSize
        then .ok (writeMessage msgId totalSize pieces
          ++ ((List.range (correctTotalSize totalSize).totalSize).map fresh).drop
            (writeMessage msgId totalSize pieces).length)
        else .error .outOfBounds := by
  have hinfo : (pieces.foldl Writer.adaptMemcpyTos
      (serializeDataCut msgId totalSize)).addTailMsg.info = correctTotalSize totalSize :=
    foldl_info pieces _
  rw [Writer.buffer, hinfo]
  rfl

theorem totalSize_of_fits {len : ℕ} (hfits : len / ipcMsgMaxSize + 1 < 2 ^ 16) :
    (correctTotalSize len).totalSize = position len + tailMsgSize := by
  have hpage : u16 (u16 (len / ipcMsgMaxSize) + 1) = len / ipcMsgMaxSize + 1 := by
    rw [u16_of_lt (n := len / ipcMsgMaxSize) (by omega), u16_of_lt hfits]
  simp only [correctTotalSize, hpage]
  rw [position_eq, u32_of_lt] <;> simp only [ipcMsgMaxSize, tailMsgSize] at * <;> omega

/-- A message that fits is written whole, and its buffer holds nothing else. -/
theorem buffer_of_fits (fresh : ℕ → UInt8) (msgId : ℕ) (pieces : List (List UInt8))
    (hfits : pieces.flatten.length / ipcMsgMaxSize + 1 < 2 ^ 16) :
    (pieces.foldl Writer.adaptMemcpyTos
        (serializeDataCut msgId pieces.flatten.length)).addTailMsg.buffer fresh
      = .ok (writeMessage msgId pieces.flatten.length pieces) := by
  have hlen := length_writeMessage msgId pieces hfits
  have htotal := totalSize_of_fits hfits
  rw [buffer_eq, if_pos (by omega), List.drop_eq_nil_of_le, List.append_nil]
  simp only [List.length_map, List.length_range]
  omega

private theorem length_cutLoop (cutCnt : ℕ) :
    ∀ (w : Writer) (pure : ℕ) (src : List UInt8),
      (Writer.cutLoop cutCnt w pure src).1.out.length
          + (Writer.cutLoop cutCnt w pure src).2.length
        = w.out.length + src.length + tailMsgSize * cutCnt := by
  induction cutCnt with
  | zero => exact fun _ _ _ => rfl
  | succ cutCnt ih =>
      intro w pure src
      simp only [Writer.cutLoop]
      rw [ih]
      simp only [Writer.addTailMsg, Writer.append, List.length_append, List.length_take,
        List.length_drop, length_tailBytes, Nat.mul_succ]
      omega

/-- The copy that passes the last page the count has room for still writes a tail for every
page it fills. -/
private theorem length_crossing (info : SizeInfo) (msgId : ℕ) (data src : List UInt8)
    (hdata : data.length / ipcMsgMaxSize + 1 < 2 ^ 16)
    (hcross : 2 ^ 16 ≤ (data.length + src.length) / ipcMsgMaxSize + 1)
    (hsmall : data.length + src.length < 2 ^ 32) :
    data.length + src.length + tailMsgSize * (2 ^ 16 - 1)
      ≤ ((laid info msgId data).adaptMemcpyTos src).out.length := by
  have hout := length_laid_out info msgId data
  have hoffset : (laid info msgId data).offset = position data.length := by
    rw [Writer.offset, hout]
    rw [position_eq] at *
    exact u32_of_lt (by simp only [ipcMsgMaxSize] at hdata; omega)
  have hpure : sub32 ((laid info msgId data).offset + tailMsgSize)
      ((laid info msgId data).page * tailMsgSize) = data.length := by
    rw [hoffset, position_eq, sub32_of_le] <;>
      simp only [laid, tailMsgSize, ipcMsgMaxSize] at * <;> omega
  have hcuts : sub32 (u32 (data.length + src.length) / ipcMsgMaxSize)
      (data.length / ipcMsgMaxSize)
        = (data.length + src.length) / ipcMsgMaxSize - data.length / ipcMsgMaxSize := by
    rw [u32_of_lt hsmall, sub32_of_le] <;> simp only [ipcMsgMaxSize] at * <;> omega
  have hloop := length_cutLoop
    ((data.length + src.length) / ipcMsgMaxSize - data.length / ipcMsgMaxSize)
    (laid info msgId data) data.length src
  rw [hout, position_eq] at hloop
  unfold Writer.adaptMemcpyTos
  simp only [hpure, hcuts, Writer.append, List.length_append]
  simp only [ipcMsgMaxSize, tailMsgSize] at *
  omega

/-- The same for all copies of a message: without the room for its pages it is written past
them, or it is longer than any buffer. -/
private theorem length_foldl_of_not_fits (info : SizeInfo) (msgId : ℕ)
    (pieces : List (List UInt8)) :
    ∀ data : List UInt8, data.length / ipcMsgMaxSize + 1 < 2 ^ 16 →
      2 ^ 16 ≤ (data.length + pieces.flatten.length) / ipcMsgMaxSize + 1 →
      data.length + pieces.flatten.length + tailMsgSize * (2 ^ 16 - 1)
          ≤ (pieces.foldl Writer.adaptMemcpyTos (laid info msgId data)).out.length ∨
        2 ^ 32 ≤ data.length + pieces.flatten.length := by
  induction pieces with
  | nil =>
      intro data hdata hcross
      rw [List.flatten_nil, List.length_nil, Nat.add_zero] at hcross
      exact absurd hdata (Nat.not_lt.mpr hcross)
  | cons src pieces ih =>
      intro data hdata hcross
      rw [List.flatten_cons, List.length_append] at hcross ⊢
      rw [List.foldl_cons]
      by_cases hnext : (data.length + src.length) / ipcMsgMaxSize + 1 < 2 ^ 16
      · rw [adaptMemcpyTos_laid info msgId data src hnext]
        have hrest := ih (data ++ src) (by rwa [List.length_append])
          (by rwa [List.length_append, Nat.add_assoc data.length])
        rwa [List.length_append, Nat.add_assoc data.length] at hrest
      · by_cases hsmall : data.length + src.length < 2 ^ 32
        · left
          have hfirst := length_crossing info msgId data src hdata (Nat.not_lt.mp hnext) hsmall
          have hrest := length_le_foldl pieces ((laid info msgId data).adaptMemcpyTos src)
          calc data.length + (src.length + pieces.flatten.length) + tailMsgSize * (2 ^ 16 - 1)
              = data.length + src.length + tailMsgSize * (2 ^ 16 - 1) + pieces.flatten.length := by
                ac_rfl
            _ ≤ _ := Nat.add_le_add_right hfirst _
            _ ≤ _ := hrest
        · right
          omega

/-- A message that does not fit is written behind the end of its buffer. -/
theorem totalSize_lt_of_not_fits (msgId : ℕ) (pieces : List (List UInt8))
    (hfits : ¬ pieces.flatten.length / ipcMsgMaxSize + 1 < 2 ^ 16) :
    (correctTotalSize pieces.flatten.length).totalSize
      < (writeMessage msgId pieces.flatten.length pieces).length := by
  have hlong := length_foldl_of_not_fits (correctTotalSize pieces.flatten.length) msgId pieces []
    (by rw [List.length_nil, Nat.zero_div]; omega)
    (by rw [List.length_nil, Nat.zero_add]; exact Nat.not_lt.mp hfits)
  have hwhole := length_le_writeMessage msgId pieces.flatten.length pieces
  have hout : (writeMessage msgId pieces.flatten.length pieces).length
      = (pieces.foldl Writer.adaptMemcpyTos
        (laid (correctTotalSize pieces.flatten.length) msgId [])).out.length + tailMsgSize := by
    rw [writeMessage, Writer.addTailMsg, Writer.append, List.length_append, length_tailBytes,
      laid_nil, serializeDataCut]
  rw [List.length_nil, Nat.zero_add] at hlong
  have hpage : u16 (u16 (pieces.flatten.length / ipcMsgMaxSize) + 1) < 2 ^ 16 :=
    Nat.mod_lt _ (by decide)
  have htotal := u32_le (pieces.flatten.length
    + u16 (u16 (pieces.flatten.length / ipcMsgMaxSize) + 1) * tailMsgSize)
  have hbound := u32_lt (pieces.flatten.length
    + u16 (u16 (pieces.flatten.length / ipcMsgMaxSize) + 1) * tailMsgSize)
  change u32 (pieces.flatten.length
    + u16 (u16 (pieces.flatten.length / ipcMsgMaxSize) + 1) * tailMsgSize) < _
  rw [hout] at hwhole ⊢
  generalize (pieces.foldl Writer.adaptMemcpyTos
    (laid (correctTotalSize pieces.flatten.length) msgId [])).out.length = written at hlong hwhole ⊢
  generalize u16 (u16 (pieces.flatten.length / ipcMsgMaxSize) + 1) = page at hpage htotal hbound ⊢
  generalize u32 (pieces.flatten.length + page * tailMsgSize) = total at htotal hbound ⊢
  simp only [tailMsgSize] at hlong hwhole htotal ⊢
  omega

/-! ## The paged reader -/

namespace GenericMessage

/-- The reader does what the generated one does, as long as that one does not fail. -/
private theorem pagedLoop_of_tods (r : Region) (cutCnt : ℕ) :
    ∀ {c : Scan} {pure left : ℕ} {bytes : List UInt8} {c' : Cursor},
      todsLoop r cutCnt c.toCursor pure left = .ok (bytes, c') → c'.overflow = false →
      Returns (pagedLoop r cutCnt c pure left) fun res =>
        res.1 = bytes ∧ res.2.toCursor = c' := by
  have hno : ∀ {start len : ℕ}, r.todsInRange start len = true →
      u32 (start + len) ≤ r.totalSize := by
    intro start len hrange
    simp only [Region.todsInRange, Bool.and_eq_true, decide_eq_true_eq] at hrange
    exact Nat.le_trans (u32_le _) (by omega)
  induction cutCnt with
  | zero =>
      intro c pure left bytes c' htods hok
      unfold todsLoop at htods
      unfold pagedLoop readRest
      by_cases hzero : left = 0
      · subst hzero
        cases htods
        exact .pure ⟨rfl, rfl⟩
      · rw [if_neg hzero] at htods
        by_cases hrange : r.todsInRange c.offset left = true
        · rw [if_pos hrange] at htods
          rw [if_pos ⟨Nat.pos_of_ne_zero hzero, hno hrange⟩]
          cases hcopy : r.copy c.offset left with
          | error e =>
              rw [hcopy] at htods
              cases htods
          | ok copied =>
              rw [hcopy] at htods
              cases htods
              exact .pure ⟨rfl, rfl⟩
        · rw [if_neg hrange] at htods
          cases htods
          exact Bool.noConfusion hok
  | succ cutCnt ih =>
      intro c pure left bytes c' htods hok
      unfold todsLoop at htods
      unfold pagedLoop
      dsimp only at htods ⊢
      generalize min (ipcMsgMaxSize - pure % ipcMsgMaxSize) left = copySize at htods ⊢
      by_cases hrange : r.todsInRange c.offset copySize = true
      · rw [if_pos hrange] at htods
        rw [if_neg (Nat.not_lt.mpr (hno hrange))]
        cases hcopy : r.copy c.offset copySize with
        | error e =>
            rw [hcopy] at htods
            cases htods
        | ok copied =>
            rw [hcopy] at htods
            cases hrest : todsLoop r cutCnt (c.toCursor.skip (copySize + tailMsgSize))
                (u32 (pure + copySize)) (left - copySize) with
            | error e =>
                simp only [bind, Except.bind, hrest] at htods
                cases htods
            | ok res =>
                simp only [bind, Except.bind, hrest] at htods
                cases htods
                refine (ih (c := c.round.skip (copySize + tailMsgSize)) hrest hok).bind ?_
                rintro ⟨rest, c''⟩ ⟨rfl, hc''⟩
                exact .pure ⟨rfl, hc''⟩
      · rw [if_neg hrange] at htods
        cases htods
        exact Bool.noConfusion hok

/-- Both readers start their rounds alike. -/
private theorem exists_pagedLoop (r : Region) (c : Scan) (len : ℕ) :
    ∃ cutCnt pure : ℕ, readPaged r c len = pagedLoop r cutCnt c pure len
      ∧ adaptMemcpyTods r c.toCursor len = todsLoop r cutCnt c.toCursor pure len :=
  ⟨_, _, rfl, rfl⟩

/-- So the facts about the generated reader carry over. -/
theorem readPaged_of_tods {r : Region} {c : Scan} {len : ℕ} {bytes : List UInt8} {c' : Cursor}
    (htods : adaptMemcpyTods r c.toCursor len = .ok (bytes, c')) (hok : c'.overflow = false) :
    Returns (readPaged r c len) fun res => res.1 = bytes ∧ res.2.toCursor = c' := by
  obtain ⟨cutCnt, pure, hpaged, hloop⟩ := exists_pagedLoop r c len
  rw [hpaged]
  exact pagedLoop_of_tods r cutCnt (hloop ▸ htods) hok

section

variable {r : Region} {data seg rest : List UInt8} {n : ℕ} {c : Scan}

/-- `read_paged` takes what lies ahead. -/
theorem readPaged_reading (h : Reading r data n (seg ++ rest) c.toCursor) {len m : ℕ}
    (hlen : len = seg.length) (hm : m = n + seg.length) :
    Returns (readPaged r c len) fun res => res.1 = seg ∧ Reading r data m rest res.2.toCursor := by
  subst hlen
  have htods := adaptMemcpyTods_spec h.carries h.offset h.ahead h.within
  have hnext : Reading r data m rest { c.toCursor with offset := position (n + seg.length) } :=
    h.seek hm (by rw [hm]) rfl
  refine (readPaged_of_tods htods hnext.overflow).mono ?_
  rintro ⟨bytes, c'⟩ ⟨rfl, hc'⟩
  dsimp only at hc'
  exact ⟨rfl, hc' ▸ hnext⟩

theorem readSize_reading {k : ℕ} (h : Reading r data n (le32 k ++ rest) c.toCursor)
    (hk : k < 2 ^ 31) :
    Returns (readSize r c) fun res => res.1 = k ∧ Reading r data (n + 4) rest res.2.toCursor := by
  refine (readPaged_reading (m := n + 4) h rfl rfl).bind ?_
  rintro ⟨bytes, c'⟩ ⟨rfl, hc'⟩
  have hval : leNat (le32 k) = k := by
    rw [le32, leNat_leBytes]
    exact Nat.mod_eq_of_lt (by omega)
  exact .pure ⟨by rw [hval, i32_of_lt hk], hc'⟩

theorem readBytesPaged_reading (h : Reading r data n (seg ++ rest) c.toCursor) :
    Returns (readBytesPaged r c seg.length) fun res =>
      res.1 = seg ∧ Reading r data (n + seg.length) rest res.2.toCursor := by
  unfold readBytesPaged
  refine .ite (fun hnone => ?_) (fun _ => ?_)
  · obtain rfl := List.length_eq_zero_iff.mp (by omega : seg.length = 0)
    exact .pure ⟨rfl, h⟩
  · exact readPaged_reading (c := c.allocate seg.length) (h.allocate _) rfl rfl

end

/-! ## Values and fields -/

theorem length_blob (bytes : List UInt8) : (blob bytes).length = 4 + bytes.length := by
  rw [blob, List.length_append, le32, length_leBytes]

theorem length_le_blobs (items : List (List UInt8)) :
    items.length ≤ (items.flatMap blob).length := by
  induction items with
  | nil => exact Nat.le_refl _
  | cons item items ih =>
      rw [List.flatMap_cons, List.length_append, length_blob, List.length_cons]
      omega

/-- Value bytes as a layout has them. -/
inductive Stored : Layout → List UInt8 → Prop
  | fixed {width : ℕ} {bytes : List UInt8} (hlen : bytes.length = width) :
      Stored (.fixed width) bytes
  | sized (bytes : List UInt8) : Stored .sized (blob bytes)
  | array {width count : ℕ} {elems : List UInt8} (hlen : elems.length = count * width) :
      Stored (.array width) (le32 count ++ elems)
  | sizedArray (items : List (List UInt8)) :
      Stored .sizedArray (le32 items.length ++ items.flatMap blob)

/-- A field that can be told from what follows it: it has a name, and its value bytes are
in the layout of its type. -/
structure Framed (f : FieldEntry) : Prop where
  name : f.name ≠ []
  value : ∃ l, layout f.type = some l ∧ Stored l f.data

/-- The widths of the fixed and the array layouts. -/
theorem layout_pos {type : UInt8} {width : ℕ}
    (h : layout type = some (.fixed width) ∨ layout type = some (.array width)) : 0 < width := by
  unfold layout at h
  split at h <;> simp_all <;> omega

section

variable {r : Region} {data seg rest : List UInt8} {n : ℕ} {c : Scan}

-- the buffer is as long as the message in it
variable (htotal : r.totalSize = position data.length + tailMsgSize)

include htotal

/-- What lies ahead ends before the last page tail. -/
theorem offset_add_le (h : Reading r data n (seg ++ rest) c.toCursor) {width : ℕ}
    (hwidth : width ≤ seg.length) :
    c.offset + width + tailMsgSize ≤ r.totalSize ∧ r.totalSize + tailMsgSize < 2 ^ 32 := by
  have hlen := h.add_length
  have hlt := h.length_lt
  have hoffset := h.offset
  have hplace := position_add_le n width
  have hmono : position (n + width) ≤ position data.length :=
    position_mono (by rw [List.length_append] at hlen; omega)
  have hend := position_eq data.length
  simp only [tailMsgSize] at htotal ⊢
  omega

theorem short_reading (h : Reading r data n (seg ++ rest) c.toCursor) {width : ℕ}
    (hwidth : width ≤ seg.length) : short r c width = false := by
  obtain ⟨hroom, hsmall⟩ := offset_add_le htotal h hwidth
  have htail : u32 (r.totalSize + tailMsgSize) = r.totalSize + tailMsgSize := u32_of_lt hsmall
  have hoffset : u32 (c.offset + width) = c.offset + width := u32_of_lt (by omega)
  unfold short
  rw [htail, hoffset]
  by_cases hone : width = 1
  · rw [if_pos hone, decide_eq_false_iff_not, ← hone, hoffset]
    omega
  · rw [if_neg hone, decide_eq_false_iff_not]
    omega

theorem shortElement_reading (h : Reading r data n (seg ++ rest) c.toCursor) {width : ℕ}
    (hwidth : width ≤ seg.length) : shortElement r c width = false := by
  obtain ⟨hroom, hsmall⟩ := offset_add_le htotal h hwidth
  have htail : u32 (r.totalSize + tailMsgSize) = r.totalSize + tailMsgSize := u32_of_lt hsmall
  have hoffset : u32 (c.offset + width) = c.offset + width := u32_of_lt (by omega)
  unfold shortElement
  by_cases hone : width = 1
  · rw [if_pos hone, decide_eq_false_iff_not, ← hone, hoffset]
    omega
  · rw [if_neg hone, htail, decide_eq_false_iff_not]
    omega

/-- A sized value. -/
theorem readSized_reading (h : Reading r data n (blob seg ++ rest) c.toCursor) :
    Returns (readSized r c) fun res =>
      res.1 = blob seg ∧ res.2.1 = .next ∧
        Reading r data (n + (blob seg).length) rest res.2.2.toCursor := by
  rw [length_blob]
  rw [blob, List.append_assoc] at h
  have hlen := h.add_length
  have hlt := h.length_lt
  rw [List.length_append, List.length_append] at hlen
  have hshort : short r c 4 = false := short_reading htotal h (Nat.le_refl _)
  unfold readSized
  rw [hshort]
  refine (readSize_reading h (by omega)).bind ?_
  rintro ⟨size, c₁⟩ ⟨rfl, h₁⟩
  refine .ite (fun hneg => by omega) (fun _ => ?_)
  refine (readBytesPaged_reading h₁).bind ?_
  rintro ⟨bytes, c₂⟩ ⟨rfl, h₂⟩
  rw [Nat.add_assoc] at h₂
  exact .pure ⟨rfl, rfl, h₂.allocate _⟩

/-- The elements of an array. -/
theorem readElements_reading {width : ℕ} (count : ℕ) :
    ∀ {elems : List UInt8} {n : ℕ} {c : Scan}, elems.length = count * width →
      Reading r data n (elems ++ rest) c.toCursor →
      Returns (readElements r width count c) fun res =>
        res.1 = elems ∧ res.2.1 = .next ∧
          Reading r data (n + elems.length) rest res.2.2.toCursor := by
  induction count with
  | zero =>
      intro elems n c hlen h
      obtain rfl := List.length_eq_zero_iff.mp (hlen.trans (Nat.zero_mul _))
      exact .pure ⟨rfl, rfl, h⟩
  | succ count ih =>
      intro elems n c hlen h
      rw [Nat.succ_mul] at hlen
      have htake : (elems.take width).length = width := List.length_take_of_le (by omega)
      have hdrop : (elems.drop width).length = elems.length - width := List.length_drop
      rw [← List.take_append_drop width elems, List.append_assoc] at h
      have hshort : shortElement r c.round width = false :=
        shortElement_reading htotal h (Nat.le_of_eq htake.symm)
      unfold readElements
      dsimp only
      rw [hshort]
      refine (readPaged_reading (c := c.round) h htake.symm rfl).bind ?_
      rintro ⟨bytes, c₁⟩ ⟨rfl, h₁⟩
      refine (ih (by omega) h₁).bind ?_
      rintro ⟨elems', flow, c₂⟩ ⟨rfl, rfl, h₂⟩
      rw [htake, hdrop, Nat.add_assoc, Nat.add_sub_cancel' (by omega)] at h₂
      exact .pure ⟨List.take_append_drop _ _, rfl, h₂⟩

/-- The elements of an array of sized values. -/
theorem readSizedArray_reading (items : List (List UInt8)) :
    ∀ {n : ℕ} {c : Scan}, Reading r data n (items.flatMap blob ++ rest) c.toCursor →
      Returns (readSizedArray r items.length c) fun res =>
        res.1 = items.flatMap blob ∧ res.2.1 = .next ∧
          Reading r data (n + (items.flatMap blob).length) rest res.2.2.toCursor := by
  induction items with
  | nil =>
      intro n c h
      exact .pure ⟨rfl, rfl, h⟩
  | cons item items ih =>
      intro n c h
      rw [List.flatMap_cons, List.append_assoc] at h
      refine (readSized_reading htotal (c := c.round) h).bind ?_
      rintro ⟨bytes, flow, c₁⟩ ⟨rfl, rfl, h₁⟩
      refine (ih h₁).bind ?_
      rintro ⟨rest', flow, c₂⟩ ⟨rfl, rfl, h₂⟩
      refine .pure ⟨rfl, rfl, ?_⟩
      rw [List.flatMap_cons, List.length_append, ← Nat.add_assoc]
      exact h₂

/-- The count of an array. -/
theorem readCount_reading {count : ℕ} (h : Reading r data n (le32 count ++ rest) c.toCursor)
    (hcount : count < 2 ^ 31) :
    Returns (readCount r c) fun res =>
      res.1 = some count ∧ Reading r data (n + 4) rest res.2.toCursor := by
  have hshort : short r c 4 = false := short_reading htotal h (Nat.le_refl _)
  unfold readCount
  rw [hshort]
  refine (readSize_reading h hcount).bind ?_
  rintro ⟨size, c₁⟩ ⟨rfl, h₁⟩
  have hval : (if (count : ℤ) < 0 then none else some (count : ℤ).toNat) = some count := by
    rw [if_neg (by omega), Int.toNat_natCast]
  exact .pure ⟨hval, h₁⟩

/-- The value of a field is read as it was stored. -/
theorem readValue_reading {l : Layout} (hvalue : Stored l seg)
    (hpos : ∀ width, l = .array width → 0 < width)
    (h : Reading r data n (seg ++ rest) c.toCursor) :
    Returns (readValue r c l) fun res =>
      res.1 = seg ∧ res.2.1 = .next ∧
        Reading r data (n + seg.length) rest res.2.2.toCursor := by
  have hlen := h.add_length
  have hlt := h.length_lt
  rw [List.length_append] at hlen
  cases hvalue with
  | fixed hwidth =>
      have hshort := short_reading htotal h (Nat.le_of_eq hwidth.symm)
      unfold readValue
      dsimp only
      rw [hshort]
      refine (readPaged_reading h hwidth.symm rfl).bind ?_
      rintro ⟨bytes, c₁⟩ ⟨rfl, h₁⟩
      exact .pure ⟨rfl, rfl, h₁.allocate _⟩
  | sized bytes => exact readSized_reading htotal h
  | @array width count elems hwidth =>
      have hcount : count ≤ count * width := Nat.le_mul_of_pos_right _ (hpos width rfl)
      rw [List.length_append] at hlen
      rw [List.append_assoc] at h
      refine (readCount_reading htotal h (by omega)).bind ?_
      rintro ⟨_, c₁⟩ ⟨rfl, h₁⟩
      refine (readElements_reading htotal count (c := c₁.allocate (4 + count * width)) hwidth
        (h₁.allocate _)).bind ?_
      rintro ⟨elems', flow, c₂⟩ ⟨rfl, rfl, h₂⟩
      rw [Nat.add_assoc] at h₂
      exact .pure ⟨rfl, rfl, by rwa [List.length_append, le32, length_leBytes]⟩
  | sizedArray items =>
      have hitems := length_le_blobs items
      rw [List.length_append] at hlen
      rw [List.append_assoc] at h
      refine (readCount_reading htotal h (by omega)).bind ?_
      rintro ⟨_, c₁⟩ ⟨rfl, h₁⟩
      refine (readSizedArray_reading htotal items (c := c₁.allocate 4) (h₁.allocate _)).bind ?_
      rintro ⟨items', flow, c₂⟩ ⟨rfl, rfl, h₂⟩
      rw [Nat.add_assoc] at h₂
      exact .pure ⟨rfl, rfl, by rwa [List.length_append, le32, length_leBytes]⟩

/-- The bytes one field lays. -/
def fieldBytes (f : FieldEntry) : List UInt8 :=
  le32 f.name.length ++ (f.name ++ ([f.type] ++ f.data))

/-- The name and the type in front of a value. -/
theorem readHeader_reading {name : List UInt8} {type : UInt8} (hname : name ≠ [])
    (h : Reading r data n (le32 name.length ++ (name ++ ([type] ++ rest))) c.toCursor) :
    Returns (readHeader r c) fun res =>
      res.1 = some (name, type) ∧
        Reading r data (n + 4 + name.length + 1) rest res.2.toCursor := by
  have hlen := h.add_length
  have hlt := h.length_lt
  rw [List.length_append, List.length_append] at hlen
  have hpos : 0 < name.length := List.length_pos_of_ne_nil hname
  unfold readHeader
  refine .ite (fun hover => ?_) (fun _ => ?_)
  · have hroom := offset_add_le htotal h (show 4 ≤ _ from Nat.le_refl _)
    have hle := u32_le (c.offset + 4)
    omega
  refine (readSize_reading h (by omega)).bind ?_
  rintro ⟨_, c₁⟩ ⟨rfl, h₁⟩
  refine .ite (fun hover => ?_) (fun _ => ?_)
  · have hroom := offset_add_le htotal h₁ (Nat.le_refl _)
    have hle := u32_le (c₁.offset + name.length)
    rcases hover with hneg | hover
    · omega
    · rw [Int.toNat_natCast] at hover
      dsimp only at hroom
      omega
  refine (readBytesPaged_reading h₁).bind ?_
  rintro ⟨_, c₂⟩ ⟨rfl, h₂⟩
  refine .ite (fun hover => ?_) (fun _ => ?_)
  · have hroom := offset_add_le htotal h₂ (show 1 ≤ _ from Nat.le_refl _)
    have hle := u32_le (c₂.offset + 1)
    dsimp only at hroom
    omega
  refine (readPaged_reading h₂ rfl rfl).bind ?_
  rintro ⟨_, c₃⟩ ⟨rfl, h₃⟩
  exact .pure ⟨rfl, h₃⟩

/-- The step: the body of the loop reads one field. -/
theorem readField_reading {f : FieldEntry} (hf : Framed f)
    (h : Reading r data n (fieldBytes f ++ rest) c.toCursor) :
    Returns (readField r c) fun res =>
      res.1 = some f ∧ res.2.1 = .next ∧
        Reading r data (n + (fieldBytes f).length) rest res.2.2.toCursor := by
  obtain ⟨l, hlayout, hstored⟩ := hf.value
  have hblock : c.offset % (ipcMsgMaxSize + tailMsgSize) < ipcMsgMaxSize := by
    have hoffset := h.offset
    rw [position_eq] at hoffset
    simp only [ipcMsgMaxSize, tailMsgSize]
    omega
  simp only [fieldBytes, List.append_assoc] at h
  unfold readField
  dsimp only
  rw [if_neg (Nat.not_le.mpr hblock)]
  refine (readHeader_reading htotal hf.name h).bind ?_
  rintro ⟨_, c₁⟩ ⟨rfl, h₁⟩
  dsimp only
  rw [hlayout]
  refine (readValue_reading htotal hstored
    (fun width hwidth => layout_pos (.inr (hwidth ▸ hlayout))) h₁).bind ?_
  rintro ⟨_, _, c₂⟩ ⟨rfl, rfl, h₂⟩
  refine .pure ⟨rfl, rfl, ?_⟩
  simpa only [fieldBytes, List.length_append, le32, length_leBytes, List.length_singleton,
    Nat.add_assoc] using h₂

/-- The run: the loop reads all fields and stops at the end of the data. -/
theorem readFields_reading (fields : List FieldEntry) :
    ∀ {n fuel : ℕ} {c : Scan} {acc : List FieldEntry}, (∀ f ∈ fields, Framed f) →
      fields.length < fuel → Reading r data n (fields.flatMap fieldBytes) c.toCursor →
      Returns (readFields r fuel c acc) fun res => ∃ c', res = some (acc ++ fields, c') := by
  induction fields with
  | nil =>
      intro n fuel c acc _ hfuel h
      obtain ⟨fuel, rfl⟩ : ∃ left, fuel = left + 1 := Nat.exists_eq_add_one.mpr hfuel
      have hlen := h.add_length
      have hoffset := h.offset
      rw [List.flatMap_nil, List.length_nil, Nat.add_zero] at hlen
      rw [hlen] at hoffset
      have hend : ¬ u32 (c.offset + tailMsgSize) < r.totalSize := by
        have hlt := h.length_lt
        rw [htotal, hoffset, position_eq, u32_of_lt (by simp only [tailMsgSize]; omega)]
        exact Nat.lt_irrefl _
      unfold readFields
      rw [if_neg hend]
      exact .pure ⟨c, by rw [List.append_nil]⟩
  | cons f fields ih =>
      intro n fuel c acc hframed hfuel h
      obtain ⟨fuel, rfl⟩ : ∃ left, fuel = left + 1 := Nat.exists_eq_add_one.mpr (by omega)
      have hmore : u32 (c.offset + tailMsgSize) < r.totalSize := by
        obtain ⟨hroom, hsmall⟩ := offset_add_le htotal h
          (show 4 ≤ _ by simp [fieldBytes, le32])
        rw [u32_of_lt (by omega)]
        omega
      rw [List.flatMap_cons] at h
      unfold readFields
      rw [if_pos hmore]
      refine (readField_reading htotal (c := c.round) (hframed f List.mem_cons_self) h).bind ?_
      rintro ⟨_, _, c₁⟩ ⟨rfl, rfl, h₁⟩
      refine (ih (fun f' hf' => hframed f' (List.mem_cons_of_mem _ hf'))
        (Nat.lt_of_succ_lt_succ hfuel) h₁).mono ?_
      rintro res ⟨c', rfl⟩
      exact ⟨c', by rw [Option.toList_some, List.append_assoc, List.singleton_append]⟩

end

/-! ## Whole messages -/

/-- A field is at least its five fixed bytes. -/
theorem length_le_fields (fields : List FieldEntry) :
    fields.length ≤ (fields.flatMap fieldBytes).length := by
  induction fields with
  | nil => exact Nat.le_refl _
  | cons f fields ih =>
      simp only [List.flatMap_cons, List.length_append, fieldBytes, le32, length_leBytes,
        List.length_cons] at ih ⊢
      omega

/-- A buffer that is a serialized message with the given fields is read as them. -/
theorem deserialize_reading {fields : List FieldEntry} (hframed : ∀ f ∈ fields, Framed f)
    {msgId : ℕ} {pieces : List (List UInt8)} (hpieces : pieces.flatten = fields.flatMap fieldBytes)
    (hfits : pieces.flatten.length / ipcMsgMaxSize + 1 < 2 ^ 16) :
    Returns (deserialize (Region.whole (writeMessage msgId pieces.flatten.length pieces)))
      fun res => ∃ c, res = some (fields, c) := by
  have hlen := length_writeMessage msgId pieces hfits
  have hcarries : Carries (Region.whole (writeMessage msgId pieces.flatten.length pieces))
      pieces.flatten :=
    carries_of_append hfits (List.append_nil _).symm rfl
  have hstart : Reading (Region.whole (writeMessage msgId pieces.flatten.length pieces))
      pieces.flatten 0 (fields.flatMap fieldBytes) Scan.start.toCursor :=
    { carries := hcarries
      small := hfits
      within := Nat.zero_le _
      ahead := by rw [List.drop_zero, hpieces]
      offset := rfl
      overflow := rfl }
  have hlt := hstart.length_lt
  have htotal : (Region.whole (writeMessage msgId pieces.flatten.length pieces)).totalSize
      = position pieces.flatten.length + tailMsgSize := by
    rw [Region.totalSize, Region.whole, hlen, u32_of_lt]
    rw [position_eq]
    simp only [tailMsgSize]
    omega
  have hsize : ¬ (Region.whole (writeMessage msgId pieces.flatten.length pieces)).size
      < tailMsgSize := by
    rw [show (Region.whole (writeMessage msgId pieces.flatten.length pieces)).size = _ from hlen]
    omega
  have hfuel : fields.length
      < (Region.whole (writeMessage msgId pieces.flatten.length pieces)).totalSize + 1 := by
    have hfields := length_le_fields fields
    have hplace := le_position pieces.flatten.length
    rw [hpieces] at hplace
    rw [htotal, hpieces]
    omega
  unfold deserialize
  rw [if_neg hsize]
  exact readFields_reading htotal fields hframed hfuel hstart

/-- The copies of a field. -/
theorem flatten_pieces (fields : List FieldEntry) :
    (fields.flatMap FieldEntry.pieces).flatten = fields.flatMap fieldBytes := by
  induction fields with
  | nil => rfl
  | cons f fields ih =>
      rw [List.flatMap_cons, List.flatten_append, ih, List.flatMap_cons]
      by_cases hdata : f.data = [] <;> simp [FieldEntry.pieces, fieldBytes, hdata]

theorem dataSize_eq (fields : List FieldEntry) :
    dataSize fields = (fields.flatMap fieldBytes).length := by
  induction fields with
  | nil => rfl
  | cons f fields ih =>
      rw [dataSize] at ih
      rw [dataSize, List.map_cons, List.sum_cons, ih, List.flatMap_cons, List.length_append]
      simp only [FieldEntry.size, fieldBytes, List.length_append, le32, length_leBytes,
        List.length_singleton]
      omega

/-- Any buffer of the length of a page tail is a message without fields. -/
theorem deserialize_tail {bytes : List UInt8} (hlen : bytes.length = tailMsgSize) :
    deserialize (Region.whole bytes) = .ok (some ([], .start)) := by
  have htotal : (Region.whole bytes).totalSize = tailMsgSize := by
    rw [Region.totalSize, Region.whole, hlen]
    rfl
  have hsize : ¬ (Region.whole bytes).size < tailMsgSize := Nat.not_lt.mpr (Nat.le_of_eq hlen.symm)
  unfold deserialize
  rw [if_neg hsize, htotal]
  unfold readFields
  rw [if_neg (by rw [htotal]; decide)]
  rfl

/-- The serialized message fits the 16-bit page count. -/
def Fits (m : GenericMessage) : Prop := dataSize m.fields / ipcMsgMaxSize + 1 < 2 ^ 16

/-- `deserialize`, run on what `serialize` makes of the message, gives its fields back. -/
def RoundTrips (m : GenericMessage) : Prop :=
  ∀ fresh : ℕ → UInt8, ∃ buf, m.serialize fresh = .ok buf ∧
    Returns (deserialize (Region.whole buf)) fun res => ∃ c, res = some (m.fields, c)

/-- A message without fields returns its buffer as it was allocated. -/
theorem serialize_nil (msgId : ℕ) (fresh : ℕ → UInt8) :
    serialize ⟨[], msgId⟩ fresh = .ok ((List.range tailMsgSize).map fresh) := rfl

/-- What a message with fields writes. -/
theorem serialize_eq {m : GenericMessage} (fresh : ℕ → UInt8) (hne : m.fields ≠ [])
    (hfits : m.Fits) :
    m.serialize fresh = .ok (writeMessage m.msgId
      (m.fields.flatMap FieldEntry.pieces).flatten.length
      (m.fields.flatMap FieldEntry.pieces)) := by
  rw [Fits, dataSize_eq, ← flatten_pieces] at hfits
  rw [serialize, if_neg hne, dataSize_eq, ← flatten_pieces]
  exact buffer_of_fits fresh m.msgId _ hfits

/-- A message that does not fit leaves its buffer. -/
theorem serialize_of_not_fits {m : GenericMessage} (fresh : ℕ → UInt8) (hfits : ¬ m.Fits) :
    m.serialize fresh = .error .outOfBounds := by
  have hne : m.fields ≠ [] := by
    intro hnil
    apply hfits
    rw [Fits, hnil]
    decide
  rw [Fits, dataSize_eq, ← flatten_pieces] at hfits
  rw [serialize, if_neg hne, dataSize_eq, ← flatten_pieces, buffer_eq,
    if_neg (Nat.not_le.mpr (totalSize_lt_of_not_fits m.msgId _ hfits))]

/-- **A `GenericMessage` whose values are stored in their layouts comes back from its own
buffer exactly when it fits.** -/
theorem roundTrips_iff_fits {m : GenericMessage} (hframed : ∀ f ∈ m.fields, Framed f) :
    m.RoundTrips ↔ m.Fits := by
  constructor
  · intro htrips
    by_contra hfits
    obtain ⟨buf, hbuf, -⟩ := htrips fun _ => 0
    rw [serialize_of_not_fits _ hfits] at hbuf
    cases hbuf
  · intro hfits fresh
    by_cases hnil : m.fields = []
    · obtain ⟨fields, msgId⟩ := m
      obtain rfl := hnil
      refine ⟨_, serialize_nil msgId fresh, .of_eq (deserialize_tail ?_) ⟨_, rfl⟩⟩
      rw [List.length_map, List.length_range]
    · refine ⟨_, serialize_eq fresh hnil hfits, ?_⟩
      refine deserialize_reading hframed (flatten_pieces _) ?_
      rwa [flatten_pieces, ← dataSize_eq]

/-! ## What the setters store -/

/-- Every kind of value is stored in the layout of its type code. -/
theorem stored_valuePieces (k : Kind) (v : k.Value) :
    ∃ l, layout (byte k.typeIndex) = some l ∧ Stored l (k.valuePieces v).flatten := by
  cases k with
  | scalar s =>
      refine ⟨.fixed s.size, by cases s <;> rfl, .fixed ?_⟩
      rw [Kind.valuePieces, List.flatten_singleton, length_leBytes]
  | bool => exact ⟨.fixed 1, rfl, .fixed rfl⟩
  | string =>
      refine ⟨.sized, rfl, ?_⟩
      rw [Kind.valuePieces, List.flatten_cons, List.flatten_singleton]
      exact .sized v
  | scalars s size =>
      refine ⟨.array s.size, by cases s <;> rfl, ?_⟩
      rw [flatten_scalars]
      exact .array (length_flatMap_const _ _ (fun _ => length_leBytes _ _) v.1)
  | bools size =>
      refine ⟨.array 1, rfl, ?_⟩
      rw [flatten_bools]
      exact .array (by rw [List.length_map, Nat.mul_one]; rfl)
  | strings size =>
      refine ⟨.sizedArray, rfl, ?_⟩
      rw [flatten_strings]
      exact .sizedArray v.1

theorem framed_setField {m : GenericMessage} (hm : ∀ f ∈ m.fields, Framed f) {f : FieldEntry}
    (hf : Framed f) : ∀ g ∈ (m.setField f).fields, Framed g := by
  intro g hg
  unfold setField at hg
  split at hg
  · rcases List.mem_or_eq_of_mem_set hg with hold | rfl
    · exact hm g hold
    · exact hf
  · rcases List.mem_append.mp hg with hold | hnew
    · exact hm g hold
    · obtain rfl := List.mem_singleton.mp hnew
      exact hf

/-- The step: a setter stores a value in the layout of its type. -/
theorem framed_apply {m : GenericMessage} (hm : ∀ f ∈ m.fields, Framed f) {name : List UInt8}
    (hname : name ≠ []) (setter : Setter) :
    Yields (m.apply name setter) fun m' => ∀ f ∈ m'.fields, Framed f := by
  cases setter with
  | value k v => exact framed_setField hm ⟨hname, stored_valuePieces k v⟩
  | boolArray arr =>
      exact framed_setField hm ⟨hname, .array 1, rfl, .array (Nat.mul_one _).symm⟩
  | nested fresh val =>
      exact Yields.any.bind fun serialized _ =>
        .pure (framed_setField hm ⟨hname, .sized, rfl, .sized serialized⟩)
  | nestedArray fresh vals =>
      exact Yields.any.bind fun serialized _ =>
        .pure (framed_setField hm ⟨hname, .sizedArray, rfl, .sizedArray serialized⟩)

/-- The run: so does every sequence of setters. -/
theorem framed_build (calls : List (List UInt8 × Setter)) :
    ∀ {m : GenericMessage}, (∀ f ∈ m.fields, Framed f) → (∀ call ∈ calls, call.1 ≠ []) →
      Yields (m.build calls) fun m' => ∀ f ∈ m'.fields, Framed f := by
  induction calls with
  | nil => exact fun hm _ => .pure hm
  | cons call calls ih =>
      intro m hm hnames
      exact (framed_apply hm (hnames call List.mem_cons_self) call.2).bind fun m' hm' =>
        ih hm' fun call' hcall => hnames call' (List.mem_cons_of_mem _ hcall)

end GenericMessage

/-! ## Generated messages -/

/-- The names of a message's fields. -/
def Schema.names : Schema → List (List UInt8)
  | nil => []
  | field name _ rest | nested name _ rest | nestedArray name _ _ rest => name :: rest.names

open GenericMessage in
/-- The fields of a message with their type codes and value bytes: what `GenericMessage` is
to make of it. -/
def Schema.entries : (S : Schema) → S.Value → List FieldEntry
  | nil, _ => []
  | field name kind rest, v =>
      ⟨name, byte kind.typeIndex, (kind.valuePieces v.1).flatten⟩ :: rest.entries v.2
  | nested name msg rest, v =>
      ⟨name, byte nestedTypeIndex, blob (msg.serialize 0 v.1)⟩ :: rest.entries v.2
  | nestedArray name _ msg rest, v =>
      ⟨name, byte nestedArrayTypeIndex,
        le32 v.1.length ++ (v.1.1.map (msg.serialize 0)).flatMap blob⟩ :: rest.entries v.2

/-- What is laid does not depend on how it is cut into copies. -/
theorem writeMessage_congr (msgId : ℕ) {pieces pieces' : List (List UInt8)}
    (hpieces : pieces.flatten = pieces'.flatten)
    (hfits : pieces.flatten.length / ipcMsgMaxSize + 1 < 2 ^ 16) :
    writeMessage msgId pieces.flatten.length pieces
      = writeMessage msgId pieces'.flatten.length pieces' := by
  rw [writeMessage_eq msgId pieces hfits, writeMessage_eq msgId pieces' (hpieces ▸ hfits), hpieces]

/-- The generated class and `GenericMessage` lay the same bytes. -/
theorem flatten_entries (S : Schema) (v : S.Value) :
    S.data v = (S.entries v).flatMap GenericMessage.fieldBytes := by
  unfold Schema.data
  induction S with
  | nil => rfl
  | field name kind rest ih =>
      rw [Schema.body, Schema.entries, List.flatMap_cons, ← ih v.2]
      simp [GenericMessage.fieldBytes, headerPieces]
  | nested name msg rest _ ih =>
      rw [Schema.body, Schema.entries, List.flatMap_cons, ← ih v.2]
      simp [GenericMessage.fieldBytes, headerPieces, flatten_nestedPieces, GenericMessage.blob,
        Schema.serialize]
  | nestedArray name size msg rest _ ih =>
      have hblobs : ∀ messages : List (List UInt8),
          (messages.flatMap nestedPieces).flatten = messages.flatMap GenericMessage.blob := by
        intro messages
        induction messages with
        | nil => rfl
        | cons bytes messages ih =>
            rw [List.flatMap_cons, List.flatten_append, flatten_nestedPieces, ih,
              List.flatMap_cons, GenericMessage.blob]
      rw [Schema.body, Schema.entries, List.flatMap_cons, ← ih v.2]
      simp [GenericMessage.fieldBytes, headerPieces, hblobs, Arr.length]
      rfl

theorem framed_entries (S : Schema) (v : S.Value) (hnames : ∀ name ∈ S.names, name ≠ []) :
    ∀ f ∈ S.entries v, GenericMessage.Framed f := by
  induction S with
  | nil => exact fun f hf => absurd hf List.not_mem_nil
  | field name kind rest ih =>
      intro f hf
      rcases List.mem_cons.mp hf with rfl | hf
      · exact ⟨hnames name List.mem_cons_self, GenericMessage.stored_valuePieces kind v.1⟩
      · exact ih v.2 (fun n hn => hnames n (List.mem_cons_of_mem _ hn)) f hf
  | nested name msg rest _ ih =>
      intro f hf
      rcases List.mem_cons.mp hf with rfl | hf
      · exact ⟨hnames name List.mem_cons_self, .sized, rfl, .sized _⟩
      · exact ih v.2 (fun n hn => hnames n (List.mem_cons_of_mem _ hn)) f hf
  | nestedArray name size msg rest _ ih =>
      intro f hf
      rcases List.mem_cons.mp hf with rfl | hf
      · refine ⟨hnames name List.mem_cons_self, .sizedArray, rfl, ?_⟩
        have hitems := GenericMessage.Stored.sizedArray (v.1.1.map (msg.serialize 0))
        rwa [List.length_map] at hitems
      · exact ih v.2 (fun n hn => hnames n (List.mem_cons_of_mem _ hn)) f hf

/-- `GenericMessage::deserialize` makes of the generated buffer the fields of the message,
and `GenericMessage::serialize` makes the buffer of them again. -/
def Schema.SpeaksGeneric (S : Schema) (msgId : ℕ) (v : S.Value) : Prop :=
  ∀ fresh fresh' : ℕ → UInt8, ∃ buf, S.buffer fresh msgId v = .ok buf ∧
    (Returns (GenericMessage.deserialize (Region.whole buf))
      fun res => ∃ c, res = some (S.entries v, c)) ∧
    GenericMessage.serialize ⟨S.entries v, msgId⟩ fresh' = .ok buf

theorem buffer_serialize {S : Schema} {v : S.Value} (fresh : ℕ → UInt8) (msgId : ℕ)
    (hfits : S.Fits v) : S.buffer fresh msgId v = .ok (S.serialize msgId v) := by
  rw [Schema.Fits, ← length_data] at hfits
  rw [serialize_eq_writeMessage, Schema.buffer, ← length_data]
  exact buffer_of_fits fresh msgId _ hfits

theorem buffer_of_not_fits {S : Schema} {v : S.Value} (fresh : ℕ → UInt8) (msgId : ℕ)
    (hfits : ¬ S.Fits v) : S.buffer fresh msgId v = .error .outOfBounds := by
  rw [Schema.Fits, ← length_data] at hfits
  rw [Schema.buffer, ← length_data, Schema.data, buffer_eq,
    if_neg (Nat.not_le.mpr (totalSize_lt_of_not_fits msgId _ hfits))]

theorem fits_nil (v : Schema.nil.Value) : Schema.nil.Fits v := by
  change 0 / ipcMsgMaxSize + 1 < 2 ^ 16
  decide

/-- A message without fields gets a tail from the generated class only. -/
theorem not_speaksGeneric_nil (msgId : ℕ) (v : Schema.nil.Value) :
    ¬ Schema.nil.SpeaksGeneric msgId v := by
  intro hspeaks
  obtain ⟨buf, hbuf, -, hagain⟩ := hspeaks (fun _ => 0) (fun _ => 1)
  rw [show Schema.nil.entries v = [] from rfl, GenericMessage.serialize_nil] at hagain
  rw [buffer_serialize _ _ (fits_nil v)] at hbuf
  have htail : Schema.nil.serialize msgId v = tailBytes (correctTotalSize 0) msgId 1 := rfl
  rw [htail] at hbuf
  have hbytes := Except.ok.inj (hbuf.trans hagain.symm)
  have hhead : byte ((correctTotalSize 0).pageCnt / 2 ^ 8) = 1 :=
    Option.some.inj (congrArg List.head? hbytes)
  exact absurd hhead (by decide)

theorem speaksGeneric_of_fits {S : Schema} {msgId : ℕ} {v : S.Value}
    (hnames : ∀ name ∈ S.names, name ≠ []) (hne : S ≠ .nil) (hfits : S.Fits v) :
    S.SpeaksGeneric msgId v := by
  intro fresh fresh'
  have hentries : S.entries v ≠ [] := by
    cases S with
    | nil => exact absurd rfl hne
    | _ => exact List.cons_ne_nil _ _
  have hpages : (S.data v).length / ipcMsgMaxSize + 1 < 2 ^ 16 := by
    rw [length_data]
    exact hfits
  refine ⟨_, buffer_serialize fresh msgId hfits, ?_, ?_⟩
  · rw [serialize_eq_writeMessage]
    exact GenericMessage.deserialize_reading (framed_entries S v hnames) (flatten_entries S v) hpages
  · have hentriesFit : GenericMessage.Fits ⟨S.entries v, msgId⟩ := by
      rw [GenericMessage.Fits, GenericMessage.dataSize_eq, ← flatten_entries]
      exact hpages
    have hpieces : (S.body v).1.flatten
        = ((S.entries v).flatMap FieldEntry.pieces).flatten := by
      rw [GenericMessage.flatten_pieces, ← flatten_entries]
      rfl
    rw [GenericMessage.serialize_eq fresh' hentries hentriesFit, serialize_eq_writeMessage,
      writeMessage_congr msgId hpieces hpages]

/-- The two classes agree on a message exactly when it has a field and fits. -/
theorem speaksGeneric_iff {S : Schema} (msgId : ℕ) (v : S.Value)
    (hnames : ∀ name ∈ S.names, name ≠ []) :
    S.SpeaksGeneric msgId v ↔ S ≠ .nil ∧ S.Fits v := by
  constructor
  · intro hspeaks
    constructor
    · rintro rfl
      exact not_speaksGeneric_nil msgId v hspeaks
    · by_contra hfits
      obtain ⟨buf, hbuf, -⟩ := hspeaks (fun _ => 0) (fun _ => 0)
      rw [buffer_of_not_fits _ _ hfits] at hbuf
      cases hbuf
  · rintro ⟨hne, hfits⟩
    exact speaksGeneric_of_fits hnames hne hfits

/-- **One format.**  A generated message with named fields goes through `GenericMessage` and
back unchanged exactly when it has a field and fits the page count; a message built by the
setters of `GenericMessage` comes back from its own buffer exactly when it fits. -/
theorem generic_speaks_format (msgId : ℕ) :
    (∀ (S : Schema) (v : S.Value), (∀ name ∈ S.names, name ≠ []) →
      (S.SpeaksGeneric msgId v ↔ S ≠ .nil ∧ S.Fits v)) ∧
    (∀ (calls : List (List UInt8 × GenericMessage.Setter)) (m : GenericMessage),
      (∀ call ∈ calls, call.1 ≠ []) → GenericMessage.build ⟨[], msgId⟩ calls = .ok m →
        (m.RoundTrips ↔ m.Fits)) := by
  constructor
  · exact fun S v hnames => speaksGeneric_iff msgId v hnames
  · intro calls m hnames hbuild
    have hframed := GenericMessage.framed_build calls (m := ⟨[], msgId⟩)
      (fun f hf => absurd hf List.not_mem_nil) hnames
    exact GenericMessage.roundTrips_iff_fits (hframed.elim hbuild)

/-- A counter `n`, and a nested message `m` without fields. -/
def sampleCalls : List (List UInt8 × GenericMessage.Setter) :=
  [([110], .value (.scalar .uint16) (2 : BitVec 16)), ([109], .nested (fun _ => 0) ⟨[], 0⟩)]

theorem generic_speaks_sample :
    (∀ name ∈ sampleSchema.names, name ≠ []) ∧
      (sampleSchema.SpeaksGeneric 7 sampleValue ↔
        sampleSchema ≠ .nil ∧ sampleSchema.Fits sampleValue) ∧
      (∀ call ∈ sampleCalls, call.1 ≠ []) ∧
      ∃ m, GenericMessage.build ⟨[], 7⟩ sampleCalls = .ok m ∧ (m.RoundTrips ↔ m.Fits) := by
  have hnames : ∀ name ∈ sampleSchema.names, name ≠ [] := by decide
  have hcalls : ∀ call ∈ sampleCalls, call.1 ≠ [] := by
    intro call hcall
    rcases List.mem_cons.mp hcall with rfl | hcall
    · exact List.cons_ne_nil _ _
    · obtain rfl := List.mem_singleton.mp hcall
      exact List.cons_ne_nil _ _
  refine ⟨hnames, (generic_speaks_format 7).1 _ _ hnames, hcalls, _, rfl, ?_⟩
  exact (generic_speaks_format 7).2 _ _ hcalls rfl

/-- The buffer of a message without fields is not reproduced. -/
theorem generic_speaks_fails_nil :
    (∀ name ∈ Schema.nil.names, name ≠ []) ∧ ¬ Schema.nil.SpeaksGeneric 7 () :=
  ⟨fun _ hname => absurd hname List.not_mem_nil, not_speaksGeneric_nil 7 ()⟩

end DzIpc.Wire
