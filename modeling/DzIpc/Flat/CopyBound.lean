import DzIpc.Flat.RoundTrip
import Mathlib.Algebra.Order.BigOperators.Group.List
import Mathlib.Tactic.Ring

/-!
# How much `copy_to` stores

Every access of a view is checked against the segment, but the checks do not see that two
references lead to the same bytes.  A table of strings whose entries all name the same text makes
the owning message as large as the product of the two.

* `degree` counts how many lengths taken from the segment multiply: one for a string or an array
  of numbers, one more for every array of unknown length around it.
* `copyTo_stores`: what a message gains is at most `weight S` times the size of the segment to
  the power `degree S`, so that it is linear if no reference stands under an array of unknown
  length.
* `copyTo_table` is the table of strings, and `not_linear` says that no constant will do for it.
-/

namespace DzIpc.Flat

open Wire Blocks

/-! ## Bytes and elements -/

/-- The elements of an array and what is stored in them. -/
def sizes {α : Type} (f : α → ℕ) (items : List α) : ℕ :=
  (items.map fun a => 1 + f a).sum

/-- The bytes and elements in a field. -/
def Kind.stored : (k : Kind) → k.Value → ℕ
  | .scalar s, _ => s.size
  | .bool, _ => 1
  | .string, v => v.length
  | .scalars s _, v => v.length * (1 + s.size)
  | .bools _, v => v.length * 2
  | .strings _, v => sizes List.length v.1

/-- The bytes and elements in a message. -/
def stored : (S : Schema) → S.Value → ℕ
  | .nil, _ => 0
  | .field _ k rest, v => Kind.stored k v.1 + stored rest v.2
  | .nested _ msg rest, v => stored msg v.1 + stored rest v.2
  | .nestedArray _ _ msg rest, v => sizes (stored msg) v.1.1 + stored rest v.2

/-- How many lengths that the segment gives multiply in a field. -/
def Kind.degree : Kind → ℕ
  | .scalar _ | .bool | .scalars _ (some _) | .bools (some _) => 0
  | .string | .scalars _ none | .bools none | .strings (some _) => 1
  | .strings none => 2

/-- How many lengths that the segment gives multiply in a message. -/
def degree : Schema → ℕ
  | .nil => 0
  | .field _ k rest => max (Kind.degree k) (degree rest)
  | .nested _ msg rest => max (degree msg) (degree rest)
  | .nestedArray _ none msg rest => max (degree msg + 1) (degree rest)
  | .nestedArray _ (some _) msg rest => max (degree msg) (degree rest)

/-- The constant of a field. -/
def Kind.weight : Kind → ℕ
  | .scalar _ | .bool | .scalars _ (some _) | .bools (some _) => 0
  | .string => 1
  | .scalars _ none | .bools none | .strings none => 2
  | .strings (some n) => n

/-- The constant of a message.  An element that is new comes with its fixed members. -/
def weight : Schema → ℕ
  | .nil => 0
  | .field _ k rest => Kind.weight k + weight rest
  | .nested _ msg rest => weight msg + weight rest
  | .nestedArray _ none msg rest => 1 + stored msg msg.default + weight msg + weight rest
  | .nestedArray _ (some n) msg rest => n * weight msg + weight rest

section

variable {α : Type} {f : α → ℕ}

@[simp] theorem sizes_nil : sizes f [] = 0 := rfl

@[simp] theorem sizes_cons (a : α) (items : List α) :
    sizes f (a :: items) = 1 + f a + sizes f items := by
  simp [sizes]

@[simp] theorem sizes_append (xs ys : List α) : sizes f (xs ++ ys) = sizes f xs + sizes f ys := by
  simp [sizes]

@[simp] theorem sizes_replicate (n : ℕ) (a : α) : sizes f (List.replicate n a) = n * (1 + f a) := by
  simp [sizes]

theorem sizes_take_add_drop (n : ℕ) (items : List α) :
    sizes f (items.take n) + sizes f (items.drop n) = sizes f items := by
  rw [← sizes_append, List.take_append_drop]

/-- Overwriting the front of an array with as many elements as it has, or fewer. -/
theorem overlay_eq {old new : List α} (hle : new.length ≤ old.length) :
    overlay old new = new ++ old.drop new.length := by
  induction old generalizing new with
  | nil =>
      obtain rfl := List.length_eq_zero_iff.mp (Nat.le_zero.mp hle)
      rfl
  | cons a old ih =>
      cases new with
      | nil => rfl
      | cons b new =>
          rw [overlay, ih (Nat.le_of_succ_le_succ hle)]
          rfl

/-! ## Arrays -/

/-- If every element gains at most `gain`, so do the elements of the loop. -/
theorem copyElems_grows {copy : ℕ → α → Except Fault α} {gain : ℕ}
    (hcopy : ∀ i old, Returns (copy i old) fun item => f item ≤ f old + gain) (olds : List α) :
    ∀ i, Returns (copyElems copy i olds) fun items =>
      items.length = olds.length ∧ sizes f items ≤ sizes f olds + olds.length * gain := by
  induction olds with
  | nil => exact fun i => .pure ⟨rfl, Nat.zero_le _⟩
  | cons old olds ih =>
      intro i
      refine (hcopy i old).bind fun item hitem => (ih (i + 1)).bind fun items hitems => .pure ?_
      refine ⟨congrArg (· + 1) hitems.1, ?_⟩
      have hrest := hitems.2
      rw [sizes_cons, sizes_cons, List.length_cons, Nat.succ_mul]
      omega

/-- What an array of the size can gain, in elements that gain at most `gain` each: `count` new ones
if its length is free. -/
def arrayGain (size : ArraySize) (count fresh gain : ℕ) : ℕ :=
  match size with
  | none => count * (1 + fresh + gain)
  | some n => n * gain

theorem copyArray_grows {size : ArraySize} (old : Arr size α) (fresh : α) (count gain : ℕ)
    {copy : ℕ → α → Except Fault α}
    (hcopy : ∀ i old, Returns (copy i old) fun item => f item ≤ f old + gain) :
    Returns (copyElems copy 0 (overwritten old fresh (copyCount size count))) fun items =>
      sizes f (old.store items).1 ≤ sizes f old.1 + arrayGain size count (f fresh) gain := by
  refine (copyElems_grows hcopy _ 0).mono fun items ⟨hlen, hsizes⟩ => ?_
  cases size with
  | none =>
      have hcount : (overwritten old fresh count).length = count := by
        simp [overwritten]
      have htake := sizes_take_add_drop (f := f) count (old.1 ++ List.replicate count fresh)
      rw [sizes_append, sizes_replicate] at htake
      have hover : sizes f (overwritten old fresh count) ≤ sizes f old.1 + count * (1 + f fresh) := by
        rw [← htake]
        exact Nat.le_add_right _ _
      simp only [copyCount] at hsizes
      rw [hcount] at hsizes
      calc sizes f (old.store items).1
          ≤ sizes f (overwritten old fresh count) + count * gain := hsizes
        _ ≤ sizes f old.1 + count * (1 + f fresh) + count * gain := Nat.add_le_add_right hover _
        _ = sizes f old.1 + arrayGain none count (f fresh) gain := by
            rw [arrayGain]
            ring
  | some n =>
      have hold : old.1.length = n := old.2 n rfl
      have hle : min count n ≤ old.1.length := by omega
      have hover : overwritten old fresh (min count n) = old.1.take (min count n) := by
        rw [overwritten, List.take_append_of_le_length hle]
      simp only [copyCount, hover, List.length_take_of_le hle] at hlen hsizes
      have hsplit := sizes_take_add_drop (f := f) (min count n) old.1
      have hgain : min count n * gain ≤ n * gain := Nat.mul_le_mul_right _ (Nat.min_le_right _ _)
      have hstore : (old.store items).1 = items ++ old.1.drop (min count n) := by
        rw [← hlen]
        exact overlay_eq (by omega)
      have harray : arrayGain (some n) count (f fresh) gain = n * gain := rfl
      rw [hstore, sizes_append, harray]
      omega

end

/-! ## Fields -/

section

variable {rd : Reader} {at' : ℕ}

theorem Reader.length_load {len : ℕ} (h : rd.Holds at' len) :
    Returns (rd.load at' len) fun bytes => bytes.length ≤ len :=
  (rd.load_safe h).mono fun bytes hbytes => by
    rw [hbytes]
    exact List.length_take_le _ _

/-- A string is no longer than the segment. -/
theorem Reader.length_asString (r : VarRef) :
    Returns (rd.asString r) fun bytes => bytes.length ≤ rd.size := by
  refine .ite (fun _ => .pure (Nat.zero_le _)) fun _ => ?_
  refine .ite (fun h => ?_) fun _ => .pure (Nat.zero_le _)
  have hholds := Reader.holds_of_inBounds h
  rw [Nat.mul_one] at hholds
  refine (rd.length_load hholds).mono fun bytes hlen => ?_
  unfold Reader.Holds at hholds
  omega

/-- The elements of a span are in the segment. -/
theorem Reader.asSpan_le (r : VarRef) {size : ℕ} (hsize : size < 2 ^ 32) :
    (rd.asSpan r size).2 * size ≤ rd.size := by
  unfold Reader.asSpan
  split
  · simp
  split
  · rename_i h
    have hholds := Reader.holds_of_inBounds h
    rw [u32_of_lt hsize] at hholds
    unfold Reader.Holds at hholds
    dsimp only
    omega
  · simp

theorem Reader.length_loadSpan (r : VarRef) {size : ℕ} (hsize : size < 2 ^ 32) :
    Returns (rd.loadSpan r size) fun bytes => bytes.length ≤ rd.size := by
  refine (rd.loadSpan_safe r hsize).and_yields ?_ |>.mono fun bytes h => h.2
  unfold Reader.loadSpan
  have hspan := rd.asSpan_le r hsize
  refine .ite (fun _ => .pure (Nat.zero_le _)) fun _ => ?_
  unfold Reader.load
  refine .ite (fun _ => ?_) fun _ => trivial
  exact (List.length_take_le _ _).trans hspan

/-- There are no more elements than bytes. -/
theorem Reader.asSpan_le_size (r : VarRef) {size : ℕ} (hpos : 0 < size) (hsize : size < 2 ^ 32) :
    (rd.asSpan r size).2 ≤ rd.size :=
  (Nat.le_mul_of_pos_right _ hpos).trans (rd.asSpan_le r hsize)

/-- The assignment of a field. -/
theorem Kind.stored_copyTo (k : Kind) (old : k.Value) (h : rd.Holds at' (memberSize k))
    (hpos : 0 < rd.size) :
    Returns (Kind.copyTo rd at' k old) fun v =>
      Kind.stored k v ≤ Kind.stored k old + Kind.weight k * rd.size ^ Kind.degree k := by
  cases k with
  | scalar s => exact (rd.load_safe h).bind fun _ _ => .pure (Nat.le_add_right _ _)
  | bool => exact (rd.load_safe h).bind fun _ _ => .pure (Nat.le_add_right _ _)
  | string =>
      refine (rd.loadRef_safe h).bind fun r _ => (rd.length_asString r).mono fun v hlen => ?_
      simp only [Kind.stored, Kind.weight, Kind.degree, Nat.pow_one]
      omega
  | scalars s size =>
      cases size with
      | some n =>
          refine (rd.load_safe h).bind fun bytes _ => .pure ?_
          have hkeep : (old.store (ofBytes s.size n bytes)).length = old.length :=
            length_overlay _ _
          simp only [Kind.stored, hkeep]
          exact Nat.le_add_right _ _
      | none =>
          have hsize : s.size < 2 ^ 32 := by cases s <;> decide
          refine (rd.loadRef_safe h).bind fun r _ =>
            (rd.length_loadSpan r hsize).bind fun bytes hlen => .pure ?_
          have hcount : (old.store (ofBytes s.size (bytes.length / s.size) bytes)).length
              = bytes.length / s.size := length_ofBytes _ _ _
          have hbytes := Nat.div_mul_le_self bytes.length s.size
          have helems := Nat.div_le_self bytes.length s.size
          simp only [Kind.stored, Kind.weight, Kind.degree, hcount, Nat.mul_add, Nat.mul_one,
            Nat.pow_one]
          omega
  | bools size =>
      cases size with
      | some n =>
          refine (rd.load_safe h).bind fun bytes _ => .pure ?_
          have hkeep : (old.store (bytes.map fun b => decide (b ≠ 0))).length = old.length :=
            length_overlay _ _
          simp only [Kind.stored, hkeep]
          exact Nat.le_add_right _ _
      | none =>
          refine (rd.loadRef_safe h).bind fun r _ =>
            (rd.length_loadSpan r (by decide)).bind fun bytes hlen => .pure ?_
          have hcount : (old.store (bytes.map fun b => decide (b ≠ 0))).length = bytes.length :=
            List.length_map _
          simp only [Kind.stored, Kind.weight, Kind.degree, hcount, Nat.pow_one]
          omega
  | strings size =>
      refine (rd.loadRef_safe h).bind fun r _ => ?_
      have hcount : (rd.asSpan r varRefSize).2 ≤ rd.size :=
        rd.asSpan_le_size r (by decide) (by decide)
      refine (copyArray_grows (f := List.length) old [] _ rd.size fun i old => ?_).bind
        fun items hitems => .pure (hitems.trans (Nat.add_le_add_left ?_ _))
      · refine (rd.loadRef_safe h).bind fun r _ => ?_
        split
        · rename_i e he
          have hentry : rd.Holds e varRefSize := Reader.elemAt_holds (by decide) he
          exact (rd.loadRef_safe hentry).bind fun r _ => (rd.length_asString r).mono fun _ hlen =>
            hlen.trans (Nat.le_add_left _ _)
        · exact .pure (Nat.zero_le _)
      · cases size with
        | some n => exact Nat.le_of_eq (congrArg _ (Nat.pow_one _).symm)
        | none =>
            calc (rd.asSpan r varRefSize).2 * (1 + 0 + rd.size)
                ≤ rd.size * (1 + 0 + rd.size) := Nat.mul_le_mul_right _ hcount
              _ ≤ rd.size * (rd.size + rd.size) := Nat.mul_le_mul_left _ (by omega)
              _ = Kind.weight (.strings none) * rd.size ^ Kind.degree (.strings none) := by
                  simp only [Kind.weight, Kind.degree]
                  ring

/-! ## Messages -/

/-- Two bounds with powers, by the greater one. -/
theorem mul_pow_add_mul_pow_le {n : ℕ} (hn : 0 < n) (a b d e : ℕ) :
    a * n ^ d + b * n ^ e ≤ (a + b) * n ^ max d e := by
  have hd : n ^ d ≤ n ^ max d e := Nat.pow_le_pow_right hn (Nat.le_max_left _ _)
  have he : n ^ e ≤ n ^ max d e := Nat.pow_le_pow_right hn (Nat.le_max_right _ _)
  calc a * n ^ d + b * n ^ e
      ≤ a * n ^ max d e + b * n ^ max d e :=
        Nat.add_le_add (Nat.mul_le_mul_left a hd) (Nat.mul_le_mul_left b he)
    _ = (a + b) * n ^ max d e := (Nat.add_mul a b _).symm

/-- What the elements of an array of messages gain. -/
theorem arrayGain_le (size : ArraySize) (msg : Schema) {count : ℕ} (hcount : count ≤ rd.size)
    (hpos : 0 < rd.size) :
    arrayGain size count (stored msg msg.default) (weight msg * rd.size ^ degree msg)
      ≤ weight (.nestedArray [] size msg .nil) * rd.size ^ degree (.nestedArray [] size msg .nil) := by
  cases size with
  | none =>
      have hone : 1 ≤ rd.size ^ degree msg := Nat.pow_pos hpos
      have hfresh := Nat.mul_le_mul_left (1 + stored msg msg.default) hone
      calc count * (1 + stored msg msg.default + weight msg * rd.size ^ degree msg)
          ≤ rd.size * (1 + stored msg msg.default + weight msg * rd.size ^ degree msg) :=
            Nat.mul_le_mul_right _ hcount
        _ ≤ rd.size * ((1 + stored msg msg.default) * rd.size ^ degree msg
              + weight msg * rd.size ^ degree msg) := Nat.mul_le_mul_left _ (by omega)
        _ = (1 + stored msg msg.default + weight msg) * rd.size ^ (degree msg + 1) := by ring
        _ = _ := by simp [weight, degree]
  | some n =>
      simp only [arrayGain, weight, degree, Nat.add_zero, Nat.max_zero]
      exact Nat.le_of_eq (Nat.mul_assoc _ _ _).symm

/-- `copy_to`, from a record in the segment.  The induction is on the schema. -/
theorem copyTo_grows (hpos : 0 < rd.size) (S : Schema) :
    ∀ {base cur : ℕ} (old : S.Value), NarrowElems S → rd.Holds base (layoutEnd S cur) →
      Returns (copyTo rd S base cur old) fun v =>
        stored S v ≤ stored S old + weight S * rd.size ^ degree S := by
  induction S with
  | nil => exact fun _ _ _ => .pure (Nat.le_add_right _ _)
  | field name k rest ih =>
      intro base cur old hnarrow h
      refine (Kind.stored_copyTo k old.1 (h.part (le_layoutEnd rest _)) hpos).bind fun v hv => ?_
      refine (ih old.2 hnarrow h).bind fun vs hvs => .pure ?_
      have hmax := mul_pow_add_mul_pow_le hpos (Kind.weight k) (weight rest) (Kind.degree k)
        (degree rest)
      simp only [stored, weight, degree]
      omega
  | nested name msg rest ihmsg ih =>
      intro base cur old hnarrow h
      have hroot : rd.Holds (base + alignTo cur rootAlign) (rootSize msg) :=
        h.part (le_layoutEnd rest _)
      refine (ihmsg old.1 hnarrow.1 (hroot.mono (layoutEnd_le_rootSize msg))).bind fun v hv => ?_
      refine (ih old.2 hnarrow.2 h).bind fun vs hvs => .pure ?_
      have hmax := mul_pow_add_mul_pow_le hpos (weight msg) (weight rest) (degree msg) (degree rest)
      simp only [stored, weight, degree]
      omega
  | nestedArray name size msg rest ihmsg ih =>
      intro base cur old hnarrow h
      have href : rd.Holds (base + alignTo cur varRefAlign) varRefSize :=
        h.part (le_layoutEnd rest _)
      refine (rd.loadRef_safe href).bind fun r _ => ?_
      have hcount : (rd.asSpan r (rootSize msg)).2 ≤ rd.size :=
        rd.asSpan_le_size r (rootSize_pos msg) hnarrow.1
      refine (copyArray_grows (f := stored msg) old.1 msg.default _
        (weight msg * rd.size ^ degree msg) fun i item => ?_).bind fun items hitems => ?_
      · refine (rd.loadRef_safe href).bind fun r _ => ?_
        split
        · rename_i e he
          have hroot : rd.Holds e (rootSize msg) := Reader.elemAt_holds hnarrow.1 he
          exact ihmsg item hnarrow.2.1 (hroot.mono (layoutEnd_le_rootSize msg))
        · exact .pure (Nat.le_add_right _ _)
      refine (ih old.2 hnarrow.2.2 h).bind fun vs hvs => .pure ?_
      have hgain := arrayGain_le size msg hcount hpos
      have hmax := mul_pow_add_mul_pow_le hpos (weight (.nestedArray [] size msg .nil)) (weight rest)
        (degree (.nestedArray [] size msg .nil)) (degree rest)
      have hweight : weight (.nestedArray name size msg rest)
          = weight (.nestedArray [] size msg .nil) + weight rest := by
        cases size <;> rfl
      have hdegree : degree (.nestedArray name size msg rest)
          = max (degree (.nestedArray [] size msg .nil)) (degree rest) := by
        cases size <;> simp [degree]
      rw [hweight, hdegree]
      simp only [stored]
      omega

end

/-- **What `copy_to` stores.**  For a message whose records are below 4 GiB and a buffer that can be
bound, `copy_to` comes to an end, and the message gains at most `weight S` times the size of the
segment to the power `degree S`. -/
theorem copyTo_stores {S : Schema} (hnarrow : Narrow S) {seg : List UInt8} {rd : Reader}
    (h : View.bind S seg = some rd) (old : S.Value) :
    Returns (copyTo rd S segHeaderSize 0 old) fun v =>
      stored S v ≤ stored S old + weight S * rd.size ^ degree S := by
  obtain ⟨-, -, hroot⟩ := View.bind_spec h
  rw [u32_of_lt hnarrow.1] at hroot
  have hend := layoutEnd_le_rootSize S
  have hpos : 0 < rd.size := by
    simp only [segHeaderSize] at hroot
    omega
  have hholds : rd.Holds segHeaderSize (layoutEnd S 0) := by
    unfold Reader.Holds
    omega
  exact copyTo_grows hpos S old hnarrow.2 hholds

/-- The sample has one element, whose name is behind the end. -/
theorem copyTo_stores_sample : ∃ rd, View.bind sampleSchema sampleSegment = some rd ∧
    Returns (copyTo rd sampleSchema segHeaderSize 0 sampleSchema.default) fun v =>
      stored sampleSchema v ≤ stored sampleSchema sampleSchema.default
        + weight sampleSchema * rd.size ^ degree sampleSchema := by
  have hbind : View.bind sampleSchema sampleSegment = some { seg := sampleSegment, size := 56 } := by
    decide +kernel
  have hnarrow : Narrow sampleSchema := by
    refine ⟨by decide, ?_⟩
    exact ⟨by decide, trivial, trivial⟩
  exact ⟨_, hbind, copyTo_stores hnarrow hbind _⟩

/-! ## Strings that share their text -/

/-- A message that is an array of strings. -/
def tableSchema : Schema := .field [97] (.strings none) .nil

/-- A string that is all of the segment behind the header. -/
def tableEntry (n : ℕ) : List UInt8 := le32 segHeaderSize ++ le32 (8 + n * 8)

/-- The root and a table of `n` such strings. -/
def tableText (n : ℕ) : List UInt8 :=
  le32 40 ++ le32 n ++ (List.replicate n (tableEntry n)).flatten

def tableSegment (n : ℕ) : List UInt8 := headerBytes tableSchema (40 + n * 8) 0 ++ tableText n

/-- The message that it stands for. -/
def tableValue (n : ℕ) : tableSchema.Value :=
  (⟨List.replicate n (tableText n), fun _ h => nomatch h⟩, ())

theorem length_tableText (n : ℕ) : (tableText n).length = 8 + n * 8 := by
  have hentry : (tableEntry n).length = 8 := rfl
  simp [tableText, hentry, le32]
  omega

theorem length_tableSegment (n : ℕ) : (tableSegment n).length = 40 + n * 8 := by
  rw [tableSegment, List.length_append, length_tableText, length_headerBytes, segHeaderSize]
  omega

/-- What stands behind a part of known length. -/
theorem slice_append {pos len : ℕ} {front part back : List UInt8} (hpos : front.length = pos)
    (hlen : part.length = len) : slice pos len (front ++ (part ++ back)) = part := by
  rw [slice, List.drop_left' hpos, List.take_left' hlen]

theorem slice_text (n : ℕ) : slice segHeaderSize (8 + n * 8) (tableSegment n) = tableText n := by
  have h : slice segHeaderSize (8 + n * 8)
      (headerBytes tableSchema (40 + n * 8) 0 ++ (tableText n ++ [])) = tableText n :=
    slice_append (length_headerBytes tableSchema (40 + n * 8) 0) (length_tableText n)
  rw [List.append_nil] at h
  exact h

theorem slice_root (n : ℕ) :
    slice segHeaderSize varRefSize (tableSegment n) = le32 40 ++ le32 n :=
  slice_append (length_headerBytes tableSchema (40 + n * 8) 0) rfl

theorem slice_entry {n i : ℕ} (hi : i < n) :
    slice (40 + i * varRefSize) varRefSize (tableSegment n) = tableEntry n := by
  obtain ⟨m, rfl⟩ : ∃ m, n = i + (m + 1) := ⟨n - i - 1, by omega⟩
  set entry := tableEntry (i + (m + 1))
  have hsplit : (List.replicate (i + (m + 1)) entry).flatten
      = (List.replicate i entry).flatten ++ (entry ++ (List.replicate m entry).flatten) := by
    rw [List.replicate_add, List.flatten_append, List.replicate_succ, List.flatten_cons]
  have hfront : (headerBytes tableSchema (40 + (i + (m + 1)) * 8) 0
      ++ (le32 40 ++ le32 (i + (m + 1)) ++ (List.replicate i entry).flatten)).length
      = 40 + i * varRefSize := by
    have hentry : entry.length = 8 := rfl
    simp [length_headerBytes, le32, hentry, varRefSize, segHeaderSize]
    omega
  rw [tableSegment, tableText, hsplit, ← List.append_assoc (le32 40 ++ _), ← List.append_assoc]
  exact slice_append hfront rfl

/-- The entries share their text, and the text holds the entries. -/
theorem laid_table (n : ℕ) :
    Laid (tableSegment n) segHeaderSize (40 + n * 8) tableSchema segHeaderSize 0 (tableValue n) := by
  refine ⟨⟨40, ?_, by decide, fun _ => ?_, fun i str hi => ?_⟩, trivial⟩
  · have hlen : (tableValue n).1.1.length = n := List.length_replicate
    rw [hlen]
    exact slice_root n
  · have hlen : (tableValue n).1.1.length = n := List.length_replicate
    rw [hlen]
    exact ⟨by decide, Nat.le_refl _⟩
  · obtain ⟨hlt, rfl⟩ := List.getElem?_eq_some_iff.mp hi
    have htext : (tableValue n).1.1[i] = tableText n := List.getElem_replicate _
    have hlt' : i < n := by simpa [tableValue] using hlt
    rw [htext]
    refine ⟨segHeaderSize, ?_, by decide, fun _ => ⟨Nat.le_refl _, ?_, ?_⟩⟩
    · rw [length_tableText]
      exact slice_entry hlt'
    · rw [length_tableText, segHeaderSize]
      omega
    · rw [length_tableText]
      exact slice_text n

/-- **A table of strings that share their text.**  The segment has `40 + 8 n` bytes, the message
holds `n` strings of `8 + 8 n` bytes. -/
theorem copyTo_table {n : ℕ} (hn : 40 + n * 8 < 2 ^ 32) (old : tableSchema.Value) :
    ∃ rd, View.bind tableSchema (tableSegment n) = some rd ∧ rd.size = 40 + n * 8 ∧
      copyTo rd tableSchema segHeaderSize 0 old = .ok (tableValue n) ∧
        stored tableSchema (tableValue n) = n * (9 + n * 8) := by
  have hheader : (tableSegment n).take segHeaderSize = headerBytes tableSchema (40 + n * 8) 0 :=
    List.take_left' (length_headerBytes _ _ _)
  have hbind := View.bind_eq hheader hn
    (by simp [segHeaderSize, rootSize, recordSize, tableSchema, layoutEnd, alignTo, memberAlign,
      memberSize, rootAlign, varRefAlign, varRefSize])
    (Nat.le_of_eq (length_tableSegment n).symm)
  refine ⟨_, hbind, rfl, ?_, ?_⟩
  · have hcovers : Reader.Covers { seg := tableSegment n, size := 40 + n * 8 } segHeaderSize
        (40 + n * 8) := ⟨by decide, Nat.le_refl _, hn⟩
    refine copyTo_laid tableSchema hcovers (laid_table n) ?_ old
    simp [segHeaderSize, tableSchema, layoutEnd, alignTo, memberAlign, memberSize, varRefAlign,
      varRefSize]
  · have helem : 1 + (tableText n).length = 9 + n * 8 := by
      rw [length_tableText]
      omega
    change sizes List.length (List.replicate n (tableText n)) + 0 = _
    rw [sizes_replicate, helem, Nat.add_zero]

/-- No constant will do for the table of strings: at 2 GiB the factor is above `2 ^ 27`.  And a
record of 4 GiB is not read in bounds. -/
theorem not_linear :
    (¬ ∃ K ≤ 2 ^ 27, ∀ (seg : List UInt8) (rd : Reader), View.bind tableSchema seg = some rd →
      Returns (copyTo rd tableSchema segHeaderSize 0 tableSchema.default) fun v =>
        stored tableSchema v ≤ K * rd.size) ∧
    ∃ rd, View.bind wideSchema wideSegment = some rd ∧
      ∀ old, copyTo rd wideSchema segHeaderSize 0 old = .error .outOfBounds := by
  constructor
  · rintro ⟨K, hK, hall⟩
    obtain ⟨rd, hbind, hsize, hcopy, hstored⟩ := copyTo_table (n := 2 ^ 28) (by decide)
      tableSchema.default
    obtain ⟨v, hv, hle⟩ := hall _ rd hbind
    cases hcopy.symm.trans hv
    rw [hstored, hsize] at hle
    have hmul : K * (40 + 2 ^ 28 * 8) ≤ 2 ^ 27 * (40 + 2 ^ 28 * 8) := Nat.mul_le_mul_right _ hK
    omega
  · have hbind : View.bind wideSchema wideSegment = some { seg := wideSegment, size := 32 } := by
      decide +kernel
    exact ⟨_, hbind, fun old => rfl⟩

end DzIpc.Flat
