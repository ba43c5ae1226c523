import DzIpc.TopicCat.Faithful

/-!
# The echo tool on any buffer and on its own messages

* `textOf_ne_tooDeep`: messages cannot be nested in more levels than there are bytes.
* `printed_serialize`: what is printed of a serialized message.
* `echo_safe_and_faithful` puts the two halves together.
-/

namespace DzIpc.TopicCat

open Wire

/-! ## The depth of a buffer -/

/-- The computation does not fail for the depth, and leaves no more than `s`. -/
def Shallow {α : Type} (s : List UInt8) (y : Except Misfit (α × List UInt8)) : Prop :=
  match y with
  | .ok (_, rest) => rest.length ≤ s.length
  | .error e => e ≠ .tooDeep

section

variable {α β : Type} {s : List UInt8}

theorem Shallow.bind {y : Except Misfit (α × List UInt8)}
    {f : α × List UInt8 → Except Misfit (β × List UInt8)} (hy : Shallow s y)
    (hf : ∀ a rest, y = .ok (a, rest) → rest.length ≤ s.length → Shallow rest (f (a, rest))) :
    Shallow s (y >>= f) := by
  cases y with
  | error e => exact hy
  | ok res =>
      obtain ⟨a, rest⟩ := res
      have hrest := hf a rest rfl hy
      change Shallow s (f (a, rest))
      cases hnext : f (a, rest) with
      | error e =>
          rw [hnext] at hrest
          exact hrest
      | ok res =>
          rw [hnext] at hrest
          exact Nat.le_trans hrest hy

theorem shallow_pure (a : α) : Shallow s (.ok (a, s)) := Nat.le_refl _

theorem shallow_thrown : Shallow s (.error .thrown : Except Misfit (α × List UInt8)) :=
  fun h => nomatch h

theorem shallow_takeBytes (s : List UInt8) (len : ℕ) : Shallow s (takeBytes s len) := by
  unfold takeBytes
  split
  · change (s.drop len).length ≤ s.length
    rw [List.length_drop]
    omega
  · exact fun h => nomatch h

theorem shallow_takeInt32 (s : List UInt8) : Shallow s (takeInt32 s) :=
  (shallow_takeBytes s 4).bind fun _ _ _ _ => shallow_pure _

theorem shallow_takeString (s : List UInt8) : Shallow s (takeString s) :=
  (shallow_takeInt32 s).bind fun _ _ _ _ => shallow_takeBytes _ _

theorem shallow_takeItems (s : List UInt8) (width : ℕ) (count : ℤ) :
    Shallow s (takeItems s width count) := by
  unfold takeItems
  split
  · exact shallow_thrown
  · split
    · exact (shallow_takeBytes s _).bind fun _ _ _ _ => shallow_pure _
    · exact fun h => nomatch h

theorem shallow_takeStrings (count : ℕ) : ∀ s : List UInt8, Shallow s (takeStrings count s) := by
  induction count with
  | zero => exact fun s => shallow_pure _
  | succ count ih =>
      intro s
      refine (shallow_takeString s).bind fun _ rest _ _ => ?_
      exact (ih rest).bind fun _ _ _ _ => shallow_pure _

theorem shallow_plainText (floats : FloatText) (name : Text) (s : List UInt8) (t : PlainType) :
    Shallow s (plainText floats name s t) := by
  cases t with
  | bool => exact (shallow_takeBytes s 1).bind fun _ _ _ _ => shallow_pure _
  | scalar t => exact (shallow_takeBytes s _).bind fun _ _ _ _ => shallow_pure _
  | string => exact (shallow_takeString s).bind fun _ _ _ _ => shallow_pure _
  | boolArray =>
      refine (shallow_takeInt32 s).bind fun _ rest _ _ => ?_
      exact (shallow_takeItems rest _ _).bind fun _ _ _ _ => shallow_pure _
  | scalarArray t =>
      refine (shallow_takeInt32 s).bind fun _ rest _ _ => ?_
      exact (shallow_takeItems rest _ _).bind fun _ _ _ _ => shallow_pure _
  | stringArray =>
      refine (shallow_takeInt32 s).bind fun count rest _ _ => ?_
      change Shallow rest (if count < 0 then _ else _)
      split
      · exact shallow_thrown
      · exact (shallow_takeStrings _ rest).bind fun _ _ _ _ => shallow_pure _

end

theorem takeBytes_eq_ok {s bytes rest : List UInt8} {len : ℕ}
    (h : takeBytes s len = .ok (bytes, rest)) :
    bytes.length = len ∧ rest.length + len = s.length := by
  unfold takeBytes at h
  split at h
  · obtain ⟨rfl, rfl⟩ := Prod.mk.inj (Except.ok.inj h)
    rw [List.length_take, List.length_drop]
    omega
  · nomatch h

theorem takeInt32_eq_ok {s rest : List UInt8} {z : ℤ} (h : takeInt32 s = .ok (z, rest)) :
    rest.length + 4 = s.length := by
  unfold takeInt32 at h
  cases hbytes : takeBytes s 4 with
  | error e =>
      rw [hbytes] at h
      nomatch h
  | ok res =>
      rw [bind_of_ok hbytes] at h
      obtain ⟨-, rfl⟩ := Prod.mk.inj (Except.ok.inj h)
      exact (takeBytes_eq_ok hbytes).2

section

variable {textOf : List UInt8 → Except Misfit Text} {s : List UInt8}

/-- The size of a nested message stands in front of it, so the message is shorter. -/
theorem shallow_nestedText
    (hnested : ∀ nested : List UInt8, nested.length < s.length → textOf nested ≠ .error .tooDeep)
    (indent : Text) : Shallow s (nestedText textOf s indent) := by
  refine (shallow_takeInt32 s).bind fun size rest hsize _ => ?_
  have hrest := takeInt32_eq_ok hsize
  have hmessage : Shallow rest (takeMessage rest size) := by
    unfold takeMessage
    split
    · exact shallow_thrown
    · exact shallow_takeBytes _ _
  refine hmessage.bind fun nested rest' htake _ => ?_
  have hle : nested.length ≤ rest.length := by
    unfold takeMessage at htake
    split at htake
    · nomatch htake
    · have := takeBytes_eq_ok htake
      omega
  have hdeep := hnested nested (by omega)
  change Shallow rest' (textOf nested >>= _)
  cases htext : textOf nested with
  | error e =>
      rw [htext] at hdeep
      exact fun h => hdeep (congrArg Except.error h)
  | ok text => exact shallow_pure _

theorem shallow_elementsText (count : ℕ) : ∀ s : List UInt8,
    (∀ nested : List UInt8, nested.length < s.length → textOf nested ≠ .error .tooDeep) →
      Shallow s (elementsText textOf count s) := by
  induction count with
  | zero => exact fun s _ => shallow_pure _
  | succ count ih =>
      intro s hnested
      refine (shallow_nestedText hnested elementIndent).bind fun _ rest _ hle => ?_
      refine (ih rest fun nested hlt => hnested nested (by omega)).bind fun _ _ _ _ => ?_
      exact shallow_pure _

theorem shallow_fieldText (floats : FloatText)
    (hnested : ∀ nested : List UInt8, nested.length < s.length → textOf nested ≠ .error .tooDeep) :
    Shallow s (fieldText floats textOf s) := by
  refine (shallow_takeString s).bind fun name rest _ hle => ?_
  refine (shallow_takeBytes rest 1).bind fun typeByte rest' _ hle' => ?_
  have hnested' : ∀ nested : List UInt8, nested.length < rest'.length →
      textOf nested ≠ .error .tooDeep := fun nested hlt => hnested nested (by omega)
  dsimp only
  cases msgType (leNat typeByte) with
  | none => exact shallow_thrown
  | some type =>
      cases type with
      | plain t => exact shallow_plainText floats name rest' t
      | nested =>
          exact (shallow_nestedText hnested' nestedIndent).bind fun _ _ _ _ => shallow_pure _
      | nestedArray =>
          refine (shallow_takeInt32 rest').bind fun count rest'' _ hle'' => ?_
          refine (shallow_elementsText count.toNat rest'' fun nested hlt =>
            hnested' nested (by omega)).bind fun _ _ _ _ => ?_
          exact shallow_pure _

theorem fieldsText_ne_tooDeep (floats : FloatText) (buffer : List UInt8) (rounds : ℕ) :
    ∀ s : List UInt8,
      (∀ nested : List UInt8, nested.length < s.length → textOf nested ≠ .error .tooDeep) →
      fieldsText floats textOf buffer rounds s ≠ .error .tooDeep := by
  induction rounds with
  | zero =>
      intro s _ h
      cases h
  | succ rounds ih =>
      intro s hnested
      rw [fieldsText]
      split
      · intro h
        cases h
      · have hfield := shallow_fieldText floats hnested
        cases htext : fieldText floats textOf s with
        | error e =>
            rw [htext] at hfield
            exact fun h => hfield (Except.error.inj h)
        | ok res =>
            obtain ⟨text, rest⟩ := res
            rw [htext] at hfield
            have hrest := ih rest fun nested hlt => hnested nested (Nat.lt_of_lt_of_le hlt hfield)
            change (fieldsText floats textOf buffer rounds rest >>= _) ≠ _
            cases hmore : fieldsText floats textOf buffer rounds rest with
            | error e =>
                rw [hmore] at hrest
                exact hrest
            | ok more =>
                intro h
                cases h

end

/-- Messages are nested in fewer levels than the buffer has bytes. -/
theorem textOf_ne_tooDeep (floats : FloatText) (depth : ℕ) :
    ∀ buffer : List UInt8, buffer.length < depth → textOf floats depth buffer ≠ .error .tooDeep := by
  induction depth with
  | zero => exact fun buffer hlen => absurd hlen (Nat.not_lt_zero _)
  | succ depth ih =>
      intro buffer hlen
      rw [textOf]
      split
      · intro h
        cases h
      · refine fieldsText_ne_tooDeep floats buffer _ _ fun nested hnested => ih nested ?_
        rw [length_dataOf] at hnested
        have := dataLength_le buffer.length
        omega

/-! ## Both halves -/

/-- `msg_to_string` returns this text for the buffer. -/
def Prints (floats : FloatText) (buffer : List UInt8) (text : Text) : Prop :=
  ∃ allocated, msgToString floats (buffer.length + 1) buffer 0 = .ok (text, allocated)

/-- A serialized message is printed as it was. -/
theorem printed_serialize (floats : FloatText) (S : Schema) (msgId : ℕ) {v : S.Value}
    (hfits : S.Fits v) : Prints floats (S.serialize msgId v) (render floats S v) := by
  have hpages : (S.data v).length / ipcMsgMaxSize + 1 < 2 ^ 16 := by
    rw [length_data]
    exact hfits
  have htext := (fieldsRendered floats S).textOf_serialize msgId hpages (Nat.le_refl (levels S))
  have hmeets := msgToString_meets floats (levels S) (holds_serialize msgId hpages).small 0 _
    (Nat.le_refl _)
  rw [htext] at hmeets
  obtain ⟨⟨text, allocated⟩, hrun, rfl, -, -⟩ := hmeets
  exact ⟨allocated, hrun⟩

/-- What is printed of a serialized message is what the generated `deserialize` makes of it. -/
def PrintsWhatIsRead (floats : FloatText) (abi : Abi) (S : Schema) (msgId : ℕ)
    (v old : S.Value) : Prop :=
  Returns (S.deserialize abi (Region.whole (S.serialize msgId v)) old) fun out =>
    Prints floats (S.serialize msgId v) (render floats S out.value)

/-- **The echo tool.**  On the buffers whose lengths fit it is safe, with a factor for each level of
nesting; on any other it reads outside of the buffer, arrays apart whose size passes 32 bits.  A
serialized message is printed as it was, and as the generated code reads it unless a field name
reaches the end of its page. -/
theorem echo_safe_and_faithful (floats : FloatText) :
    (∀ (depth : ℕ) (buffer : List UInt8), buffer.length < 2 ^ 31 → Fits floats depth buffer →
        Safe floats (4 * textRate depth) buffer) ∧
      (∀ buffer : List UInt8, buffer.length < 2 ^ 31 →
        textOf floats (buffer.length + 1) buffer ≠ .error .overflow →
        ((∃ factor, Safe floats factor buffer) ↔ Fits floats (buffer.length + 1) buffer)) ∧
      ∀ (abi : Abi) (S : Schema) (msgId : ℕ) (v old : S.Value), S.Fits v →
        Prints floats (S.serialize msgId v) (render floats S v) ∧
          (S.NamesUncut v 0 → PrintsWhatIsRead floats abi S msgId v old) := by
  refine ⟨fun depth buffer hsmall hfits => safe_of_fits hsmall hfits, ?_, ?_⟩
  · intro buffer hsmall hsize
    constructor
    · rintro ⟨factor, hsafe⟩
      have hdeep := textOf_ne_tooDeep floats (buffer.length + 1) buffer (Nat.lt_succ_self _)
      unfold Fits
      cases htext : textOf floats (buffer.length + 1) buffer with
      | ok text => trivial
      | error e =>
          cases e with
          | cut => exact not_safe_of_cut hsmall htext factor hsafe
          | thrown => trivial
          | tooDeep => exact hdeep htext
          | overflow => exact hsize htext
    · exact fun hfits => ⟨_, safe_of_fits hsmall hfits⟩
  · intro abi S msgId v old hfits
    have hprints := printed_serialize floats S msgId hfits
    refine ⟨hprints, fun huncut => ?_⟩
    refine (roundTrip_of_namesUncut abi S msgId v old hfits huncut).mono fun out hout => ?_
    rw [hout.1]
    exact hprints

/-- The text of zero: enough for messages in which no other floating-point number stands. -/
def zeroText : FloatText :=
  { float32 := fun _ => [48]
    float64 := fun _ => [48]
    length_float32 := fun _ => by decide
    length_float64 := fun _ => by decide }

/-- A message `a` with a name `s` and a list of numbers `x`, in a message that counts them. -/
def countedSchema : Schema :=
  .field [110] (.scalar .uint16)
    (.nested [97] (.field [115] .string (.field [120] (.scalars .int16 none) .nil)) .nil)

def countedValue : countedSchema.Value :=
  (2, (([104, 105], (⟨[1, -2], fun _ h => nomatch h⟩, ())), ()))

theorem echo_safe_and_faithful_counted :
    render zeroText countedSchema countedValue
        = bytesOf "n: 2\na:\n  s: hi\n  x: [ 1, -2 ]\n".toList ∧
      Prints zeroText (countedSchema.serialize 7 countedValue)
        (render zeroText countedSchema countedValue) ∧
      PrintsWhatIsRead zeroText ⟨32, fun _ => 8⟩ countedSchema 7 countedValue
        countedSchema.default := by
  have hfits : countedSchema.Fits countedValue := by decide +kernel
  have huncut : countedSchema.NamesUncut countedValue 0 := by decide +kernel
  obtain ⟨-, -, hprints⟩ := echo_safe_and_faithful zeroText
  obtain ⟨hsame, hread⟩ := hprints ⟨32, fun _ => 8⟩ countedSchema 7 countedValue
    countedSchema.default hfits
  exact ⟨by decide +kernel, hsame, hread huncut⟩

/-- A name that is announced with 2147483647 bytes, in a buffer of 13. -/
def longName : List UInt8 := [255, 255, 255, 127, 0, 0, 0, 0, 0, 0, 0, 0, 0]

/-- Whatever the factor, and however floating-point numbers are printed: the tool reads outside. -/
theorem echo_unsafe_longName :
    ¬ ∃ (floats : FloatText) (factor : ℕ), ∀ buffer, Safe floats factor buffer := by
  rintro ⟨floats, factor, hsafe⟩
  have hname : takeString (dataOf longName) = .error .cut := by decide +kernel
  have hmore : ¬ Ended longName (dataOf longName) := by decide +kernel
  have hfield : fieldText floats (textOf floats 0) (dataOf longName) = .error .cut := by
    rw [fieldText, hname]
    rfl
  have hcut : textOf floats 1 longName = .error .cut := by
    rw [textOf, if_neg (by decide)]
    change fieldsText floats (textOf floats 0) longName (13 + 1) (dataOf longName) = _
    rw [fieldsText, if_neg hmore, hfield]
    rfl
  exact not_safe_of_cut (by decide) hcut factor (hsafe longName)

end DzIpc.TopicCat
