import DzIpc.Publish.Leaves
import DzIpc.Wire.GenericFramed
import DzIpc.Wire.GenericSafety

/-!
# Overrides are all or nothing

A spec is refused before anything is stored, so an error leaves the message alone.  A spec that is
accepted changes the leaf and nothing else, if the leaf is there, every message along the path
still fits its pages with the new value, and no unsigned value is written as a negative number.

## Strategy

* `OnlyLeaf` compares two field lists along a path, down through what `get_nested` reads.
* `Editable` says which messages can be edited, with the size that each gets.
* `nestedFields_blob` is one round trip; `applyOverrideRecursive_editable` is the step at one
  level and, by induction on the path, the whole walk.
* `editable_of_returns` is the other direction: a walk that comes back has been possible.
-/

namespace DzIpc.Publish

open Wire Wire.GenericMessage

/-! ## The field that a path addresses -/

/-- The field that the schema has at the end of a path. -/
def addressed (registry : Registry) : List (List UInt8) → MsgSchema → List UInt8 → Option MsgField
  | [], schema, head => schema.findField head
  | next :: rest, schema, head =>
      (schema.findField head).bind fun field =>
        if field.type = nestedTypeIndex then
          (registry field.nestedType).bind fun nested => addressed registry rest nested next
        else none

/-- An override that the schema does not refuse: there is such a field, of the declared type if
there is one, and the text is a value of it. -/
structure Accepts (registry : Registry) (fl : Floats) (ov : FieldOverride)
    (rest : List (List UInt8)) (schema : MsgSchema) (head : List UInt8) (field : MsgField)
    (data : List UInt8) : Prop where
  addressed : addressed registry rest schema head = some field
  declared : ov.declaredType = [] ∨ ov.declaredType = fieldTypeName field.type
  value : leafData fl field ov.value = .ok data

/-- The second field list is the first one with another leaf at the end of the path. -/
inductive OnlyLeaf (leaf : FieldEntry) :
    List (List UInt8) → List UInt8 → List FieldEntry → List FieldEntry → Prop
  | here {head : List UInt8} {fields fields' : List FieldEntry} {i : ℕ}
      (hi : findField fields head = some i) (hset : fields' = fields.set i leaf) :
      OnlyLeaf leaf [] head fields fields'
  | nested {head next : List UInt8} {rest : List (List UInt8)} {fields fields' : List FieldEntry}
      {i : ℕ} {old data : List UInt8} {child child' : List FieldEntry}
      (hi : findField fields head = some i)
      (hold : fields[i]? = some ⟨head, byte nestedTypeIndex, old⟩)
      (hset : fields' = fields.set i ⟨head, byte nestedTypeIndex, data⟩)
      (hchild : nestedFields old = .ok (some child))
      (hchild' : nestedFields data = .ok (some child'))
      (hnested : OnlyLeaf leaf rest next child child') :
      OnlyLeaf leaf (next :: rest) head fields fields'

/-- The fields along the path are there, those before the last are nested messages, and these
still fit their pages when the leaf has `n` bytes.  The last number is the size that the message
itself then has. -/
inductive Editable (n : ℕ) : List (List UInt8) → List UInt8 → List FieldEntry → ℕ → Prop
  | here {head : List UInt8} {fields : List FieldEntry} {i k : ℕ} {old : FieldEntry}
      (hi : findField fields head = some i) (hold : fields[i]? = some old)
      (hk : k + old.data.length = dataSize fields + n) : Editable n [] head fields k
  | nested {head next : List UInt8} {rest : List (List UInt8)} {fields : List FieldEntry}
      {i k size : ℕ} {old : List UInt8} {child : List FieldEntry}
      (hi : findField fields head = some i)
      (hold : fields[i]? = some ⟨head, byte nestedTypeIndex, old⟩)
      (hchild : nestedFields old = .ok (some child))
      (hnested : Editable n rest next child size)
      (hfits : size / ipcMsgMaxSize + 1 < 2 ^ 16)
      (hk : k + old.length = dataSize fields + (4 + (position size + tailMsgSize))) :
      Editable n (next :: rest) head fields k

/-- The walk down the path comes back: a nested message that has to be built first fits its
pages. -/
def Descends (registry : Registry) (fresh : ℕ → UInt8) :
    List (List UInt8) → GenericMessage → MsgSchema → List UInt8 → Prop
  | [], _, _, _ => True
  | next :: rest, msg, schema, head =>
      ∀ field nested, schema.findField head = some field → field.type = nestedTypeIndex →
        registry field.nestedType = some nested →
          Returns (childOf registry fresh msg head nested) fun child =>
            Descends registry fresh rest child nested next

/-- An override is all or nothing. -/
def AllOrNothing (registry : Registry) (fl : Floats) (fresh : ℕ → UInt8) (msg : GenericMessage)
    (schema : MsgSchema) (spec : List UInt8) : Prop :=
  Returns (applySpec registry fl fresh msg schema spec) fun res =>
    match res.2 with
    | some _ => res.1 = msg
    | none => ∃ ov field data, parseOverrideSpec spec = .ok ov ∧
        addressed registry (names ov.path).2 schema (names ov.path).1 = some field ∧
        OnlyLeaf ⟨field.name, byte field.type, data⟩ (names ov.path).2 (names ov.path).1 msg.fields
          res.1.fields ∧
        Holds field.type ov.value data

/-- The condition: the walk comes back, and if the override is not refused, the text is a fitting
one and the message can be edited. -/
def Sound (registry : Registry) (fl : Floats) (fresh : ℕ → UInt8) (msg : GenericMessage)
    (schema : MsgSchema) (spec : List UInt8) : Prop :=
  ∀ ov, parseOverrideSpec spec = .ok ov →
    Descends registry fresh (names ov.path).2 msg schema (names ov.path).1 ∧
      ∀ field data, Accepts registry fl ov (names ov.path).2 schema (names ov.path).1 field data →
        Fitting field.type ov.value ∧
          ∃ k, Editable (leafSize field.type ov.value) (names ov.path).2 (names ov.path).1
            msg.fields k

/-! ## Fields by name -/

section

variable {fields : List FieldEntry} {name : List UInt8} {i : ℕ}

theorem getElem?_of_findField (h : findField fields name = some i) :
    ∃ old, fields[i]? = some old ∧ old.name = name ∧
      (fields.find? fun f => f.name = name) = some old := by
  obtain ⟨hlt, hname, hbefore⟩ := List.findIdx?_eq_some_iff_getElem.mp h
  refine ⟨fields[i], List.getElem?_eq_getElem hlt, by simpa using hname, ?_⟩
  refine List.find?_eq_some_iff_getElem.mpr ⟨hname, i, hlt, rfl, fun j hj => ?_⟩
  simpa using hbefore j hj

theorem setField_of_findField {m : GenericMessage} {f : FieldEntry}
    (h : findField m.fields f.name = some i) : (m.setField f).fields = m.fields.set i f := by
  unfold setField
  rw [h]

/-- A field is exchanged, and with it its part of the size. -/
theorem dataSize_set {old f : FieldEntry} (h : fields[i]? = some old) :
    dataSize (fields.set i f) + old.size = dataSize fields + f.size := by
  obtain ⟨hlt, rfl⟩ := List.getElem?_eq_some_iff.mp h
  have hsplit : fields = fields.take i ++ fields[i] :: fields.drop (i + 1) := by
    rw [List.getElem_cons_drop, List.take_append_drop]
  unfold dataSize
  rw [List.set_eq_take_append_cons_drop, if_pos hlt]
  conv_rhs => rw [hsplit]
  simp only [List.map_append, List.map_cons, List.sum_append, List.sum_cons]
  omega

theorem data_le_dataSize {old : FieldEntry} (h : fields[i]? = some old) :
    old.data.length ≤ dataSize fields := by
  have hset := dataSize_set (f := ⟨old.name, old.type, []⟩) h
  simp only [FieldEntry.size, List.length_nil] at hset
  omega

end

/-! ## One nested message -/

/-- What `get_nested` gives can be written again. -/
theorem nestedFields_framed {data : List UInt8} {fields : List FieldEntry}
    (h : nestedFields data = .ok (some fields)) : ∀ f ∈ fields, Framed f := by
  unfold nestedFields at h
  dsimp only at h
  split at h
  · nomatch h
  · split at h
    · nomatch h
    · obtain ⟨res, hres, hfields⟩ : ∃ res, deserialize (Region.whole
          ((data.drop 4).take (i32 (leNat (data.take 4))).toNat)) = .ok res ∧
            res.map Prod.fst = some fields := by
        cases hres : deserialize (Region.whole
            ((data.drop 4).take (i32 (leNat (data.take 4))).toNat)) with
        | error e =>
            rw [hres] at h
            nomatch h
        | ok res =>
            rw [hres] at h
            exact ⟨res, rfl, Except.ok.inj h⟩
      obtain ⟨out, rfl, rfl⟩ := Option.map_eq_some_iff.mp hfields
      exact (deserialize_framed _).elim hres out rfl

/-- The value bytes of a message that fits are read as its fields. -/
theorem nestedFields_blob {m : GenericMessage} (fresh : ℕ → UInt8) (hne : m.fields ≠ [])
    (hframed : ∀ f ∈ m.fields, Framed f) (hfits : m.Fits) :
    ∃ buf, m.serialize fresh = .ok buf ∧
      buf.length = position (dataSize m.fields) + tailMsgSize ∧
        nestedFields (blob buf) = .ok (some m.fields) := by
  have hflat := flatten_pieces m.fields
  have hfits' : (m.fields.flatMap FieldEntry.pieces).flatten.length / ipcMsgMaxSize + 1 < 2 ^ 16 := by
    rwa [hflat, ← dataSize_eq]
  have hlen := length_writeMessage m.msgId _ hfits'
  refine ⟨_, serialize_eq fresh hne hfits, by rw [hlen, hflat, dataSize_eq], ?_⟩
  have hread : Returns (deserialize (Region.whole (writeMessage m.msgId
      (m.fields.flatMap FieldEntry.pieces).flatten.length
        (m.fields.flatMap FieldEntry.pieces)))) fun res => ∃ c, res = some (m.fields, c) :=
    deserialize_reading hframed hflat hfits'
  obtain ⟨res, hres, c, rfl⟩ := hread
  generalize writeMessage m.msgId (m.fields.flatMap FieldEntry.pieces).flatten.length
    (m.fields.flatMap FieldEntry.pieces) = buf at hlen hres ⊢
  have hsmall : buf.length < 2 ^ 31 := by
    rw [hlen, position_eq]
    simp only [ipcMsgMaxSize, tailMsgSize] at *
    omega
  have hsize : leNat ((blob buf).take 4) = buf.length := by
    rw [blob, le32, List.take_left' (length_leBytes 4 _), leNat_leBytes]
    exact Nat.mod_eq_of_lt (by omega)
  have hdata : (blob buf).drop 4 = buf := List.drop_left' (length_leBytes 4 _)
  unfold nestedFields
  dsimp only
  rw [hsize, i32_of_lt hsmall, hdata, length_blob, if_neg (by omega),
    if_neg (by rw [Int.toNat_natCast]; omega), Int.toNat_natCast, List.take_length, hres]
  rfl

/-- A message that can be serialized fits its pages. -/
theorem fits_of_setNested {m val m' : GenericMessage} {fresh : ℕ → UInt8} {name : List UInt8}
    (h : m.setNested fresh name val = .ok m') : val.Fits := by
  by_contra hfits
  unfold setNested at h
  rw [serialize_of_not_fits fresh hfits] at h
  nomatch h

section

variable {registry : Registry} {fl : Floats} {fresh : ℕ → UInt8} {ov : FieldOverride}

theorem childOf_eq {msg : GenericMessage} {head old : List UInt8} {schema : MsgSchema}
    {child : List FieldEntry} {i : ℕ} (hi : findField msg.fields head = some i)
    (hold : msg.fields[i]? = some ⟨head, byte nestedTypeIndex, old⟩)
    (hchild : nestedFields old = .ok (some child)) :
    childOf registry fresh msg head schema = .ok ⟨child, 0⟩ := by
  obtain ⟨f, hf, -, hfind⟩ := getElem?_of_findField hi
  cases hf.symm.trans hold
  unfold childOf getNested
  rw [hfind]
  dsimp only
  rw [hchild]
  rfl

/-! ## The walk -/

/-- Below a nested message the walk goes on in it, and stores it if nothing has been refused. -/
theorem applyOverrideRecursive_below {schema nested : MsgSchema} {head next : List UInt8}
    {rest : List (List UInt8)} {msg : GenericMessage} {field : MsgField}
    (hfield : schema.findField head = some field) (htype : field.type = nestedTypeIndex)
    (hnested : registry field.nestedType = some nested) :
    applyOverrideRecursive registry fl fresh ov (next :: rest) msg schema head = (do
      let child ← childOf registry fresh msg head nested
      let (child, err) ← applyOverrideRecursive registry fl fresh ov rest child nested next
      match err with
      | some err => return (msg, some err)
      | none => return (← msg.setNested fresh head child, none)) := by
  conv_lhs => unfold applyOverrideRecursive
  rw [hfield]
  dsimp only
  rewrite [if_neg (not_not_intro htype), hnested]
  rfl

/-- A path goes on below a nested message that has a schema. -/
theorem addressed_cons {schema : MsgSchema} {head next : List UInt8} {rest : List (List UInt8)}
    {leaf : MsgField} (h : addressed registry (next :: rest) schema head = some leaf) :
    ∃ field nested, schema.findField head = some field ∧ field.type = nestedTypeIndex ∧
      registry field.nestedType = some nested ∧ addressed registry rest nested next = some leaf := by
  unfold addressed at h
  obtain ⟨field, hfield, h⟩ := Option.bind_eq_some_iff.mp h
  split at h
  · rename_i htype
    obtain ⟨nested, hnested, h⟩ := Option.bind_eq_some_iff.mp h
    exact ⟨field, nested, hfield, htype, hnested, h⟩
  · nomatch h

theorem name_of_findField {schema : MsgSchema} {head : List UInt8} {field : MsgField}
    (h : schema.findField head = some field) : field.name = head := by
  simpa using List.find?_some h

/-- At the end of the path the leaf is set. -/
theorem applyOverrideRecursive_leaf {schema : MsgSchema} {head : List UInt8}
    {msg : GenericMessage} {field : MsgField} {data : List UInt8}
    (h : Accepts registry fl ov [] schema head field data) :
    applyOverrideRecursive registry fl fresh ov [] msg schema head
      = .ok (msg.setField ⟨field.name, byte field.type, data⟩, none) := by
  obtain ⟨hfield, hdeclared, hvalue⟩ := h
  have hdeclared' : ¬ (ov.declaredType ≠ [] ∧ ov.declaredType ≠ fieldTypeName field.type) := by
    rintro ⟨hne, hother⟩
    exact hdeclared.elim hne hother
  unfold addressed at hfield
  unfold applyOverrideRecursive
  rw [hfield]
  dsimp only
  rw [if_neg hdeclared', setLeaf, hvalue]
  rfl

/-- An edited message is not an empty one. -/
theorem OnlyLeaf.ne_nil {leaf : FieldEntry} {rest : List (List UInt8)} {head : List UInt8}
    {fields fields' : List FieldEntry} (h : OnlyLeaf leaf rest head fields fields') :
    fields' ≠ [] := by
  have hset : ∀ {i : ℕ} (f : FieldEntry), findField fields head = some i → fields.set i f ≠ [] := by
    intro i f hi hnil
    obtain ⟨old, hold, -⟩ := getElem?_of_findField hi
    obtain ⟨hlt, -⟩ := List.getElem?_eq_some_iff.mp hold
    have hlen := congrArg List.length hnil
    rw [List.length_set, List.length_nil] at hlen
    omega
  cases h with
  | here hi hfields => exact hfields ▸ hset leaf hi
  | nested hi _ hfields _ _ _ => exact hfields ▸ hset _ hi

variable (fresh) in
/-- **An editable message is edited**, at the leaf and nowhere else.  The induction is on the way
down; a message that is read on it is framed, and so is what it becomes. -/
theorem applyOverrideRecursive_editable {rest : List (List UInt8)} {head : List UInt8}
    {fields : List FieldEntry} {field : MsgField} {data : List UInt8} {k : ℕ}
    (hstored : ∃ l, layout (byte field.type) = some l ∧ Stored l data)
    (h : Editable data.length rest head fields k) :
    ∀ {msg : GenericMessage} {schema : MsgSchema}, msg.fields = fields →
      Accepts registry fl ov rest schema head field data →
      ∃ msg', applyOverrideRecursive registry fl fresh ov rest msg schema head = .ok (msg', none) ∧
        OnlyLeaf ⟨field.name, byte field.type, data⟩ rest head fields msg'.fields ∧
        dataSize msg'.fields = k ∧
        ((∀ f ∈ fields, Framed f) → ∀ f ∈ msg'.fields, Framed f) := by
  induction h with
  | @here head fields i k old hi hold hk =>
      rintro msg schema rfl haccepts
      obtain rfl := name_of_findField haccepts.addressed
      have hset := setField_of_findField (f := ⟨field.name, byte field.type, data⟩) hi
      obtain ⟨_, hold', hname, -⟩ := getElem?_of_findField hi
      cases hold.symm.trans hold'
      refine ⟨_, applyOverrideRecursive_leaf haccepts, .here hi hset, ?_, fun hframed => ?_⟩
      · have hsize := dataSize_set (f := ⟨field.name, byte field.type, data⟩) hold
        simp only [FieldEntry.size, hname] at hsize
        rw [hset]
        omega
      · have hnamed : field.name ≠ [] := hname ▸ (hframed old (List.mem_of_getElem? hold)).name
        exact framed_setField hframed ⟨hnamed, hstored⟩
  | @nested head next rest fields i k size old child hi hold hchild hnested hfits hk ih =>
      rintro msg schema rfl haccepts
      obtain ⟨step, nested, hstep, htype, hregistry, hrest⟩ := addressed_cons haccepts.addressed
      obtain ⟨child', hrun, honly, hsize, hframed⟩ :=
        @ih ⟨child, 0⟩ nested rfl ⟨hrest, haccepts.declared, haccepts.value⟩
      have hfits' : child'.Fits := by
        rw [GenericMessage.Fits, hsize]
        exact hfits
      obtain ⟨buf, hbuf, hlen, hread⟩ := nestedFields_blob fresh honly.ne_nil
        (hframed (nestedFields_framed hchild)) hfits'
      have hset := setField_of_findField
        (f := ⟨head, byte nestedTypeIndex, blob buf⟩) hi
      refine ⟨msg.setField ⟨head, byte nestedTypeIndex, blob buf⟩, ?_,
        .nested hi hold hset hchild hread honly, ?_, fun hall => ?_⟩
      · rw [applyOverrideRecursive_below hstep htype hregistry, childOf_eq hi hold hchild]
        change (applyOverrideRecursive registry fl fresh ov rest ⟨child, 0⟩ nested next >>= _) = _
        rw [hrun]
        change (msg.setNested fresh head child' >>= _) = _
        rw [setNested, hbuf]
        rfl
      · have hsum := dataSize_set (f := ⟨head, byte nestedTypeIndex, blob buf⟩) hold
        simp only [FieldEntry.size, length_blob] at hsum
        rw [hset]
        rw [hsize] at hlen
        omega
      · have hnamed : head ≠ [] := (hall _ (List.mem_of_getElem? hold)).name
        exact framed_setField hall ⟨hnamed, .sized, rfl, .sized buf⟩

/-! ## What else the walk does -/

/-- An error leaves the message alone. -/
theorem applyOverrideRecursive_error (rest : List (List UInt8)) : ∀ (msg : GenericMessage)
    (schema : MsgSchema) (head : List UInt8),
    Yields (applyOverrideRecursive registry fl fresh ov rest msg schema head) fun res =>
      ∀ err, res.2 = some err → res.1 = msg := by
  induction rest with
  | nil =>
      intro msg schema head
      unfold applyOverrideRecursive
      split
      · exact .pure fun _ _ => rfl
      · refine .ite (fun _ => .pure fun _ _ => rfl) (fun _ => ?_)
        unfold setLeaf
        split
        · exact .pure nofun
        · exact .pure fun _ _ => rfl
  | cons next rest ih =>
      intro msg schema head
      unfold applyOverrideRecursive
      split
      · exact .pure fun _ _ => rfl
      · refine .ite (fun _ => .pure fun _ _ => rfl) (fun _ => ?_)
        split
        · exact .pure fun _ _ => rfl
        · refine Yields.any.bind fun child _ => Yields.any.bind ?_
          rintro ⟨child', err⟩ -
          cases err with
          | some err => exact .pure fun _ _ => rfl
          | none => exact Yields.any.bind fun _ _ => .pure nofun

/-- What is accepted is not refused. -/
theorem applyOverrideRecursive_accepted {field : MsgField} {data : List UInt8}
    (rest : List (List UInt8)) : ∀ {msg : GenericMessage} {schema : MsgSchema} {head : List UInt8},
    Accepts registry fl ov rest schema head field data →
      Yields (applyOverrideRecursive registry fl fresh ov rest msg schema head) fun res =>
        res.2 = none := by
  induction rest with
  | nil =>
      intro msg schema head h
      rw [applyOverrideRecursive_leaf h]
      rfl
  | cons next rest ih =>
      intro msg schema head h
      obtain ⟨step, nested, hstep, htype, hregistry, hrest⟩ := addressed_cons h.addressed
      rw [applyOverrideRecursive_below hstep htype hregistry]
      refine Yields.any.bind fun child _ => ?_
      refine (ih ⟨hrest, h.declared, h.value⟩).bind ?_
      rintro ⟨child', err⟩ rfl
      exact Yields.any.bind fun _ _ => .pure rfl

/-- What is not accepted is refused, if the walk comes back. -/
theorem applyOverrideRecursive_refused (rest : List (List UInt8)) : ∀ {msg : GenericMessage}
    {schema : MsgSchema} {head : List UInt8}, Descends registry fresh rest msg schema head →
    (∀ field data, ¬ Accepts registry fl ov rest schema head field data) →
      Returns (applyOverrideRecursive registry fl fresh ov rest msg schema head) fun res =>
        res.2 ≠ none := by
  induction rest with
  | nil =>
      intro msg schema head _ hno
      unfold applyOverrideRecursive
      split
      · exact .pure nofun
      · rename_i field hfield
        refine .ite (fun _ => .pure nofun) (fun hdeclared => ?_)
        unfold setLeaf
        split
        · rename_i data hdata
          refine absurd ⟨hfield, ?_, hdata⟩ (hno field data)
          by_contra hother
          exact hdeclared (not_or.mp hother)
        · exact .pure nofun
  | cons next rest ih =>
      intro msg schema head hdescends hno
      unfold applyOverrideRecursive
      split
      · exact .pure nofun
      · rename_i field hfield
        refine .ite (fun _ => .pure nofun) (fun htype => ?_)
        rw [not_not] at htype
        split
        · exact .pure nofun
        · rename_i nested hnested
          refine (hdescends field nested hfield htype hnested).bind fun child hchild => ?_
          have hno' : ∀ leaf data, ¬ Accepts registry fl ov rest nested next leaf data := by
            intro leaf data h
            refine hno leaf data ⟨?_, h.declared, h.value⟩
            unfold addressed
            rw [hfield, Option.bind_some, if_pos htype, hnested, Option.bind_some, h.addressed]
          refine (ih hchild hno').bind ?_
          rintro ⟨child', err⟩ herr
          cases err with
          | none => exact absurd rfl herr
          | some err => exact .pure nofun

/-- A walk that comes back has come back at every level. -/
theorem descends_of_returns (rest : List (List UInt8)) : ∀ {msg : GenericMessage}
    {schema : MsgSchema} {head : List UInt8},
    Returns (applyOverrideRecursive registry fl fresh ov rest msg schema head) (fun _ => True) →
      Descends registry fresh rest msg schema head := by
  induction rest with
  | nil => exact fun _ => trivial
  | cons next rest ih =>
      rintro msg schema head ⟨res, hres, -⟩ field nested hfield htype hregistry
      rw [applyOverrideRecursive_below hfield htype hregistry] at hres
      cases hchild : childOf registry fresh msg head nested with
      | error e =>
          rw [hchild] at hres
          nomatch hres
      | ok child =>
          rw [hchild] at hres
          refine .ok (ih ?_)
          change (applyOverrideRecursive registry fl fresh ov rest child nested next >>= _) = _
            at hres
          cases hrun : applyOverrideRecursive registry fl fresh ov rest child nested next with
          | error e =>
              rw [hrun] at hres
              nomatch hres
          | ok out => exact .ok trivial

/-- A message that has been edited along a path is editable, if the walk that did it came back. -/
theorem editable_of_returns {field : MsgField} {data : List UInt8} {leaf : FieldEntry}
    {rest : List (List UInt8)} {head : List UInt8} {fields fields' : List FieldEntry}
    (hstored : ∃ l, layout (byte field.type) = some l ∧ Stored l data)
    (h : OnlyLeaf leaf rest head fields fields') :
    ∀ {msg : GenericMessage} {schema : MsgSchema}, msg.fields = fields →
      Accepts registry fl ov rest schema head field data →
      Returns (applyOverrideRecursive registry fl fresh ov rest msg schema head) (fun _ => True) →
        ∃ k, Editable data.length rest head fields k := by
  induction h with
  | @here head fields fields' i hi hset =>
      rintro msg schema rfl haccepts -
      obtain ⟨old, hold, -⟩ := getElem?_of_findField hi
      have hle := data_le_dataSize hold
      exact ⟨_, .here hi hold (Nat.sub_add_cancel (Nat.le_trans hle (Nat.le_add_right _ _)))⟩
  | @nested head next rest fields fields' i old new child child' hi hold hset hchild hchild'
      hnested ih =>
      rintro msg schema rfl haccepts ⟨res, hres, -⟩
      obtain ⟨step, nested, hstep, htype, hregistry, hrest⟩ := addressed_cons haccepts.addressed
      have hbelow : Accepts registry fl ov rest nested next field data :=
        ⟨hrest, haccepts.declared, haccepts.value⟩
      have hfields : (GenericMessage.mk child 0).fields = child := rfl
      rw [applyOverrideRecursive_below hstep htype hregistry, childOf_eq hi hold hchild] at hres
      change (applyOverrideRecursive registry fl fresh ov rest ⟨child, 0⟩ nested next >>= _) = _
        at hres
      obtain ⟨size, hsize⟩ : ∃ size, Editable data.length rest next child size := by
        refine @ih ⟨child, 0⟩ nested rfl hbelow ?_
        cases hrun : applyOverrideRecursive registry fl fresh ov rest ⟨child, 0⟩ nested next with
        | error e =>
            rw [hrun] at hres
            nomatch hres
        | ok out => exact .ok trivial
      obtain ⟨out, hrun, honly, hdata, -⟩ :=
        applyOverrideRecursive_editable fresh hstored hsize hfields hbelow
      rw [hrun] at hres
      change (msg.setNested fresh head out >>= _) = _ at hres
      have hfits : out.Fits := by
        cases hout : msg.setNested fresh head out with
        | error e =>
            rw [hout] at hres
            nomatch hres
        | ok m' => exact fits_of_setNested hout
      rw [GenericMessage.Fits, hdata] at hfits
      have hle := data_le_dataSize hold
      exact ⟨_, .nested hi hold hchild hsize hfits
        (Nat.sub_add_cancel (Nat.le_trans hle (Nat.le_add_right _ _)))⟩

end

/-- The leaf is determined by what it makes of the fields. -/
theorem OnlyLeaf.unique {leaf leaf' : FieldEntry} {rest : List (List UInt8)} {head : List UInt8}
    {fields fields' : List FieldEntry} (h : OnlyLeaf leaf rest head fields fields') :
    OnlyLeaf leaf' rest head fields fields' → leaf = leaf' := by
  have hinj : ∀ {fields : List FieldEntry} {name : List UInt8} {i : ℕ} {f g : FieldEntry},
      findField fields name = some i → fields.set i f = fields.set i g → f = g := by
    intro fields name i f g hi hset
    obtain ⟨old, hold, -⟩ := getElem?_of_findField hi
    obtain ⟨hlt, -⟩ := List.getElem?_eq_some_iff.mp hold
    have hget := congrArg (fun l : List FieldEntry => l[i]?) hset
    simpa [List.getElem?_set_self, hlt] using hget
  induction h with
  | @here head fields fields' i hi hset =>
      intro h'
      cases h' with
      | here hi' hset' =>
          cases hi.symm.trans hi'
          exact hinj hi (hset.symm.trans hset')
  | @nested head next rest fields fields' i old new child child' hi hold hset hchild hchild'
      hnested ih =>
      intro h'
      cases h' with
      | nested hi' hold' hset' hread hread' hbelow =>
          cases hi.symm.trans hi'
          cases hold.symm.trans hold'
          cases hchild.symm.trans hread
          cases hinj hi (hset.symm.trans hset')
          cases hchild'.symm.trans hread'
          exact ih hbelow

/-! ## Specs -/

theorem path_ne_nil {spec : List UInt8} {ov : FieldOverride}
    (h : parseOverrideSpec spec = .ok ov) : ov.path ≠ [] := by
  unfold parseOverrideSpec at h
  dsimp only at h
  split at h
  · split at h
    · nomatch h
    · rename_i hne
      cases h
      exact hne
  · split at h
    · nomatch h
    · split at h
      · nomatch h
      · split at h
        · nomatch h
        · rename_i hne
          cases h
          exact hne

section

variable (registry : Registry) (fl : Floats) (fresh : ℕ → UInt8) (msg : GenericMessage)
  (schema : MsgSchema) (spec : List UInt8)

theorem applySpec_eq {ov : FieldOverride} (hparse : parseOverrideSpec spec = .ok ov) :
    applySpec registry fl fresh msg schema spec
      = applyOverrideRecursive registry fl fresh ov (names ov.path).2 msg schema
        (names ov.path).1 := by
  unfold applySpec
  rw [hparse]
  exact if_neg (path_ne_nil hparse)

variable {registry fl fresh msg schema spec}

theorem AllOrNothing.sound (hall : AllOrNothing registry fl fresh msg schema spec) :
    Sound registry fl fresh msg schema spec := by
  intro ov hparse
  unfold AllOrNothing at hall
  rw [applySpec_eq _ _ _ _ _ _ hparse] at hall
  have hback := hall.mono fun _ _ => trivial
  refine ⟨descends_of_returns _ hback, fun field data haccepts => ?_⟩
  obtain ⟨⟨msg', err⟩, hres, hpost⟩ := hall
  obtain rfl : err = none := (applyOverrideRecursive_accepted _ haccepts).elim hres
  obtain ⟨ov', field', data', hparse', hfield', honly, hholds⟩ := hpost
  cases hparse.symm.trans hparse'
  cases haccepts.addressed.symm.trans hfield'
  have hfitting := hholds.fitting
  obtain ⟨hstored, hlen⟩ := (leafData_stored hfitting).elim haccepts.value
  rw [← hlen]
  exact ⟨hfitting, editable_of_returns hstored honly rfl haccepts hback⟩

theorem Sound.allOrNothing (hsound : Sound registry fl fresh msg schema spec) :
    AllOrNothing registry fl fresh msg schema spec := by
  unfold AllOrNothing
  cases hparse : parseOverrideSpec spec with
  | error err =>
      refine .of_eq (a := (msg, some err)) ?_ rfl
      unfold applySpec
      rw [hparse]
      rfl
  | ok ov =>
      rw [applySpec_eq _ _ _ _ _ _ hparse]
      obtain ⟨hdescends, haccepted⟩ := hsound ov hparse
      by_cases hsome : ∃ field data,
          Accepts registry fl ov (names ov.path).2 schema (names ov.path).1 field data
      · obtain ⟨field, data, haccepts⟩ := hsome
        obtain ⟨hfitting, k, heditable⟩ := haccepted field data haccepts
        obtain ⟨hstored, hlen⟩ := (leafData_stored hfitting).elim haccepts.value
        rw [← hlen] at heditable
        obtain ⟨msg', hres, honly, -⟩ :=
          applyOverrideRecursive_editable fresh hstored heditable rfl haccepts
        exact .of_eq hres ⟨ov, field, data, rfl, haccepts.addressed, honly,
          (leafData_holds hfitting).elim haccepts.value⟩
      · have hno : ∀ field data, ¬ Accepts registry fl ov (names ov.path).2 schema
            (names ov.path).1 field data :=
          fun field data h => hsome ⟨field, data, h⟩
        have hboth := (applyOverrideRecursive_refused _ hdescends hno).and_yields
          (applyOverrideRecursive_error _ msg schema _)
        refine hboth.mono ?_
        rintro ⟨msg', err⟩ ⟨herr, hsame⟩
        cases err with
        | none => exact absurd rfl herr
        | some err => exact hsame err rfl

end

/-- **An override is all or nothing exactly if its walk comes back and, where it is not refused,
its text is a fitting one and the message can be edited.** -/
theorem allOrNothing_iff (registry : Registry) (fl : Floats) (fresh : ℕ → UInt8)
    (msg : GenericMessage) (schema : MsgSchema) (spec : List UInt8) :
    AllOrNothing registry fl fresh msg schema spec ↔
      Sound registry fl fresh msg schema spec :=
  ⟨AllOrNothing.sound, Sound.allOrNothing⟩

/-- One unsigned field. -/
def counterSchema : MsgSchema := ⟨text "Counter", [⟨text "x", 9, []⟩]⟩

/-- The conversions of the library to floating point, which this schema does not use. -/
def noFloats : Floats := ⟨fun _ => none, fun _ => 0⟩

/-- A blank in front of the minus sign hides it from the check, and the largest number there is
gets stored for minus one. -/
theorem blank_hides_minus :
    Returns (buildDefaultMessage (fun _ => none) (fun _ => 0) 17 ⟨[], 0⟩ counterSchema.fields)
      fun built => built.2 = true ∧
        applySpec (fun _ => none) noFloats (fun _ => 0) built.1 counterSchema (text "x= -1")
          = .ok (⟨[⟨text "x", 9, List.replicate 8 255⟩], 0⟩, none) ∧
        ¬ AllOrNothing (fun _ => none) noFloats (fun _ => 0) built.1 counterSchema
          (text "x= -1") := by
  refine ⟨(⟨[⟨text "x", 9, List.replicate 8 0⟩], 0⟩, true), rfl, rfl, by decide +kernel, ?_⟩
  intro hall
  have haccepts : Accepts (fun _ => none) noFloats ⟨text "x", text " -1", []⟩ [] counterSchema
      (text "x") ⟨text "x", 9, []⟩ (List.replicate 8 255) :=
    ⟨rfl, .inl rfl, by decide +kernel⟩
  have hsound := hall.sound ⟨text "x", text " -1", []⟩ rfl
  have hfair : ∀ z : ℤ, Numeral.denoted (text " -1") = some z → 0 ≤ z :=
    (hsound.2 _ _ haccepts).1
  exact absurd (hfair (-1) (by decide)) (by decide)

end DzIpc.Publish
