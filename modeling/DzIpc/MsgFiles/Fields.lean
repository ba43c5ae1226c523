import DzIpc.MsgFiles.Names

/-!
# One field, read twice

What the generated class writes for a field (`FieldInfo.written`) beside what the publisher makes
of the same type and name (`Publisher.field`).

* `written_eq_field`: they agree on a type that has no fixed size and no primitive name that is
  also the name of a file.
* `plain_of_written_eq`: they agree on no other.
-/

namespace DzIpc.MsgFiles

open Generator

variable {registry : Registry} {files : List MsgFile} {currentBaseName fieldType fieldName : Text}
  {parsed : ParsedType} {info : FieldInfo}

/-! ## The tables -/

theorem primitiveTypes_keys : Publisher.primitiveTypes.map Prod.fst = typeMapping := by
  decide

/-- The tables of the two sides agree on every primitive type. -/
theorem lookup_primitiveTypes :
    ∀ base ∈ typeMapping, (Publisher.primitiveTypes.lookup base).isSome = true ∧
      typeIndex.lookup base = (Publisher.primitiveTypes.lookup base).map Prod.fst ∧
      typeIndex.lookup (base ++ "[]".toList) =
        (Publisher.primitiveTypes.lookup base).map Prod.snd := by
  decide

theorem lookup_primitiveTypes_none {base : Text} (h : base ∉ typeMapping) :
    Publisher.primitiveTypes.lookup base = none := by
  rw [List.lookup_eq_none_iff]
  intro e he
  rw [bne_iff_ne]
  rintro rfl
  apply h
  rw [← primitiveTypes_keys]
  exact List.mem_map_of_mem he

theorem typeIndex_lt {key : Text} {n : ℕ} (h : typeIndex.lookup key = some n) : n < 25 := by
  obtain ⟨l₁, l₂, heq, -⟩ := List.lookup_eq_some_iff.mp h
  have hall : ∀ e ∈ typeIndex, e.2 < 25 := by decide
  exact hall (key, n) (by rw [heq]; simp)

/-! ## Array types -/

theorem arrayBase_append {base : Text} (h : base ≠ []) :
    Publisher.arrayBase (base ++ "[]".toList) = some base := by
  have hrev : (base ++ "[]".toList).reverse = ']' :: '[' :: base.reverse := by
    rw [List.reverse_append]
    rfl
  cases hb : base.reverse with
  | nil => exact absurd (List.reverse_eq_nil_iff.mp hb) h
  | cons c cs =>
    rw [Publisher.arrayBase, hrev, hb]
    simp only [Option.some.injEq]
    rw [← hb, List.reverse_reverse]

theorem arrayBase_none (h : ∀ base, fieldType ≠ base ++ "[]".toList) :
    Publisher.arrayBase fieldType = none := by
  rw [Publisher.arrayBase]
  split
  · next c cs hrev =>
    have heq := congrArg List.reverse hrev
    rw [List.reverse_reverse, List.reverse_cons, List.reverse_cons, List.append_assoc] at heq
    exact absurd heq (h _)
  · rfl

/-- A type without a fixed size is an array or not. -/
theorem parseFieldType_plain (hfixed : fixedArrayMatch fieldType = none) :
    (∃ base, fieldType = base ++ "[]".toList ∧
      parseFieldType fieldType = .ok ⟨base, true, false, none⟩) ∨
    ((∀ base, fieldType ≠ base ++ "[]".toList) ∧
      parseFieldType fieldType = .ok ⟨fieldType, false, false, none⟩) := by
  rw [parseFieldType, hfixed]
  simp only
  split
  · next base hrev =>
    refine .inl ⟨base.reverse, ?_, rfl⟩
    have heq := congrArg List.reverse hrev
    rwa [List.reverse_reverse, List.reverse_cons, List.reverse_cons, List.append_assoc] at heq
  · next hrev =>
    refine .inr ⟨?_, rfl⟩
    rintro base rfl
    exact hrev base.reverse (by rw [List.reverse_append]; rfl)

/-- What stands for a primitive type or its array is parsed as that. -/
theorem parseFieldType_primitive {prim : Text} (hprim : prim ∈ typeMapping)
    (hform : fieldType = prim ∨ fieldType = prim ++ "[]".toList)
    (hfixed : fixedArrayMatch fieldType = none) :
    ∃ isArray, parseFieldType fieldType = .ok ⟨prim, isArray, false, none⟩ := by
  have hlast : ∀ t ∈ typeMapping, t.reverse.head? ≠ some ']' := by decide
  obtain ⟨base, rfl, hparse⟩ | ⟨hscalar, hparse⟩ := parseFieldType_plain hfixed
  · rcases hform with rfl | hform
    · exact absurd (by rw [List.reverse_append]; rfl) (hlast _ hprim)
    · obtain rfl := List.append_cancel_right hform
      exact ⟨true, hparse⟩
  · rcases hform with rfl | hform
    · exact ⟨false, hparse⟩
    · exact absurd hform (hscalar prim)

/-- A type with a fixed size is an array to the generator; the publisher takes all of it for the
name of a class. -/
theorem fixedArray {base digits : Text} (hfixed : fixedArrayMatch fieldType = some (base, digits)) :
    Publisher.arrayBase fieldType = none ∧ fieldType ∉ typeMapping := by
  rw [fixedArrayMatch] at hfixed
  split at hfixed
  · next cs hrev =>
    split at hfixed
    · next hdrop =>
      split_ifs at hfixed with hempty
      rw [not_or] at hempty
      obtain ⟨d, ds, hds⟩ := List.exists_cons_of_ne_nil hempty.1
      have hd : d.isDigit = true :=
        List.mem_takeWhile_imp (p := Char.isDigit) (l := cs) (by rw [hds]; exact List.mem_cons_self)
      have hcs : cs = d :: (ds ++ cs.dropWhile Char.isDigit) := by
        conv_lhs => rw [← List.takeWhile_append_dropWhile (p := Char.isDigit) (l := cs), hds]
        rfl
      constructor
      · apply arrayBase_none
        rintro b rfl
        have hrev' : ']' :: '[' :: b.reverse = ']' :: cs := by
          rw [← hrev, List.reverse_append]
          rfl
        rw [hcs] at hrev'
        obtain rfl : '[' = d := (List.cons.inj (List.cons.inj hrev').2).1
        exact absurd hd (by decide)
      · intro hmem
        have hlast : ∀ t ∈ typeMapping, t.reverse.head? ≠ some ']' := by decide
        exact hlast fieldType hmem (by rw [hrev]; rfl)
    · nomatch hfixed
  · nomatch hfixed

/-! ## What the generator keeps of a field -/

/-- A field that is resolved has a primitive type, or a type that the registry has. -/
theorem resolveFieldInfo_ok
    (h : resolveFieldInfo registry currentBaseName fieldType fieldName = .ok info) :
    ∃ parsed, parseFieldType fieldType = .ok parsed ∧ info.fieldType = fieldType ∧
      info.fieldName = fieldName ∧ info.isArray = parsed.isArray ∧
      (parsed.baseType ∈ typeMapping ∧ info.nestedInfo = none ∨
        parsed.baseType ∉ typeMapping ∧ ∃ nested, registry.lookup parsed.baseType = some nested ∧
          info.nestedInfo = some nested) := by
  rw [resolveFieldInfo] at h
  cases hparse : parseFieldType fieldType with
  | error e =>
    rw [hparse] at h
    nomatch h
  | ok parsed =>
    rw [hparse] at h
    refine ⟨parsed, rfl, ?_⟩
    change (if parsed.baseType ∈ typeMapping then _ else _) = _ at h
    split_ifs at h with hprim
    · obtain rfl := Except.ok.inj h
      exact ⟨rfl, rfl, rfl, .inl ⟨hprim, rfl⟩⟩
    · cases hlookup : registry.lookup parsed.baseType with
      | none =>
        rw [hlookup] at h
        nomatch h
      | some nested =>
        simp only [hlookup] at h
        split_ifs at h with hrec
        · nomatch h
        · obtain rfl := Except.ok.inj h
          exact ⟨rfl, rfl, rfl, .inr ⟨hprim, nested, rfl, rfl⟩⟩

theorem getTypeIndex_eq (hparse : parseFieldType fieldType = .ok parsed) :
    getTypeIndex registry fieldType =
      if (registry.lookup parsed.baseType).isSome then
        .ok (if parsed.isArray then nestedArrayTypeIndex else nestedTypeIndex)
      else match typeIndex.lookup
          (if parsed.isArray then parsed.baseType ++ "[]".toList else parsed.baseType) with
        | some n => .ok n
        | none => .error ("Unsupported type index: ".toList ++ fieldType) := by
  rw [getTypeIndex, hparse]
  rfl

/-- A name of a primitive type, or of its array, is no name of a file. -/
def Unshadowed (registry : Registry) (fieldType : Text) : Prop :=
  ∀ prim ∈ typeMapping, fieldType = prim ∨ fieldType = prim ++ "[]".toList →
    registry.lookup prim = none

/-! ## What the publisher makes of it -/

theorem field_primitive {base : Text} {scalar array : ℕ}
    (hbase : (Publisher.arrayBase fieldType).getD fieldType = base)
    (hlookup : Publisher.primitiveTypes.lookup base = some (scalar, array)) :
    Publisher.field fieldType fieldName =
      ⟨fieldName, if (Publisher.arrayBase fieldType).isSome then array else scalar, []⟩ := by
  rw [Publisher.field, Publisher.msgFieldTypeByte]
  simp only [hbase, hlookup]
  rfl

theorem field_nested (fieldName : Text) {base : Text}
    (hbase : (Publisher.arrayBase fieldType).getD fieldType = base)
    (hlookup : Publisher.primitiveTypes.lookup base = none) :
    Publisher.field fieldType fieldName =
      ⟨fieldName, if (Publisher.arrayBase fieldType).isSome then Publisher.ftNestedArray
        else Publisher.ftNested, Publisher.snakeToPascal base⟩ := by
  rw [Publisher.field, Publisher.msgFieldTypeByte]
  simp only [hbase, hlookup]
  rfl

/-! ## Side by side -/

section Agree

variable (hreg : ∀ key nested, registry.lookup key = some nested → Registered files key nested)
include hreg

/-- Both sides take the same base out of a type without a fixed size. -/
theorem plain_base (h : resolveFieldInfo registry currentBaseName fieldType fieldName = .ok info)
    (hfixed : fixedArrayMatch fieldType = none) :
    ∃ base isArray, parseFieldType fieldType = .ok ⟨base, isArray, false, none⟩ ∧
      (Publisher.arrayBase fieldType).isSome = isArray ∧
      (Publisher.arrayBase fieldType).getD fieldType = base ∧
      (fieldType = base ∨ fieldType = base ++ "[]".toList) := by
  obtain ⟨parsed, hparse, -, -, -, hbase⟩ := resolveFieldInfo_ok h
  obtain ⟨base, htype, hplain⟩ | ⟨hscalar, hplain⟩ := parseFieldType_plain hfixed
  · rw [hplain] at hparse
    obtain rfl := Except.ok.inj hparse
    have hne : base ≠ [] := by
      rintro rfl
      obtain ⟨hprim, -⟩ | ⟨-, nested, hlookup, -⟩ := hbase
      · exact absurd hprim (by decide)
      · exact (hreg _ _ hlookup).key_ne_nil rfl
    have hb := arrayBase_append hne
    rw [← htype] at hb
    exact ⟨base, true, hplain, by rw [hb]; rfl, by rw [hb]; rfl, .inr htype⟩
  · have hb := arrayBase_none hscalar
    exact ⟨fieldType, false, hplain, by rw [hb]; rfl, by rw [hb]; rfl, .inl rfl⟩

omit hreg in
/-- The generator has a type byte for every field that it takes. -/
theorem written_ok (h : resolveFieldInfo registry currentBaseName fieldType fieldName = .ok info) :
    ∃ field, info.written registry = .ok field := by
  obtain ⟨parsed, hparse, htype, -, -, hbase⟩ := resolveFieldInfo_ok h
  rw [FieldInfo.written, htype, getTypeIndex_eq hparse]
  cases hlookup : registry.lookup parsed.baseType with
  | some nested => exact ⟨_, rfl⟩
  | none =>
    obtain ⟨hprim, -⟩ | ⟨-, nested, hsome, -⟩ := hbase
    · obtain ⟨hisSome, hscalar, harray⟩ := lookup_primitiveTypes _ hprim
      obtain ⟨entry, hentry⟩ := Option.isSome_iff_exists.mp hisSome
      rw [hentry] at hscalar harray
      cases parsed.isArray with
      | true =>
        simp only [if_true, harray]
        exact ⟨_, rfl⟩
      | false =>
        simp only [Bool.false_eq_true, if_false, hscalar]
        exact ⟨_, rfl⟩
    · rw [hsome] at hlookup
      nomatch hlookup

/-- **The two sides agree** on a type without a fixed size and without a name of a file in place
of a primitive one. -/
theorem written_eq_field
    (h : resolveFieldInfo registry currentBaseName fieldType fieldName = .ok info)
    (hfixed : fixedArrayMatch fieldType = none) (hshadow : Unshadowed registry fieldType) :
    info.written registry = .ok (Publisher.field fieldType fieldName) := by
  obtain ⟨base, isArray, hparse, hisArray, hbase, hform⟩ := plain_base hreg h hfixed
  obtain ⟨parsed, hparse', htype, hname, -, hresolved⟩ := resolveFieldInfo_ok h
  rw [hparse] at hparse'
  obtain rfl := Except.ok.inj hparse'
  rw [FieldInfo.written, htype, getTypeIndex_eq hparse]
  obtain ⟨hprim, hnested⟩ | ⟨hprim, nested, hlookup, hnested⟩ := hresolved
  · obtain ⟨hisSome, hscalar, harray⟩ := lookup_primitiveTypes _ hprim
    obtain ⟨⟨s, a⟩, hentry⟩ := Option.isSome_iff_exists.mp hisSome
    rw [hentry] at hscalar harray
    rw [field_primitive hbase hentry, hshadow base hprim hform, hisArray, hname, hnested]
    cases isArray with
    | true =>
      simp only [if_true, harray]
      rfl
    | false =>
      simp only [Bool.false_eq_true, if_false, hscalar]
      rfl
  · rw [field_nested _ hbase (lookup_primitiveTypes_none hprim), hlookup, hisArray, hname, hnested,
      ← (hreg _ _ hlookup).className]
    rfl

/-- **They agree on no other.** -/
theorem plain_of_written_eq
    (h : resolveFieldInfo registry currentBaseName fieldType fieldName = .ok info)
    (heq : info.written registry = .ok (Publisher.field fieldType fieldName)) :
    fixedArrayMatch fieldType = none ∧ Unshadowed registry fieldType := by
  obtain ⟨parsed, hparse, htype, hname, -, hresolved⟩ := resolveFieldInfo_ok h
  rw [FieldInfo.written, htype, getTypeIndex_eq hparse] at heq
  have hfixed : fixedArrayMatch fieldType = none := by
    by_contra hsome
    obtain ⟨⟨base, digits⟩, hmatch⟩ := Option.ne_none_iff_exists'.mp hsome
    obtain ⟨hb, hprim⟩ := fixedArray hmatch
    have hfield := field_nested fieldName (by rw [hb]; rfl)
      (lookup_primitiveTypes_none hprim)
    have harray : parsed.isArray = true := by
      rw [parseFieldType, hmatch] at hparse
      simp only at hparse
      split_ifs at hparse
      obtain rfl := Except.ok.inj hparse
      rfl
    rw [hfield, hb, harray] at heq
    cases hlookup : registry.lookup parsed.baseType with
    | some nested =>
      rw [hlookup] at heq
      have htype : nestedArrayTypeIndex = Publisher.ftNested :=
        congrArg MsgField.type (Except.ok.inj heq)
      exact absurd htype (by decide)
    | none =>
      rw [hlookup] at heq
      simp only [Option.isSome_none, Bool.false_eq_true, if_false, if_true] at heq
      cases hindex : typeIndex.lookup (parsed.baseType ++ "[]".toList) with
      | none =>
        rw [hindex] at heq
        nomatch heq
      | some n =>
        rw [hindex] at heq
        have htype : n = 25 := congrArg MsgField.type (Except.ok.inj heq)
        have := typeIndex_lt hindex
        omega
  refine ⟨hfixed, ?_⟩
  intro prim hprim hform
  obtain ⟨base, isArray, hparse', -, hbase, -⟩ := plain_base hreg h hfixed
  obtain ⟨isArray', hparse''⟩ := parseFieldType_primitive hprim hform hfixed
  rw [hparse'] at hparse''
  obtain rfl : base = prim := congrArg ParsedType.baseType (Except.ok.inj hparse'')
  rw [hparse] at hparse'
  obtain rfl := Except.ok.inj hparse'
  cases hlookup : registry.lookup base with
  | none => rfl
  | some nested =>
    obtain ⟨hisSome, hscalar, harray⟩ := lookup_primitiveTypes _ hprim
    obtain ⟨⟨s, a⟩, hentry⟩ := Option.isSome_iff_exists.mp hisSome
    rw [hentry] at hscalar harray
    rw [hlookup, field_primitive hbase hentry] at heq
    have htype : (if isArray then nestedArrayTypeIndex else nestedTypeIndex) =
        if (Publisher.arrayBase fieldType).isSome then a else s :=
      congrArg MsgField.type (Except.ok.inj heq)
    have ha := typeIndex_lt harray
    have hs := typeIndex_lt hscalar
    have hle : 25 ≤ if isArray then nestedArrayTypeIndex else nestedTypeIndex := by
      cases isArray <;> decide
    rw [htype] at hle
    split_ifs at hle <;> omega

/-- The publisher takes a field for a nested message if and only if the generator does, and then
it has the name of its class. -/
theorem field_nestedScalar
    (h : resolveFieldInfo registry currentBaseName fieldType fieldName = .ok info)
    (hfixed : fixedArrayMatch fieldType = none) :
    (info.nestedScalar = none ∧
      (Publisher.field fieldType fieldName).type ≠ Publisher.ftNested) ∨
    ∃ key nested, info.nestedScalar = some nested ∧ Registered files key nested ∧
      (Publisher.field fieldType fieldName).type = Publisher.ftNested ∧
      (Publisher.field fieldType fieldName).nestedType = nested.className := by
  obtain ⟨base, isArray, hparse, hisArray, hbase, hform⟩ := plain_base hreg h hfixed
  obtain ⟨parsed, hparse', -, -, harray, hresolved⟩ := resolveFieldInfo_ok h
  rw [hparse] at hparse'
  obtain rfl := Except.ok.inj hparse'
  rw [FieldInfo.nestedScalar, harray]
  obtain ⟨hprim, hnested⟩ | ⟨hprim, nested, hlookup, hnested⟩ := hresolved
  · left
    obtain ⟨hisSome, hscalar, hindex⟩ := lookup_primitiveTypes _ hprim
    obtain ⟨⟨s, a⟩, hentry⟩ := Option.isSome_iff_exists.mp hisSome
    rw [hentry] at hscalar hindex
    have hs := typeIndex_lt hscalar
    have ha := typeIndex_lt hindex
    rw [field_primitive hbase hentry, hnested, ite_self]
    refine ⟨rfl, ?_⟩
    rw [Publisher.ftNested]
    simp only
    split_ifs <;> omega
  · rw [field_nested _ hbase (lookup_primitiveTypes_none hprim), hisArray, hnested]
    cases isArray with
    | true => exact .inl ⟨rfl, by simp [Publisher.ftNested, Publisher.ftNestedArray]⟩
    | false =>
      have hreg' := hreg _ _ hlookup
      exact .inr ⟨base, nested, rfl, hreg', rfl, hreg'.className.symm⟩

end Agree

end DzIpc.MsgFiles
