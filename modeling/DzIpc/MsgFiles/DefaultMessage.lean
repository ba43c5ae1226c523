import DzIpc.MsgFiles.Agreement
import Mathlib.Data.List.Nodup

/-!
# Default messages

A set of `.msg` files that the generator takes, with the order in which the publisher finds them
(`MsgSet`).  A generated class reads the fields of its file, and those of the class that the
generator resolved for a nested field, and so on down a path of nested fields; `classAt` follows
such a path, with the way to find the file of a class as a parameter.  A default message has the
fields of the file that the publisher finds by the name of the class.

* `follow_buildDefaultMessage`: where a path leads in a default message.
* `schemas_agree_iff`: the publisher reads in every file what the generated class writes, and
  every default message has the fields of the generated class along every path, if and only if
  the set is `Plain`.
-/

namespace DzIpc.MsgFiles

open Generator

/-- Files that the generator takes: it registers them and parses each of them.  The publisher
meets the same files in the order `walk`. -/
structure MsgSet where
  files : List MsgFile
  walk : List MsgFile
  registry : Registry
  registered : buildMsgTypeRegistry files = .ok registry
  parsed : ∀ f ∈ files, ∃ fields, parseMsgFile registry f = .ok fields
  stems : (files.map MsgFile.stem).Nodup
  walk_perm : walk.Perm files

/-! ## Paths -/

namespace Publisher.Message

/-- The nested message at the end of a path of field names. -/
def follow (m : Message) : List Text → Option Message
  | [] => some m
  | name :: path =>
    match m.fields.find? fun e => e.name = name with
    | some ⟨_, _, .nested msg⟩ => msg.follow path
    | _ => none

/-- The names and type bytes of its fields. -/
def members (m : Message) : List (Text × ℕ) := m.fields.map fun e => (e.name, e.type)

end Publisher.Message

namespace MsgSet

variable (S : MsgSet)

/-- The members of the class of a file. -/
def classOf (f : MsgFile) : List FieldInfo := (parseMsgFile S.registry f).toOption.getD []

/-- What the generated class writes for one of its members. -/
def writes (info : FieldInfo) : MsgField :=
  (info.written S.registry).toOption.getD ⟨info.fieldName, 0, []⟩

/-- The names and type bytes that a class writes and reads. -/
def members (fields : List FieldInfo) : List (Text × ℕ) :=
  fields.map fun info => ((S.writes info).name, (S.writes info).type)

/-- The file whose header the generated class of a nested field comes from. -/
def resolved (nested : NestedTypeInfo) : Option MsgFile :=
  S.files.find? fun f => (nestedTypeInfo f nested.className).includePath = nested.includePath

/-- The file that the publisher finds for the class of a nested field. -/
def found (nested : NestedTypeInfo) : Option MsgFile :=
  Publisher.findMsgFile S.walk nested.className

/-- The class at the end of a path of names of nested fields. -/
def classAt (next : NestedTypeInfo → Option MsgFile) :
    List FieldInfo → List Text → Option (List FieldInfo)
  | fields, [] => some fields
  | fields, name :: path =>
    match (fields.find? fun info => info.fieldName = name).bind FieldInfo.nestedScalar with
    | some nested =>
      match next nested with
      | some f => classAt next (S.classOf f) path
      | none => none
    | none => none

/-- The default message of a file. -/
def defaultMessage (f : MsgFile) : Publisher.Message :=
  (Publisher.buildDefaultMessage S.walk 17 Publisher.Message.empty
    (Publisher.parseMsgFile f).fields).1

/-! ## The two sides -/

/-- The publisher reads the fields of a file, with the type bytes and class names that the
generated class writes. -/
def SameSchema (f : MsgFile) : Prop :=
  (S.classOf f).mapM (FieldInfo.written S.registry) = .ok (Publisher.parseMsgFile f).fields

/-- The default message of a file has the members of the generated class, and along every path of
nested fields those of the class there. -/
def SameMessage (f : MsgFile) : Prop :=
  ∀ path, ((S.defaultMessage f).follow path).map Publisher.Message.members =
    (S.classAt S.resolved (S.classOf f) path).map S.members

/-- What the two sides need to agree. -/
structure Plain : Prop where
  /-- Each line of each file is skipped by both, or declares a field in the plain way. -/
  lines : ∀ f ∈ S.files, ∀ line ∈ f.text.splitOn '\n', Skipped line ∨ FieldLine S.registry line
  /-- No file has a name twice. -/
  names : ∀ f ∈ S.files, ((S.classOf f).map FieldInfo.fieldName).Nodup
  /-- A chain of at most 16 nested fields leads to the same members, whether the class is resolved
  by its file or found by its name. -/
  chains : ∀ f ∈ S.files, ∀ path, path.length ≤ 16 →
    (S.classAt S.found (S.classOf f) path).map S.members =
      (S.classAt S.resolved (S.classOf f) path).map S.members
  /-- A chain of 17 ends in a class without members. -/
  depth : ∀ f ∈ S.files, ∀ path fields, path.length = 17 →
    S.classAt S.resolved (S.classOf f) path = some fields → fields = []

end MsgSet

/-! ## Setting fields -/

namespace Publisher

namespace Message

variable {m : Message} {e : Entry Message}

/-- The names of the fields. -/
def names (m : Message) : List Text := m.fields.map Entry.name

theorem set_new (h : e.name ∉ m.names) : (m.set e).fields = m.fields ++ [e] := by
  have hnone : (m.fields.findIdx? fun f => f.name = e.name) = none := by
    rw [List.findIdx?_eq_none_iff]
    intro f hf
    rw [decide_eq_false_iff_not]
    intro heq
    exact h (heq ▸ List.mem_map_of_mem hf)
  rw [set, hnone]
  rfl

theorem names_set_old (h : e.name ∈ m.names) : (m.set e).names = m.names := by
  rw [set]
  split
  · next i hidx =>
    obtain ⟨hi, hname, -⟩ := List.findIdx?_eq_some_iff_getElem.mp hidx
    rw [names, names, fields, List.map_set]
    apply List.ext_getElem (by simp)
    intro j hj hj'
    rw [List.getElem_set]
    split_ifs with hij
    · subst hij
      simpa using (of_decide_eq_true hname).symm
    · rfl
  · next hidx =>
    obtain ⟨f, hf, hname⟩ := List.mem_map.mp h
    have := List.findIdx?_eq_none_iff.mp hidx f hf
    simp [hname] at this

theorem nodup_names_set (h : m.names.Nodup) : (m.set e).names.Nodup := by
  by_cases hmem : e.name ∈ m.names
  · rwa [names_set_old hmem]
  · rw [names, set_new hmem, List.map_append, List.map_singleton]
    exact List.Nodup.append h (List.nodup_singleton _) (List.disjoint_singleton.mpr hmem)

/-- Fields of different names, set one after the other. -/
theorem foldl_set {es : List (Entry Message)} (h : (m.names ++ es.map Entry.name).Nodup) :
    (es.foldl set m).fields = m.fields ++ es := by
  induction es generalizing m with
  | nil => simp
  | cons e es ih =>
    have hnew : e.name ∉ m.names := by
      intro hmem
      exact List.disjoint_of_nodup_append h hmem List.mem_cons_self
    have hfields := set_new hnew
    have hnames : (m.set e).names = m.names ++ [e.name] := by
      rw [names, hfields, List.map_append]
      rfl
    rw [List.foldl_cons, ih, hfields, List.append_assoc]
    · rfl
    · rw [hnames, List.append_assoc]
      exact h

theorem nodup_foldl_set {es : List (Entry Message)} (h : m.names.Nodup) :
    (es.foldl set m).names.Nodup := by
  induction es generalizing m with
  | nil => exact h
  | cons e es ih => exact ih (nodup_names_set h)

end Message

/-! ## Default entries -/

/-- The field that `build_default_message` sets; a nested message is built at the depth below. -/
def defaultEntry (walk : List MsgFile) (depth : ℕ) (f : MsgField) : Entry Message :=
  ⟨f.name, f.type,
    if f.type = ftNested then
      .nested (match loadNested walk f with
        | some schema => (buildDefaultMessage walk depth Message.empty schema.fields).1
        | none => Message.empty)
    else .bytes (List.replicate (defaultSize f.type) 0)⟩

theorem buildDefaultMessage_fst (walk : List MsgFile) (depth : ℕ) (m : Message)
    (fields : List MsgField) :
    (buildDefaultMessage walk (depth + 1) m fields).1 =
      (fields.map (defaultEntry walk depth)).foldl Message.set m := by
  rw [buildDefaultMessage]
  generalize true = ok
  induction fields generalizing m ok with
  | nil => rfl
  | cons f fields ih =>
    rw [List.foldl_cons, List.map_cons, List.foldl_cons]
    simp only [defaultEntry]
    split_ifs with htype
    · cases hload : loadNested walk f with
      | none => exact ih _ _
      | some schema => exact ih _ _
    · exact ih _ _

theorem fields_buildDefaultMessage (walk : List MsgFile) (depth : ℕ) {fields : List MsgField}
    (h : (fields.map MsgField.name).Nodup) :
    (buildDefaultMessage walk (depth + 1) Message.empty fields).1.fields =
      fields.map (defaultEntry walk depth) := by
  rw [buildDefaultMessage_fst, Message.foldl_set]
  · rfl
  · rw [List.map_map]
    exact h

end Publisher

/-! ## The set -/

namespace MsgSet

variable {S : MsgSet} {f : MsgFile} {info : FieldInfo} {key : Text} {nested : NestedTypeInfo}

theorem registered_of_lookup (S : MsgSet) : ∀ key nested,
    S.registry.lookup key = some nested → Registered S.files key nested :=
  fun _ _ => lookup_buildMsgTypeRegistry S.registered

theorem parse_classOf (hf : f ∈ S.files) :
    parseMsgFile S.registry f = .ok (S.classOf f) := by
  obtain ⟨fields, hfields⟩ := S.parsed f hf
  rw [classOf, hfields]
  rfl

/-- The publisher finds a file for every class that is registered. -/
theorem exists_found (h : Registered S.files key nested) :
    ∃ g ∈ S.files, S.found nested = some g := by
  obtain ⟨f, hf, hname, rfl, -⟩ := h
  cases hfind : S.found (nestedTypeInfo f (snakeToPascal f.baseName)) with
  | some g => exact ⟨g, S.walk_perm.mem_iff.mp (List.mem_of_find?_eq_some hfind), rfl⟩
  | none =>
    have := List.find?_eq_none.mp hfind f (S.walk_perm.mem_iff.mpr hf)
    rw [snakeToPascal_eq (isNameChar_of_matchesBaseName hname)] at this
    simp [nestedTypeInfo] at this

/-- The generator has a file for every class that is registered. -/
theorem exists_resolved (h : Registered S.files key nested) :
    ∃ g ∈ S.files, S.resolved nested = some g := by
  obtain ⟨f, hf, -, rfl, -⟩ := h
  cases hfind : S.resolved (nestedTypeInfo f (snakeToPascal f.baseName)) with
  | some g => exact ⟨g, List.mem_of_find?_eq_some hfind, rfl⟩
  | none =>
    have := List.find?_eq_none.mp hfind f hf
    simp [nestedTypeInfo] at this

theorem writes_name (S : MsgSet) (info : FieldInfo) : (S.writes info).name = info.fieldName := by
  rw [writes, FieldInfo.written]
  cases getTypeIndex S.registry info.fieldType with
  | error e => rfl
  | ok n => rfl

theorem mapM_written {infos : List FieldInfo} {fields : List MsgField}
    (h : infos.mapM (FieldInfo.written S.registry) = .ok fields) :
    fields = infos.map S.writes := by
  induction infos generalizing fields with
  | nil => exact (Except.ok.inj h).symm
  | cons info infos ih =>
    rw [List.mapM_cons] at h
    cases hwritten : info.written S.registry with
    | error e =>
      rw [hwritten] at h
      nomatch h
    | ok m =>
      cases hrest : infos.mapM (FieldInfo.written S.registry) with
      | error e =>
        rw [hwritten, hrest] at h
        nomatch h
      | ok rest =>
        rw [hwritten, hrest] at h
        obtain rfl : m :: rest = fields := Except.ok.inj h
        rw [List.map_cons, ← ih hrest, writes, hwritten]
        rfl

section Lines

variable (hlines : ∀ line ∈ f.text.splitOn '\n', Skipped line ∨ FieldLine S.registry line)
  (hf : f ∈ S.files)
include hlines hf

/-- A nested field is one to both sides, with the same class. -/
theorem writes_nestedScalar (hinfo : info ∈ S.classOf f) :
    (info.nestedScalar = none ∧ (S.writes info).type ≠ Publisher.ftNested) ∨
    ∃ key nested, info.nestedScalar = some nested ∧ Registered S.files key nested ∧
      (S.writes info).type = Publisher.ftNested ∧
      (S.writes info).nestedType = nested.className := by
  obtain ⟨fieldType, fieldName, hresolve, hfixed, hshadow⟩ :=
    resolve_of_lines (parse_classOf hf) hlines info hinfo
  have hwrites : S.writes info = Publisher.field fieldType fieldName := by
    rw [writes, written_eq_field S.registered_of_lookup hresolve hfixed hshadow]
    rfl
  rw [hwrites]
  exact field_nestedScalar S.registered_of_lookup hresolve hfixed

end Lines

/-! ## Following a path -/

section Path

variable (hlines : ∀ f ∈ S.files, ∀ line ∈ f.text.splitOn '\n',
    Skipped line ∨ FieldLine S.registry line)
include hlines

theorem sameSchema_of_lines (hf : f ∈ S.files) : S.SameSchema f :=
  (lines_agree_iff S.registered_of_lookup (parse_classOf hf)).mpr (hlines f hf)

/-- The step of a path: the first field of the name, if it is a nested message. -/
theorem classAt_cons (hf : f ∈ S.files) {next : NestedTypeInfo → Option MsgFile}
    (hnext : ∀ key nested, Registered S.files key nested → ∃ g ∈ S.files, next nested = some g)
    (name : Text) :
    (((S.members (S.classOf f)).find? fun m => m.1 = name).map Prod.snd ≠ some Publisher.ftNested ∧
      ∀ path, S.classAt next (S.classOf f) (name :: path) = none) ∨
    (((S.members (S.classOf f)).find? fun m => m.1 = name).map Prod.snd = some Publisher.ftNested ∧
      ∃ g ∈ S.files, ∀ path,
        S.classAt next (S.classOf f) (name :: path) = S.classAt next (S.classOf g) path) := by
  have hfind : ((S.members (S.classOf f)).find? fun m => m.1 = name).map Prod.snd =
      ((S.classOf f).find? fun info => info.fieldName = name).map fun info =>
        (S.writes info).type := by
    rw [members, List.find?_map, Option.map_map]
    have hcomp : ((fun m : Text × ℕ => decide (m.1 = name)) ∘ fun info =>
        ((S.writes info).name, (S.writes info).type)) =
        fun info : FieldInfo => decide (info.fieldName = name) := by
      funext info
      simp [writes_name]
    rw [hcomp]
    rfl
  rw [hfind]
  simp only [classAt]
  cases hinfo : (S.classOf f).find? fun info => info.fieldName = name with
  | none => exact .inl ⟨by simp, fun path => rfl⟩
  | some info =>
    obtain ⟨hnone, htype⟩ | ⟨key, nested, hsome, hreg, htype, -⟩ :=
      writes_nestedScalar (hlines f hf) hf (List.mem_of_find?_eq_some hinfo)
    · refine .inl ⟨by simpa using htype, fun path => ?_⟩
      rw [Option.bind_some, hnone]
    · obtain ⟨g, hg, hnext⟩ := hnext key nested hreg
      refine .inr ⟨by simpa using htype, g, hg, fun path => ?_⟩
      rw [Option.bind_some, hsome]
      simp only [hnext]

/-- **Where a path leads in a default message**: to the members of the class found there, down to
the depth at which the message is built, where it is empty. -/
theorem follow_buildDefaultMessage
    (hnames : ∀ f ∈ S.files, ((S.classOf f).map FieldInfo.fieldName).Nodup)
    (depth : ℕ) (hf : f ∈ S.files) (path : List Text) :
    ((Publisher.buildDefaultMessage S.walk depth Publisher.Message.empty
      (Publisher.parseMsgFile f).fields).1.follow path).map Publisher.Message.members =
    if path.length < depth then (S.classAt S.found (S.classOf f) path).map S.members
    else if path.length = depth then (S.classAt S.found (S.classOf f) path).map fun _ => []
    else none := by
  induction depth generalizing f path with
  | zero =>
    cases path with
    | nil => rfl
    | cons name path => rfl
  | succ depth ih =>
    have hfields := mapM_written (sameSchema_of_lines hlines hf)
    have hnodup : (((S.classOf f).map S.writes).map MsgField.name).Nodup := by
      rw [List.map_map]
      convert hnames f hf using 2
      funext info
      exact S.writes_name info
    have hbuilt := Publisher.fields_buildDefaultMessage S.walk depth hnodup
    rw [hfields]
    cases path with
    | nil =>
      rw [List.length_nil, if_pos (Nat.zero_lt_succ depth), Publisher.Message.follow, classAt, Option.map_some,
        Option.map_some, Publisher.Message.members, hbuilt, List.map_map, List.map_map]
      rfl
    | cons name path =>
      have hfind : ((Publisher.buildDefaultMessage S.walk (depth + 1) Publisher.Message.empty
          ((S.classOf f).map S.writes)).1.fields.find? fun e => e.name = name) =
          ((S.classOf f).find? fun info => info.fieldName = name).map
            fun info => Publisher.defaultEntry S.walk depth (S.writes info) := by
        have hcomp : ((fun e : Publisher.Entry Publisher.Message => decide (e.name = name)) ∘
            Publisher.defaultEntry S.walk depth) ∘ S.writes =
            fun info : FieldInfo => decide (info.fieldName = name) := by
          funext info
          simp [Publisher.defaultEntry, writes_name]
        rw [hbuilt, List.find?_map, List.find?_map, Option.map_map, hcomp]
        rfl
      rw [Publisher.Message.follow, hfind, classAt]
      cases hinfo : (S.classOf f).find? fun info => info.fieldName = name with
      | none =>
        simp only [Option.map_none, Option.bind_none]
        split_ifs <;> rfl
      | some info =>
        obtain ⟨hnone, htype⟩ | ⟨key, nested, hsome, hreg, htype, hclass⟩ :=
          writes_nestedScalar (hlines f hf) hf (List.mem_of_find?_eq_some hinfo)
        · simp only [Option.map_some, Option.bind_some, hnone, Publisher.defaultEntry,
            if_neg htype]
          split_ifs <;> rfl
        · obtain ⟨g, hg, hfound⟩ := exists_found hreg
          have hload : Publisher.loadNested S.walk (S.writes info) =
              some (Publisher.parseMsgFile g) := by
            rw [Publisher.loadNested, hclass, if_neg hreg.className_ne_nil, Publisher.load]
            rw [found] at hfound
            rw [hfound]
            rfl
          simp only [Option.map_some, Option.bind_some, hsome, Publisher.defaultEntry,
            if_pos htype, hload, hfound]
          rw [ih hg path]
          simp only [List.length_cons, Nat.add_lt_add_iff_right, Nat.add_right_cancel_iff]

/-- The end of a path of nested fields: a file of the set, one step before it. -/
theorem classAt_snoc (hf : f ∈ S.files) {next : NestedTypeInfo → Option MsgFile}
    (hnext : ∀ key nested, Registered S.files key nested → ∃ g ∈ S.files, next nested = some g)
    (path tail : List Text) :
    S.classAt next (S.classOf f) path = none ∧
        S.classAt next (S.classOf f) (path ++ tail) = none ∨
      ∃ g ∈ S.files, S.classAt next (S.classOf f) path = some (S.classOf g) ∧
        S.classAt next (S.classOf f) (path ++ tail) = S.classAt next (S.classOf g) tail := by
  induction path generalizing f with
  | nil => exact .inr ⟨f, hf, rfl, rfl⟩
  | cons name path ih =>
    obtain ⟨-, hnone⟩ | ⟨-, g, hg, hstep⟩ := classAt_cons hlines hf hnext name
    · exact .inl ⟨hnone path, hnone (path ++ tail)⟩
    · rw [List.cons_append, hstep, hstep]
      exact ih hg

/-- A path leads somewhere for both ways to find files, or for none, if it does so for the path
that is one shorter, and to the same members. -/
theorem isSome_classAt_snoc (hf : f ∈ S.files) {path : List Text} (name : Text)
    (hsame : (S.classAt S.found (S.classOf f) path).map S.members =
      (S.classAt S.resolved (S.classOf f) path).map S.members) :
    (S.classAt S.found (S.classOf f) (path ++ [name])).isSome =
      (S.classAt S.resolved (S.classOf f) (path ++ [name])).isSome := by
  obtain ⟨hnone, hsnoc⟩ | ⟨g, hg, hsome, hsnoc⟩ :=
    classAt_snoc hlines hf (fun _ _ => exists_found) path [name]
  all_goals
    obtain ⟨hnone', hsnoc'⟩ | ⟨g', hg', hsome', hsnoc'⟩ :=
      classAt_snoc hlines hf (fun _ _ => exists_resolved) path [name]
  · rw [hsnoc, hsnoc']
  · rw [hnone, hsome'] at hsame
    nomatch hsame
  · rw [hsome, hnone'] at hsame
    nomatch hsame
  · rw [hsome, hsome', Option.map_some, Option.map_some, Option.some.injEq] at hsame
    rw [hsnoc, hsnoc']
    obtain ⟨hne, hnone⟩ | ⟨heq, h, -, hstep⟩ :=
      classAt_cons hlines hg (fun _ _ => exists_found) name
    all_goals
      obtain ⟨hne', hnone'⟩ | ⟨heq', h', -, hstep'⟩ :=
        classAt_cons hlines hg' (fun _ _ => exists_resolved) name
    · rw [hnone, hnone']
    · rw [hsame] at hne
      exact absurd heq' hne
    · rw [hsame] at heq
      exact absurd heq hne'
    · rw [hstep, hstep']
      rfl

end Path

/-! ## The main result -/

theorem names_of_sameMessage (hmsg : S.SameMessage f) :
    ((S.classOf f).map FieldInfo.fieldName).Nodup := by
  have hroot := hmsg []
  rw [Publisher.Message.follow, classAt, Option.map_some, Option.map_some,
    Option.some.injEq] at hroot
  have hnames : (S.defaultMessage f).names = (S.classOf f).map FieldInfo.fieldName := by
    have hfst := congrArg (List.map Prod.fst) hroot
    rw [Publisher.Message.members, members, List.map_map, List.map_map] at hfst
    rw [Publisher.Message.names]
    refine hfst.trans (List.map_congr_left fun info _ => ?_)
    exact S.writes_name info
  rw [← hnames, defaultMessage, Publisher.buildDefaultMessage_fst]
  exact Publisher.Message.nodup_foldl_set List.nodup_nil

/-- The members along all paths, if files are found by class names that lead to the same members. -/
theorem sameMessage_of_plain (h : S.Plain) (hf : f ∈ S.files) : S.SameMessage f := by
  intro path
  rw [defaultMessage, follow_buildDefaultMessage h.lines h.names 17 hf path]
  split_ifs with hlt heq
  · exact h.chains f hf path (by omega)
  · have hne : path ≠ [] := by
      rintro rfl
      nomatch heq
    obtain ⟨path, name, rfl⟩ : ∃ p a, path = p ++ [a] :=
      ⟨path.dropLast, path.getLast hne, (List.dropLast_append_getLast hne).symm⟩
    have hlen : path.length ≤ 16 := by
      rw [List.length_append, List.length_singleton] at heq
      omega
    have hsome := isSome_classAt_snoc h.lines hf name (h.chains f hf path hlen)
    cases hresolved : S.classAt S.resolved (S.classOf f) (path ++ [name]) with
    | none =>
      rw [hresolved, Option.isSome_none, Option.isSome_eq_false_iff,
        Option.isNone_iff_eq_none] at hsome
      rw [hsome]
      rfl
    | some fields =>
      rw [hresolved, Option.isSome_some, Option.isSome_iff_exists] at hsome
      obtain ⟨other, hother⟩ := hsome
      rw [hother, h.depth f hf _ fields heq hresolved]
      rfl
  · obtain ⟨path, tail, rfl, hlen⟩ : ∃ p t, path = p ++ t ∧ p.length = 17 :=
      ⟨path.take 17, path.drop 17, (List.take_append_drop 17 path).symm,
        List.length_take_of_le (by omega)⟩
    obtain ⟨-, hnone⟩ | ⟨g, hg, hsome, hsnoc⟩ :=
      classAt_snoc h.lines hf (fun _ _ => exists_resolved) path tail
    · rw [hnone]
      rfl
    · have hnil := h.depth f hf path _ hlen hsome
      rw [hsnoc, hnil]
      cases tail with
      | nil => exact absurd (by rw [List.append_nil, hlen]) heq
      | cons name tail => rfl

theorem plain_of_same (hschema : ∀ f ∈ S.files, S.SameSchema f)
    (hmsg : ∀ f ∈ S.files, S.SameMessage f) : S.Plain := by
  have hlines : ∀ f ∈ S.files, ∀ line ∈ f.text.splitOn '\n',
      Skipped line ∨ FieldLine S.registry line := fun f hf =>
    (lines_agree_iff S.registered_of_lookup (parse_classOf hf)).mp (hschema f hf)
  have hnames := fun f hf => names_of_sameMessage (hmsg f hf)
  refine ⟨hlines, hnames, ?_, ?_⟩
  · intro f hf path hlen
    have hpath := hmsg f hf path
    rwa [defaultMessage, follow_buildDefaultMessage hlines hnames 17 hf path,
      if_pos (by omega)] at hpath
  · intro f hf path fields hlen hfields
    have hpath := hmsg f hf path
    rw [defaultMessage, follow_buildDefaultMessage hlines hnames 17 hf path, if_neg (by omega),
      if_pos hlen, hfields, Option.map_some] at hpath
    cases hfound : S.classAt S.found (S.classOf f) path with
    | none =>
      rw [hfound] at hpath
      nomatch hpath
    | some other =>
      rw [hfound, Option.map_some, Option.some.injEq] at hpath
      exact List.map_eq_nil_iff.mp hpath.symm

/-- **The two parsers describe the same messages**: every file alike, and the default message of
every file with the members of the generated class along all paths of nested fields, if and only
if the set is plain. -/
theorem schemas_agree_iff (S : MsgSet) :
    (∀ f ∈ S.files, S.SameSchema f ∧ S.SameMessage f) ↔ S.Plain := by
  constructor
  · intro h
    exact plain_of_same (fun f hf => (h f hf).1) fun f hf => (h f hf).2
  · intro h f hf
    exact ⟨sameSchema_of_lines h.lines hf, sameMessage_of_plain h hf⟩

/-- One file with a line of the repository's own messages. -/
def vectorFile : MsgFile := ⟨"std_msgs/std_vector_3d".toList, "float64[3] data\n".toList⟩

/-- The set with this file alone. -/
def vectorSet : MsgSet where
  files := [vectorFile]
  walk := [vectorFile]
  registry := [("StdVector3d".toList, nestedTypeInfo vectorFile "StdVector3d".toList),
    ("std_vector_3d".toList, nestedTypeInfo vectorFile "StdVector3d".toList)]
  registered := by decide
  parsed := by
    rw [List.forall_mem_singleton]
    exact ⟨[⟨"float64[3]".toList, "float64".toList, "data".toList, true, false, true, some 3,
      none⟩], by decide⟩
  stems := List.nodup_singleton _
  walk_perm := List.Perm.refl _

/-- **The fixed array is lost**: the generated class writes an array of `float64`, type 23, and
the publisher reads a nested message of class `Float64[3]`, type 25. -/
theorem fixed_array_lost :
    (vectorSet.classOf vectorFile).mapM (FieldInfo.written vectorSet.registry) =
        .ok [⟨"data".toList, 23, []⟩] ∧
      (Publisher.parseMsgFile vectorFile).fields =
        [⟨"data".toList, 25, "Float64[3]".toList⟩] ∧
      ¬∀ f ∈ vectorSet.files, vectorSet.SameSchema f ∧ vectorSet.SameMessage f := by
  have hgenerator : (vectorSet.classOf vectorFile).mapM (FieldInfo.written vectorSet.registry) =
      .ok [⟨"data".toList, 23, []⟩] := by decide
  have hpublisher : (Publisher.parseMsgFile vectorFile).fields =
      [⟨"data".toList, 25, "Float64[3]".toList⟩] := by decide
  refine ⟨hgenerator, hpublisher, fun h => ?_⟩
  have hsame := (h vectorFile List.mem_cons_self).1
  rw [SameSchema, hgenerator, hpublisher] at hsame
  exact absurd hsame (by decide)

end MsgSet

end DzIpc.MsgFiles
