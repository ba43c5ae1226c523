import DzIpc.Library.DepthFirst
import DzIpc.MsgFiles.Generator
import Mathlib.Data.List.Sort
import Mathlib.Data.String.Basic

/-!
# The order of generation

`sort_msg_files_by_dependencies` of `batch_msg_srv_generator.py`: the files are kept in a `dict`
by base name, their dependencies are read, and the names are sorted depth first.

* `raises_iff`: it raises where the kept files have a cycle or a field type that is refused.
* `sortsRight_iff` says for which files it loses none, keeps the order of references and raises
  for cycles only.
-/

namespace DzIpc.MsgFiles.BuildOrder

open Generator

/-! ## Dependencies -/

/-- The type of the field that a line declares. -/
def fieldTypeOf (line : Text) : Option Text :=
  let line := strip line
  if line = [] ∨ line.head? = some '#' then none
  else
    match split line with
    | fieldType :: _ :: _ => some fieldType
    | _ => none

/-- The name that a line refers to, if any: the body of the loop of `parse_msg_dependencies`. -/
def dependency (registry : Registry) (selfType line : Text) : Except Text (Option Text) :=
  match fieldTypeOf line with
  | none => .ok none
  | some fieldType =>
    match parseFieldType fieldType with
    | .error e => .error e
    | .ok parsed =>
      match registry.lookup parsed.baseType with
      | none => .ok none
      | some info =>
        if info.fieldType = selfType then
          .error ("Recursive nested message is not supported: ".toList ++ selfType)
        else .ok (some info.fieldType)

/-- The loop of `parse_msg_dependencies`. -/
def dependencies (registry : Registry) (selfType : Text) :
    List Text → List Text → Except Text (List Text)
  | [], deps => return deps
  | line :: lines, deps => do
    match ← dependency registry selfType line with
    | none => dependencies registry selfType lines deps
    | some dep =>
      dependencies registry selfType lines (if deps.contains dep then deps else deps ++ [dep])

/-- `parse_msg_dependencies`. -/
def parseMsgDependencies (f : MsgFile) (registry : Registry) : Except Text (List Text) :=
  dependencies registry f.baseName (readlines f.text) []

/-! ## The sort -/

/-- Sets an entry of `file_by_type`, in place of the entry of its name.  The key of an entry is the
base name of the file. -/
def setFile (fileByType : List MsgFile) (f : MsgFile) : List MsgFile :=
  if fileByType.any fun g => g.baseName = f.baseName then
    fileByType.map fun g => if g.baseName = f.baseName then f else g
  else fileByType ++ [f]

/-- `file_by_type`. -/
def fileByType (files : List MsgFile) : List MsgFile := files.foldl setFile []

/-- `file_by_type[msg_type]`. -/
def find (fileByType : List MsgFile) (msgType : Text) : Option MsgFile :=
  fileByType.find? fun f => f.baseName = msgType

/-- `deps_by_type`. -/
def depsByType (registry : Registry) (fileByType : List MsgFile) :
    Except Text (List (Text × List Text)) :=
  fileByType.mapM fun f => do
    let deps ← parseMsgDependencies f registry
    return (f.baseName, deps)

/-- The dependencies that `visit` follows. -/
def next (fileByType : List MsgFile) (depsByType : List (Text × List Text)) (msgType : Text) :
    List Text :=
  ((depsByType.lookup msgType).getD []).filter fun dep => (find fileByType dep).isSome

/-- `sorted(file_by_type)`. -/
def sortedNames (fileByType : List MsgFile) : List Text :=
  (fileByType.map MsgFile.baseName).insertionSort (· ≤ ·)

/-- `sort_msg_files_by_dependencies`. -/
def sortMsgFilesByDependencies (files : List MsgFile) (registry : Registry) :
    Except Text (List MsgFile) := do
  let fileByType := fileByType files
  let depsByType ← depsByType registry fileByType
  match DepthFirst.sort (next fileByType depsByType) (sortedNames fileByType) with
  | .error msgType => throw ("Circular nested message dependency detected at: ".toList ++ msgType)
  | .ok sortedTypes => return sortedTypes.filterMap (find fileByType)

/-! ## What it should do -/

/-- The line declares a field whose type names a message of this name. -/
def Names (registry : Registry) (line name : Text) : Prop :=
  ∃ fieldType parsed info, fieldTypeOf line = some fieldType ∧
    parseFieldType fieldType = .ok parsed ∧ registry.lookup parsed.baseType = some info ∧
    info.fieldType = name

/-- A field of the first message is of the type of the second. -/
def Refers (registry : Registry) (f g : MsgFile) : Prop :=
  ∃ line ∈ readlines f.text, Names registry line g.baseName

/-- Some message refers to itself, directly or through others. -/
def Cyclic (registry : Registry) (files : List MsgFile) : Prop :=
  ∃ f ∈ files, Relation.TransGen (fun f g => g ∈ files ∧ Refers registry f g) f f

/-- It raises for a cycle, or returns each file once and behind those it refers to. -/
def SortsRight (registry : Registry) (files : List MsgFile) : Except Text (List MsgFile) → Prop
  | .error _ => Cyclic registry files
  | .ok l => l.Nodup ∧ (∀ f, f ∈ l ↔ f ∈ files) ∧
      ∀ pre f post, l = pre ++ f :: post → ∀ g ∈ files, Refers registry f g → g ∈ pre

/-- The field type of the line, if it has one, is not refused: it has no fixed array size of 0. -/
def LineParses (line : Text) : Prop :=
  ∀ fieldType, fieldTypeOf line = some fieldType → ∃ parsed, parseFieldType fieldType = .ok parsed

/-- No field type of the file is refused. -/
def Parses (f : MsgFile) : Prop := ∀ line ∈ readlines f.text, LineParses line

/-- No two files have one base name. -/
def NamesDiffer (files : List MsgFile) : Prop :=
  ∀ f ∈ files, ∀ g ∈ files, f.baseName = g.baseName → f = g

/-! ## Reading the dependencies -/

section

variable {registry : Registry} {files kept : List MsgFile} {f g : MsgFile}

/-- A line that is read names at most one message, and not that of its own file. -/
theorem dependency_ok {selfType line : Text} {dep : Option Text}
    (h : dependency registry selfType line = .ok dep) :
    LineParses line ∧ (∀ name, Names registry line name ↔ dep = some name) ∧
      ¬ Names registry line selfType := by
  unfold dependency at h
  cases htype : fieldTypeOf line with
  | none =>
      rw [htype] at h
      cases h
      have hnames : ∀ name, ¬ Names registry line name := by
        rintro name ⟨fieldType, parsed, info, hwrong, -⟩
        rw [htype] at hwrong
        cases hwrong
      refine ⟨fun fieldType hwrong => ?_, fun name => iff_of_false (hnames name) nofun, hnames _⟩
      rw [htype] at hwrong
      cases hwrong
  | some fieldType =>
      rw [htype] at h
      cases hparse : parseFieldType fieldType with
      | error e =>
          simp only [hparse] at h
          cases h
      | ok parsed =>
          simp only [hparse] at h
          have hnames : ∀ name, Names registry line name ↔
              ∃ info, registry.lookup parsed.baseType = some info ∧ info.fieldType = name := by
            intro name
            constructor
            · rintro ⟨_, _, info, htype', hparse', hlookup, hname⟩
              obtain rfl := Option.some.inj (htype.symm.trans htype')
              obtain rfl := Except.ok.inj (hparse.symm.trans hparse')
              exact ⟨info, hlookup, hname⟩
            · rintro ⟨info, hlookup, hname⟩
              exact ⟨fieldType, parsed, info, htype, hparse, hlookup, hname⟩
          have hparses : LineParses line := by
            intro fieldType' htype'
            obtain rfl := Option.some.inj (htype.symm.trans htype')
            exact ⟨parsed, hparse⟩
          refine ⟨hparses, ?_⟩
          cases hlookup : registry.lookup parsed.baseType with
          | none =>
              simp only [hlookup] at h hnames
              cases h
              exact ⟨fun name => (hnames name).trans (by simp), fun hself => by simp [hnames] at hself⟩
          | some info =>
              simp only [hlookup] at h hnames
              split at h
              · cases h
              · rename_i hself
                cases h
                refine ⟨fun name => (hnames name).trans (by simp), fun hwrong => hself ?_⟩
                obtain ⟨info', hinfo, hname⟩ := (hnames _).mp hwrong
                rwa [Option.some.inj hinfo]

/-- A line that is not read is refused or names the message of its own file. -/
theorem dependency_error {selfType line e : Text}
    (h : dependency registry selfType line = .error e) :
    ¬ LineParses line ∨ Names registry line selfType := by
  unfold dependency at h
  cases htype : fieldTypeOf line with
  | none =>
      rw [htype] at h
      cases h
  | some fieldType =>
      rw [htype] at h
      cases hparse : parseFieldType fieldType with
      | error e' =>
          left
          intro hparses
          obtain ⟨parsed, hwrong⟩ := hparses fieldType htype
          rw [hparse] at hwrong
          cases hwrong
      | ok parsed =>
          simp only [hparse] at h
          cases hlookup : registry.lookup parsed.baseType with
          | none =>
              simp only [hlookup] at h
              cases h
          | some info =>
              simp only [hlookup] at h
              split at h
              · rename_i hself
                exact .inr ⟨fieldType, parsed, info, htype, hparse, hlookup, hself⟩
              · cases h

theorem dependencies_ok {selfType : Text} {lines deps deps' : List Text}
    (h : dependencies registry selfType lines deps = .ok deps') :
    (∀ line ∈ lines, LineParses line) ∧
      ∀ name, name ∈ deps' ↔ name ∈ deps ∨ ∃ line ∈ lines, Names registry line name := by
  induction lines generalizing deps with
  | nil =>
      cases h
      exact ⟨nofun, fun name => by simp⟩
  | cons line lines ih =>
      simp only [List.forall_mem_cons, List.exists_mem_cons_iff]
      rw [dependencies] at h
      cases hline : dependency registry selfType line with
      | error e =>
          rw [hline] at h
          cases h
      | ok dep =>
          rw [hline] at h
          obtain ⟨hparses, hnames, -⟩ := dependency_ok hline
          cases dep with
          | none =>
              obtain ⟨hrest, hmem⟩ := ih h
              refine ⟨⟨hparses, hrest⟩, fun name => (hmem name).trans ?_⟩
              rw [hnames name]
              simp
          | some dep =>
              obtain ⟨hrest, hmem⟩ := ih h
              refine ⟨⟨hparses, hrest⟩, fun name => (hmem name).trans ?_⟩
              rw [hnames name, Option.some.injEq, ← or_assoc]
              refine or_congr ?_ Iff.rfl
              split
              · rename_i hold
                exact ⟨.inl, fun h => h.elim id fun heq => heq ▸ List.contains_iff_mem.mp hold⟩
              · rw [List.mem_append, List.mem_singleton, eq_comm (a := dep)]

theorem dependencies_error {selfType e : Text} {lines deps : List Text}
    (h : dependencies registry selfType lines deps = .error e) :
    (∃ line ∈ lines, ¬ LineParses line) ∨ ∃ line ∈ lines, Names registry line selfType := by
  induction lines generalizing deps with
  | nil => cases h
  | cons line lines ih =>
      rw [dependencies] at h
      cases hline : dependency registry selfType line with
      | error e' =>
          exact (dependency_error hline).imp (fun hwrong => ⟨line, List.mem_cons_self, hwrong⟩)
            fun hself => ⟨line, List.mem_cons_self, hself⟩
      | ok dep =>
          rw [hline] at h
          have hmore : ∃ deps', dependencies registry selfType lines deps' = .error e := by
            cases dep with
            | none => exact ⟨_, h⟩
            | some dep => exact ⟨_, h⟩
          obtain ⟨deps', hrest⟩ := hmore
          exact (ih hrest).imp
            (fun ⟨line', hmem, hwrong⟩ => ⟨line', List.mem_cons_of_mem line hmem, hwrong⟩)
            fun ⟨line', hmem, hself⟩ => ⟨line', List.mem_cons_of_mem line hmem, hself⟩

/-! ## The kept files -/

theorem mem_setFile (kept : List MsgFile) (f : MsgFile) (g : MsgFile) :
    g ∈ setFile kept f ↔ g = f ∨ g ∈ kept ∧ g.baseName ≠ f.baseName := by
  unfold setFile
  split
  · rename_i hany
    obtain ⟨old, hold, hname⟩ := List.any_eq_true.mp hany
    have hname : old.baseName = f.baseName := of_decide_eq_true hname
    rw [List.mem_map]
    constructor
    · rintro ⟨g', hg', rfl⟩
      split
      · exact .inl rfl
      · rename_i hne
        exact .inr ⟨hg', hne⟩
    · rintro (rfl | ⟨hg, hne⟩)
      · exact ⟨old, hold, if_pos hname⟩
      · exact ⟨g, hg, if_neg hne⟩
  · rename_i hany
    rw [List.mem_append, List.mem_singleton, or_comm]
    refine or_congr Iff.rfl ⟨fun hg => ⟨hg, fun heq => hany ?_⟩, And.left⟩
    exact List.any_eq_true.mpr ⟨g, hg, decide_eq_true heq⟩

theorem names_setFile {kept : List MsgFile} (h : (kept.map MsgFile.baseName).Nodup) (f : MsgFile) :
    ((setFile kept f).map MsgFile.baseName).Nodup := by
  unfold setFile
  split
  · have hsame : (kept.map fun g => if g.baseName = f.baseName then f else g).map MsgFile.baseName
        = kept.map MsgFile.baseName := by
      rw [List.map_map]
      refine List.map_congr_left fun g _ => ?_
      rw [Function.comp_apply]
      split
      · rename_i heq
        exact heq.symm
      · rfl
    rwa [hsame]
  · rename_i hany
    rw [List.map_append, List.nodup_append]
    refine ⟨h, List.nodup_singleton _, fun name hname name' hname' heq => hany ?_⟩
    obtain ⟨g, hg, rfl⟩ := List.mem_map.mp hname
    rw [List.map_singleton, List.mem_singleton] at hname'
    exact List.any_eq_true.mpr ⟨g, hg, decide_eq_true (heq.trans hname')⟩

/-- One file is kept for each base name. -/
theorem fileByType_spec (files : List MsgFile) :
    ((fileByType files).map MsgFile.baseName).Nodup ∧
      (∀ f ∈ fileByType files, f ∈ files) ∧
      ∀ f ∈ files, ∃ g ∈ fileByType files, g.baseName = f.baseName := by
  induction files using List.reverseRecOn with
  | nil => exact ⟨List.nodup_nil, nofun, nofun⟩
  | append_singleton files f ih =>
      obtain ⟨hnodup, hmem, hname⟩ := ih
      have hlast : fileByType (files ++ [f]) = setFile (fileByType files) f := by
        rw [fileByType, List.foldl_append]
        rfl
      rw [hlast]
      refine ⟨names_setFile hnodup f, fun g hg => ?_, fun g hg => ?_⟩
      · rcases (mem_setFile _ f g).mp hg with rfl | ⟨hg, -⟩
        · exact List.mem_append_right _ List.mem_cons_self
        · exact List.mem_append_left _ (hmem g hg)
      · by_cases heq : g.baseName = f.baseName
        · exact ⟨f, (mem_setFile _ f f).mpr (.inl rfl), heq.symm⟩
        rcases List.mem_append.mp hg with hg | hg
        · obtain ⟨g', hg', hname'⟩ := hname g hg
          exact ⟨g', (mem_setFile _ f g').mpr (.inr ⟨hg', hname' ▸ heq⟩), hname'⟩
        · exact absurd (List.mem_singleton.mp hg ▸ rfl) heq

/-- Where the names differ all files are kept. -/
theorem mem_fileByType_iff (files : List MsgFile) :
    (∀ f, f ∈ fileByType files ↔ f ∈ files) ↔ NamesDiffer files := by
  obtain ⟨hnodup, hmem, hname⟩ := fileByType_spec files
  constructor
  · intro hall f hf g hg heq
    exact List.inj_on_of_nodup_map hnodup ((hall f).mpr hf) ((hall g).mpr hg) heq
  · intro hdiffer f
    refine ⟨hmem f, fun hf => ?_⟩
    obtain ⟨g, hg, heq⟩ := hname f hf
    rwa [hdiffer f hf g (hmem g hg) heq.symm]

theorem find_eq_some (hnodup : (kept.map MsgFile.baseName).Nodup) {name : Text} :
    find kept name = some f ↔ f ∈ kept ∧ f.baseName = name := by
  constructor
  · intro h
    exact ⟨List.mem_of_find?_eq_some h, by simpa using List.find?_some h⟩
  · rintro ⟨hf, rfl⟩
    cases h : find kept f.baseName with
    | none =>
        have hnone := List.find?_eq_none.mp h f hf
        simp at hnone
    | some g =>
        have hname : g.baseName = f.baseName := by simpa using List.find?_some h
        rw [List.inj_on_of_nodup_map hnodup (List.mem_of_find?_eq_some h) hf hname]

/-- The dependencies of the kept files, where all are read. -/
theorem depsByType_ok {deps : List (Text × List Text)} (h : depsByType registry kept = .ok deps) :
    (∀ f ∈ kept, ∃ names, parseMsgDependencies f registry = .ok names) ∧
      ∀ name, deps.lookup name = (find kept name).bind fun f =>
        (parseMsgDependencies f registry).toOption := by
  induction kept generalizing deps with
  | nil =>
      cases h
      exact ⟨nofun, fun _ => rfl⟩
  | cons f kept ih =>
      rw [depsByType, List.mapM_cons] at h
      cases hf : parseMsgDependencies f registry with
      | error e =>
          simp only [hf] at h
          cases h
      | ok names =>
          cases hrest : depsByType registry kept with
          | error e =>
              rw [depsByType] at hrest
              simp only [hf, hrest] at h
              cases h
          | ok deps' =>
              obtain ⟨hall, hlookup⟩ := ih hrest
              rw [depsByType] at hrest
              simp only [hf, hrest] at h
              cases h
              refine ⟨List.forall_mem_cons.mpr ⟨⟨names, hf⟩, hall⟩, fun name => ?_⟩
              rw [List.lookup_cons, find, List.find?_cons]
              by_cases heq : f.baseName = name
              · simp [heq, hf, Except.toOption]
              · have hne : (name == f.baseName) = false := by simpa using Ne.symm heq
                rw [hne, decide_eq_false heq]
                exact hlookup name

theorem depsByType_error {e : Text} (h : depsByType registry kept = .error e) :
    ∃ f ∈ kept, ∃ e, parseMsgDependencies f registry = .error e := by
  induction kept generalizing e with
  | nil => cases h
  | cons f kept ih =>
      rw [depsByType, List.mapM_cons] at h
      cases hf : parseMsgDependencies f registry with
      | error e' => exact ⟨f, List.mem_cons_self, e', hf⟩
      | ok names =>
          cases hrest : depsByType registry kept with
          | error e' =>
              obtain ⟨g, hg, herror⟩ := ih hrest
              exact ⟨g, List.mem_cons_of_mem f hg, herror⟩
          | ok deps' =>
              rw [depsByType] at hrest
              simp only [hf, hrest] at h
              cases h

/-! ## The graph of the names -/

/-- A graph as the sort sees it: its nodes are the names of the kept files, and names point to
those that their files refer to. -/
structure Graph (registry : Registry) (kept : List MsgFile) (deps : List (Text × List Text)) :
    Prop where
  nodup : (kept.map MsgFile.baseName).Nodup
  mem_next : ∀ name dep, dep ∈ next kept deps name ↔
    ∃ f ∈ kept, ∃ g ∈ kept, f.baseName = name ∧ g.baseName = dep ∧ Refers registry f g

theorem graph_of_ok (hnodup : (kept.map MsgFile.baseName).Nodup) {deps : List (Text × List Text)}
    (h : depsByType registry kept = .ok deps) : Graph registry kept deps := by
  obtain ⟨hall, hlookup⟩ := depsByType_ok h
  refine ⟨hnodup, fun name dep => ?_⟩
  rw [next, List.mem_filter, hlookup, Option.isSome_iff_exists]
  constructor
  · rintro ⟨hdep, g, hg⟩
    obtain ⟨hg, hdepName⟩ := (find_eq_some hnodup).mp hg
    cases hf : find kept name with
    | none => simp [hf] at hdep
    | some f =>
        obtain ⟨hmem, hname⟩ := (find_eq_some hnodup).mp hf
        obtain ⟨names, hnames⟩ := hall f hmem
        have hdep' : dep ∈ names := by simpa [hf, hnames, Except.toOption] using hdep
        have hline := ((dependencies_ok hnames).2 dep).mp hdep'
        refine ⟨f, hmem, g, hg, hname, hdepName, ?_⟩
        rw [Refers, hdepName]
        exact hline.resolve_left (by simp)
  · rintro ⟨f, hf, g, hg, rfl, rfl, hrefers⟩
    refine ⟨?_, g, (find_eq_some hnodup).mpr ⟨hg, rfl⟩⟩
    obtain ⟨names, hnames⟩ := hall f hf
    have hdep : g.baseName ∈ names := ((dependencies_ok hnames).2 _).mpr (.inr hrefers)
    simpa [(find_eq_some hnodup).mpr ⟨hf, rfl⟩, hnames, Except.toOption] using hdep

theorem mem_sortedNames {name : Text} :
    name ∈ sortedNames kept ↔ ∃ f ∈ kept, f.baseName = name := by
  rw [sortedNames, List.mem_insertionSort, List.mem_map]

section

variable {deps : List (Text × List Text)} (hgraph : Graph registry kept deps)
include hgraph

theorem next_closed : ∀ name ∈ sortedNames kept, ∀ dep ∈ next kept deps name,
    dep ∈ sortedNames kept := by
  intro name _ dep hdep
  obtain ⟨-, -, g, hg, -, hname, -⟩ := (hgraph.mem_next name dep).mp hdep
  exact mem_sortedNames.mpr ⟨g, hg, hname⟩

/-- The ways between names are those between the files of these names. -/
theorem leads_iff (hf : f ∈ kept) (hg : g ∈ kept) :
    DepthFirst.Leads (next kept deps) f.baseName g.baseName ↔
      Relation.TransGen (fun f g => g ∈ kept ∧ Refers registry f g) f g := by
  constructor
  · have hlift : ∀ {name dep : Text}, DepthFirst.Leads (next kept deps) name dep →
        ∀ f ∈ kept, ∀ g ∈ kept, f.baseName = name → g.baseName = dep →
          Relation.TransGen (fun f g => g ∈ kept ∧ Refers registry f g) f g := by
      intro name dep hlead
      induction hlead with
      | single hstep =>
          intro f hf g hg hname hdep
          obtain ⟨f', hf', g', hg', hname', hdep', hrefers⟩ := (hgraph.mem_next _ _).mp hstep
          rw [List.inj_on_of_nodup_map hgraph.nodup hf hf' (hname.trans hname'.symm),
            List.inj_on_of_nodup_map hgraph.nodup hg hg' (hdep.trans hdep'.symm)]
          exact .single ⟨hg', hrefers⟩
      | tail _ hstep ih =>
          intro f hf g hg hname hdep
          obtain ⟨f', hf', g', hg', hname', hdep', hrefers⟩ := (hgraph.mem_next _ _).mp hstep
          rw [List.inj_on_of_nodup_map hgraph.nodup hg hg' (hdep.trans hdep'.symm)]
          exact .tail (ih f hf f' hf' hname hname') ⟨hg', hrefers⟩
    exact fun hlead => hlift hlead f hf g hg rfl rfl
  · intro hlead
    have hlift : f ∈ kept ∧ g ∈ kept ∧ DepthFirst.Leads (next kept deps) f.baseName g.baseName := by
      clear hg
      induction hlead with
      | single hstep =>
          exact ⟨hf, hstep.1,
            .single ((hgraph.mem_next _ _).mpr ⟨f, hf, _, hstep.1, rfl, rfl, hstep.2⟩)⟩
      | tail _ hstep ih =>
          exact ⟨hf, hstep.1, .tail ih.2.2
            ((hgraph.mem_next _ _).mpr ⟨_, ih.2.1, _, hstep.1, rfl, rfl, hstep.2⟩)⟩
    exact hlift.2.2

/-- The names come out behind those they point to, and so do the files. -/
theorem sorted_files {names : List Text} (hnodup : names.Nodup)
    (hmem : ∀ name, name ∈ names ↔ name ∈ sortedNames kept)
    (hordered : DepthFirst.Ordered (next kept deps) names) :
    (names.filterMap (find kept)).Nodup ∧
      (∀ f, f ∈ names.filterMap (find kept) ↔ f ∈ kept) ∧
      ∀ pre f post, names.filterMap (find kept) = pre ++ f :: post →
        ∀ g ∈ kept, Refers registry f g → g ∈ pre := by
  have hfind : ∀ {name : Text} {f : MsgFile}, find kept name = some f ↔
      f ∈ kept ∧ f.baseName = name := find_eq_some hgraph.nodup
  refine ⟨?_, fun f => ?_, fun pre f post heq g hg hrefers => ?_⟩
  · refine hnodup.filterMap fun name name' f hf hf' => ?_
    rw [← (hfind.mp hf).2, (hfind.mp hf').2]
  · rw [List.mem_filterMap]
    constructor
    · rintro ⟨name, -, hf⟩
      exact (hfind.mp hf).1
    · exact fun hf => ⟨f.baseName, (hmem _).mpr (mem_sortedNames.mpr ⟨f, hf, rfl⟩),
        hfind.mpr ⟨hf, rfl⟩⟩
  · obtain ⟨front, back, rfl, hfront, hback⟩ := List.filterMap_eq_append_iff.mp heq
    obtain ⟨skipped, name, rest, rfl, hskipped, hname, -⟩ := List.filterMap_eq_cons_iff.mp hback
    obtain ⟨hf, hfname⟩ := hfind.mp hname
    have hpoints : g.baseName ∈ next kept deps name :=
      (hgraph.mem_next _ _).mpr ⟨f, hf, g, hg, hfname, rfl, hrefers⟩
    have hbefore := hordered (front ++ skipped) name rest (by simp) _ hpoints
    rcases List.mem_append.mp hbefore with hin | hin
    · rw [← hfront]
      exact List.mem_filterMap.mpr ⟨_, hin, hfind.mpr ⟨hg, rfl⟩⟩
    · have hnone := hskipped _ hin
      rw [hfind.mpr ⟨hg, rfl⟩] at hnone
      cases hnone

end

/-! ## The result -/

/-- It raises only for a cycle of the kept files or a field type that is refused. -/
theorem sort_error {e : Text} (h : sortMsgFilesByDependencies files registry = .error e) :
    Cyclic registry (fileByType files) ∨ ∃ f ∈ fileByType files, ¬ Parses f := by
  unfold sortMsgFilesByDependencies at h
  cases hdeps : depsByType registry (fileByType files) with
  | error e' =>
      obtain ⟨f, hf, e'', herror⟩ := depsByType_error hdeps
      rcases dependencies_error herror with ⟨line, hline, hwrong⟩ | ⟨line, hline, hself⟩
      · exact .inr ⟨f, hf, fun hparses => hwrong (hparses line hline)⟩
      · exact .inl ⟨f, hf, .single ⟨hf, line, hline, hself⟩⟩
  | ok deps =>
      have hgraph := graph_of_ok (fileByType_spec files).1 hdeps
      simp only [hdeps, bind, Except.bind] at h
      cases hsort : DepthFirst.sort (next (fileByType files) deps)
          (sortedNames (fileByType files)) with
      | error name =>
          have hlead := DepthFirst.sort_error (next_closed hgraph) hsort
          obtain ⟨_, hstep, -⟩ := Relation.TransGen.head'_iff.mp hlead
          obtain ⟨f, hf, -, -, rfl, -, -⟩ := (hgraph.mem_next _ _).mp hstep
          exact .inl ⟨f, hf, (leads_iff hgraph hf hf).mp hlead⟩
      | ok names =>
          simp only [hsort] at h
          cases h

/-- It returns the kept files in order, and then they have no cycle and all are read. -/
theorem sort_ok {l : List MsgFile} (h : sortMsgFilesByDependencies files registry = .ok l) :
    ¬ Cyclic registry (fileByType files) ∧ (∀ f ∈ fileByType files, Parses f) ∧
      l.Nodup ∧ (∀ f, f ∈ l ↔ f ∈ fileByType files) ∧
      ∀ pre f post, l = pre ++ f :: post → ∀ g ∈ fileByType files, Refers registry f g →
        g ∈ pre := by
  unfold sortMsgFilesByDependencies at h
  cases hdeps : depsByType registry (fileByType files) with
  | error e =>
      simp only [hdeps] at h
      cases h
  | ok deps =>
      have hgraph := graph_of_ok (fileByType_spec files).1 hdeps
      simp only [hdeps, bind, Except.bind] at h
      cases hsort : DepthFirst.sort (next (fileByType files) deps)
          (sortedNames (fileByType files)) with
      | error name =>
          simp only [hsort] at h
          cases h
      | ok names =>
          simp only [hsort] at h
          cases h
          obtain ⟨hnodup, hmem, hordered⟩ := DepthFirst.sort_ok (next_closed hgraph) hsort
          refine ⟨?_, fun f hf => ?_, sorted_files hgraph hnodup hmem hordered⟩
          · rintro ⟨f, hf, hcycle⟩
            exact DepthFirst.not_leads_of_sort (next_closed hgraph) hsort
              (mem_sortedNames.mpr ⟨f, hf, rfl⟩) ((leads_iff hgraph hf hf).mpr hcycle)
          · obtain ⟨names, hnames⟩ := (depsByType_ok hdeps).1 f hf
            exact (dependencies_ok hnames).1

theorem Cyclic.mono (hsub : ∀ f ∈ kept, f ∈ files) (h : Cyclic registry kept) :
    Cyclic registry files := by
  obtain ⟨f, hf, hcycle⟩ := h
  exact ⟨f, hsub f hf, hcycle.lift id fun _ _ hstep => ⟨hsub _ hstep.1, hstep.2⟩⟩

end

/-- **In dependency order, none lost.**  It raises for cycles only and otherwise returns all files
in order, exactly where the files it keeps have a cycle, or one of them is refused and there is a
cycle, or none is refused and no two files have one base name. -/
theorem sortsRight_iff (registry : Registry) (files : List MsgFile) :
    SortsRight registry files (sortMsgFilesByDependencies files registry) ↔
      Cyclic registry (fileByType files) ∨
      (∃ f ∈ fileByType files, ¬ Parses f) ∧ Cyclic registry files ∨
      (∀ f ∈ fileByType files, Parses f) ∧ NamesDiffer files := by
  have hsub := (fileByType_spec files).2.1
  cases h : sortMsgFilesByDependencies files registry with
  | error e =>
      have hwhy := sort_error h
      constructor
      · intro hcyclic
        exact hwhy.imp id fun hrefused => .inl ⟨hrefused, hcyclic⟩
      · rintro (hkept | ⟨-, hcyclic⟩ | ⟨hparses, -⟩)
        · exact hkept.mono hsub
        · exact hcyclic
        · rcases hwhy with hkept | ⟨f, hf, hwrong⟩
          · exact hkept.mono hsub
          · exact absurd (hparses f hf) hwrong
  | ok l =>
      obtain ⟨hacyclic, hparses, hnodup, hmem, hordered⟩ := sort_ok h
      constructor
      · rintro ⟨-, hall, -⟩
        exact .inr (.inr ⟨hparses,
          (mem_fileByType_iff files).mp fun f => (hmem f).symm.trans (hall f)⟩)
      · rintro (hcyclic | ⟨⟨f, hf, hwrong⟩, -⟩ | ⟨-, hdiffer⟩)
        · exact absurd hcyclic hacyclic
        · exact absurd (hparses f hf) hwrong
        · have hsame := (mem_fileByType_iff files).mpr hdiffer
          exact ⟨hnodup, fun f => (hmem f).trans (hsame f),
            fun pre f post heq g hg => hordered pre f post heq g ((hsame g).mpr hg)⟩

/-- Two files of one name in two directories. -/
private def sameName : List MsgFile :=
  [⟨"a/x".toList, "int32 v".toList⟩, ⟨"b/x".toList, "int32 v".toList⟩]

/-- The first of them is lost. -/
theorem file_lost : ∃ registry, buildMsgTypeRegistry sameName = .ok registry ∧
    ¬ SortsRight registry sameName (sortMsgFilesByDependencies sameName registry) := by
  have hsort : (buildMsgTypeRegistry sameName).bind (sortMsgFilesByDependencies sameName)
      = .ok [⟨"b/x".toList, "int32 v".toList⟩] := rfl
  cases hregistry : buildMsgTypeRegistry sameName with
  | error e =>
      rw [hregistry] at hsort
      cases hsort
  | ok registry =>
      rw [hregistry] at hsort
      refine ⟨registry, rfl, ?_⟩
      rw [show sortMsgFilesByDependencies sameName registry = _ from hsort]
      rintro ⟨-, hall, -⟩
      exact absurd ((hall ⟨"a/x".toList, "int32 v".toList⟩).mpr List.mem_cons_self) (by decide)

end DzIpc.MsgFiles.BuildOrder
