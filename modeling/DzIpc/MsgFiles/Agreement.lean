import DzIpc.MsgFiles.Lines

/-!
# What the two parsers agree on

`lines_agree_iff`: the generator and the publisher read the same fields in a file that the
generator takes, with the same type bytes and class names, if and only if every line is skipped by
both or is a `FieldLine`: a type, blanks and a name without white space in them, where the type
has no fixed size and no name of a file that is also one of a primitive type.

If the two agree on a whole file, every name and type that the publisher reads is without white
space, since those that the generator reads are (`noSpace_of_mem`).  Then the generator reads a
field in each line in which the publisher does (`written_of_declares`), so that the fields agree line by
line.
-/

namespace DzIpc.MsgFiles

open Generator

/-- Lines that both sides skip: the generator's pieces of the line are comments or have less than
two words. -/
def Skipped (line : Text) : Prop :=
  PublisherSkips line ∧ ∀ seg ∈ pieces (· == '\r') line,
    (split seg).length < 2 ∨ (split seg).head?.bind List.head? = some '#'

/-- Lines that both sides read alike. -/
def FieldLine (registry : Registry) (line : Text) : Prop :=
  ∃ fieldType gap fieldName, Declares line fieldType gap fieldName ∧
    (∀ c ∈ fieldType, isSpace c = false) ∧ (∀ c ∈ fieldName, isSpace c = false) ∧
    fixedArrayMatch fieldType = none ∧ Unshadowed registry fieldType

section Words

variable {registry : Registry} {currentBaseName line seg fieldType gap fieldName : Text}
  {rest : List Text} {info : FieldInfo} {m : MsgField}

theorem isSpace_of_isTrailing {c : Char} (h : Publisher.isTrailing c = true) :
    isSpace c = true := by
  simp only [Publisher.isTrailing, Publisher.isBlank, Bool.or_eq_true, decide_eq_true_eq] at h
  obtain (rfl | rfl) | rfl := h <;> decide

theorem isSpace_of_isBlank {c : Char} (h : Publisher.isBlank c = true) : isSpace c = true :=
  isSpace_of_isTrailing (by rw [Publisher.isTrailing, h]; rfl)

theorem mem_toOption {α ε : Type} {e : Except ε α} {x : α} :
    x ∈ e.toOption.toList ↔ e = .ok x := by
  cases e with
  | error err => simp [Except.toOption]
  | ok y => simp [Except.toOption, eq_comm]

/-- The field of a piece of a line that is no comment. -/
theorem lineWritten_words (hsplit : split seg = fieldType :: fieldName :: rest)
    (hcomment : fieldType.head? ≠ some '#')
    (hresolve : resolveFieldInfo registry currentBaseName fieldType fieldName = .ok info) :
    lineWritten registry currentBaseName seg = (info.written registry).toOption.toList := by
  have hparse : parseLine registry currentBaseName seg = .ok (some info) := by
    rw [parseLine_eq, hsplit]
    simp only
    rw [if_neg hcomment, hresolve]
    rfl
  rw [lineWritten, hparse]

theorem lineWritten_skips (h : (split seg).length < 2 ∨
    (split seg).head?.bind List.head? = some '#') :
    lineWritten registry currentBaseName seg = [] := by
  have hparse : parseLine registry currentBaseName seg = .ok none := by
    rw [parseLine_eq]
    rcases hsplit : split seg with - | ⟨fieldType, - | ⟨fieldName, rest⟩⟩
    · rfl
    · rfl
    · rw [hsplit] at h
      rcases h with hlength | hcomment
      · rw [List.length_cons, List.length_cons] at hlength
        omega
      · exact if_pos hcomment
  rw [lineWritten, hparse]

/-- A piece of a line, if the generator takes it: skipped, or a field. -/
theorem lineWritten_cases
    (hparsed : ∃ field, parseLine registry currentBaseName seg = .ok field) :
    ((split seg).length < 2 ∨ (split seg).head?.bind List.head? = some '#') ∨
    ∃ fieldType fieldName rest info, split seg = fieldType :: fieldName :: rest ∧
      fieldType.head? ≠ some '#' ∧
      resolveFieldInfo registry currentBaseName fieldType fieldName = .ok info := by
  rcases hsplit : split seg with - | ⟨fieldType, - | ⟨fieldName, rest⟩⟩
  · exact .inl (.inl (by simp))
  · exact .inl (.inl (by simp))
  · by_cases hcomment : fieldType.head? = some '#'
    · exact .inl (.inr hcomment)
    obtain ⟨field, hfield⟩ := hparsed
    rw [parseLine_eq, hsplit] at hfield
    simp only at hfield
    rw [if_neg hcomment] at hfield
    cases hresolve : resolveFieldInfo registry currentBaseName fieldType fieldName with
    | error e =>
      rw [hresolve] at hfield
      nomatch hfield
    | ok info => exact .inr ⟨fieldType, fieldName, rest, info, rfl, hcomment, hresolve⟩

/-- A line with blanks and `\r` behind it has one piece with words in it. -/
theorem written_append {w back : Text} (hne : w ≠ []) (hret : ∀ c ∈ w, (c == '\r') = false)
    (hback : ∀ c ∈ back, Publisher.isTrailing c = true) :
    (∀ seg ∈ pieces (· == '\r') (w ++ back), split seg = split w ∨ split seg = []) ∧
    ∃ seg ∈ pieces (· == '\r') (w ++ back), split seg = split w ∧ ∀ registry currentBaseName,
      written registry currentBaseName (w ++ back) = lineWritten registry currentBaseName seg := by
  have hspace : ∀ l : Text, (∀ c ∈ l, Publisher.isTrailing c = true) →
      ∀ c ∈ l, isSpace c = true := fun l hl c hc => isSpace_of_isTrailing (hl c hc)
  obtain hnone | ⟨b, r, s, rfl, hb, hr⟩ := exists_sep (· == '\r') back
  · have hpieces : pieces (· == '\r') (w ++ back) = [w ++ back] := by
      apply pieces_word
      · rw [List.forall_mem_append]
        exact ⟨hret, hnone⟩
      · exact List.append_ne_nil_of_left_ne_nil hne back
    have hsplit : split (w ++ back) = split w := pieces_append_right (hspace back hback)
    refine ⟨?_, w ++ back, by rw [hpieces]; exact List.mem_cons_self, hsplit, ?_⟩
    · rw [hpieces, List.forall_mem_singleton]
      exact .inl hsplit
    · intro registry currentBaseName
      rw [written, hpieces, List.flatMap_singleton]
  · rw [List.forall_mem_append, List.forall_mem_cons] at hback
    have hpieces : pieces (· == '\r') (w ++ (b ++ r :: s)) =
        (w ++ b) :: pieces (· == '\r') s := by
      have hcut : pieces (· == '\r') (w ++ b ++ r :: s) =
          pieces (· == '\r') (w ++ b) ++ pieces (· == '\r') s := pieces_append_sep _ _ hr
      rw [← List.append_assoc, hcut, pieces_word]
      · rfl
      · rw [List.forall_mem_append]
        exact ⟨hret, hb⟩
      · exact List.append_ne_nil_of_left_ne_nil hne b
    have hsplit : split (w ++ b) = split w := pieces_append_right (hspace b hback.1)
    have hblank : ∀ seg ∈ pieces (· == '\r') s, split seg = [] := fun seg hseg =>
      pieces_seps fun c hc => hspace s hback.2.2 c ((mem_pieces hseg).2.2 c hc)
    refine ⟨?_, w ++ b, by rw [hpieces]; exact List.mem_cons_self, hsplit, ?_⟩
    · rw [hpieces, List.forall_mem_cons]
      exact ⟨.inl hsplit, fun seg hseg => .inr (hblank seg hseg)⟩
    · intro registry currentBaseName
      have hrest : (pieces (· == '\r') s).flatMap (lineWritten registry currentBaseName) = [] := by
        rw [List.flatMap_eq_nil_iff]
        exact fun seg hseg => lineWritten_skips (.inl (by rw [hblank seg hseg]; simp))
      rw [written, hpieces, List.flatMap_cons, hrest, List.append_nil]

/-- The words of a line that declares a field whose type and name have no white space: one piece
of the line has them. -/
theorem split_declares (h : Declares line fieldType gap fieldName)
    (htype : ∀ c ∈ fieldType, isSpace c = false) (hname : ∀ c ∈ fieldName, isSpace c = false) :
    (∀ seg ∈ pieces (· == '\r') line, split seg = [fieldType, fieldName] ∨ split seg = []) ∧
    ∃ seg ∈ pieces (· == '\r') line, split seg = [fieldType, fieldName] ∧
      ∀ registry currentBaseName,
        written registry currentBaseName line = lineWritten registry currentBaseName seg := by
  obtain ⟨front, back, hline, hfront, hback⟩ := content_spec line
  have hret : ∀ c, isSpace c = false ∨ Publisher.isBlank c = true → (c == '\r') = false := by
    rintro c h
    rw [beq_eq_false_iff_ne]
    rintro rfl
    rcases h with h | h <;> exact absurd h (by decide)
  have hw : ∀ c ∈ front ++ Publisher.content line, (c == '\r') = false := by
    rw [h.content]
    simp only [List.forall_mem_append]
    exact ⟨fun c hc => hret c (.inr (hfront c hc)), ⟨fun c hc => hret c (.inl (htype c hc)),
      fun c hc => hret c (.inr (h.gapChars c hc))⟩, fun c hc => hret c (.inl (hname c hc))⟩
  have hne : front ++ Publisher.content line ≠ [] := by
    rw [h.content]
    simp [h.type_ne]
  have hwords : split (front ++ Publisher.content line) = [fieldType, fieldName] := by
    rw [h.content, split, pieces_append_left fun c hc => isSpace_of_isBlank (hfront c hc),
      pieces_two htype h.type_ne (fun c hc => isSpace_of_isBlank (h.gapChars c hc)) h.gap_ne,
      pieces_word hname h.name_ne]
  rw [hline, ← hwords]
  exact written_append hne hw hback

/-- A field whose type and name have no white space is one field to the generator too. -/
theorem written_declares (h : Declares line fieldType gap fieldName)
    (htype : ∀ c ∈ fieldType, isSpace c = false) (hname : ∀ c ∈ fieldName, isSpace c = false)
    (hparsed : ∀ seg ∈ pieces (· == '\r') line,
      ∃ field, parseLine registry currentBaseName seg = .ok field) :
    ∃ info, resolveFieldInfo registry currentBaseName fieldType fieldName = .ok info ∧
      written registry currentBaseName line = (info.written registry).toOption.toList := by
  obtain ⟨-, seg, hseg, hwords, hwritten⟩ := split_declares h htype hname
  obtain hskip | ⟨T, N, rest, info, hsplit', hcomment, hresolve⟩ :=
    lineWritten_cases (hparsed seg hseg)
  · rw [hwords] at hskip
    rcases hskip with hlength | hcomment
    · simp at hlength
    · exact absurd hcomment h.comment
  · rw [hwords, List.cons.injEq, List.cons.injEq] at hsplit'
    obtain ⟨rfl, rfl, rfl⟩ := hsplit'
    exact ⟨info, hresolve, (hwritten _ _).trans (lineWritten_words hwords hcomment hresolve)⟩

theorem mem_written (h : m ∈ written registry currentBaseName line)
    (hparsed : ∀ seg ∈ pieces (· == '\r') line,
      ∃ field, parseLine registry currentBaseName seg = .ok field) :
    ∃ fieldType fieldName info, (∀ c ∈ fieldName, isSpace c = false) ∧
      resolveFieldInfo registry currentBaseName fieldType fieldName = .ok info ∧
      info.written registry = .ok m := by
  obtain ⟨seg, hseg, hm⟩ := List.mem_flatMap.mp h
  obtain hskip | ⟨T, N, rest, info, hsplit, hcomment, hresolve⟩ :=
    lineWritten_cases (hparsed seg hseg)
  · rw [lineWritten_skips hskip] at hm
    simp at hm
  · rw [lineWritten_words hsplit hcomment hresolve, mem_toOption] at hm
    have hN : N ∈ split seg := by
      rw [hsplit]
      simp
    exact ⟨T, N, info, (mem_pieces hN).2.1, hresolve, hm⟩

end Words

/-! ## White space -/

section Agree

variable {registry : Registry} {files : List MsgFile} {currentBaseName fieldType fieldName : Text}
  (hreg : ∀ key nested, registry.lookup key = some nested → Registered files key nested)
include hreg

/-- The class name that the generator writes is without white space. -/
theorem written_noSpace {info : FieldInfo} {m : MsgField}
    (h : resolveFieldInfo registry currentBaseName fieldType fieldName = .ok info)
    (hm : info.written registry = .ok m) :
    m.name = fieldName ∧ ∀ c ∈ m.nestedType, isSpace c = false := by
  obtain ⟨parsed, hparse, htype, hname, -, hresolved⟩ := resolveFieldInfo_ok h
  rw [FieldInfo.written] at hm
  cases hindex : getTypeIndex registry info.fieldType with
  | error e =>
    rw [hindex] at hm
    cases hm
  | ok n =>
    rw [hindex] at hm
    obtain rfl := Except.ok.inj hm
    refine ⟨hname, ?_⟩
    obtain ⟨-, hnested⟩ | ⟨-, nested, hlookup, hnested⟩ := hresolved
    · rw [hnested]
      simp
    · rw [hnested]
      exact (hreg _ _ hlookup).noSpace

omit hreg in
/-- The publisher keeps the white space of a type in the name of its class. -/
theorem type_noSpace
    (h : ∀ c ∈ (Publisher.field fieldType fieldName).nestedType, isSpace c = false) :
    ∀ c ∈ fieldType, isSpace c = false := by
  have hbase : ∀ c ∈ (Publisher.arrayBase fieldType).getD fieldType, isSpace c = false := by
    cases hlookup : Publisher.primitiveTypes.lookup
        ((Publisher.arrayBase fieldType).getD fieldType) with
    | none =>
      rw [field_nested _ rfl hlookup] at h
      exact forall_of_snakeToPascal h
    | some entry =>
      have hall : ∀ prim ∈ typeMapping, prim.all (fun c => !isSpace c) = true := by decide
      have hprim : (Publisher.arrayBase fieldType).getD fieldType ∈ typeMapping := by
        by_contra hprim
        rw [lookup_primitiveTypes_none hprim] at hlookup
        cases hlookup
      intro c hc
      have hspace := List.all_eq_true.mp (hall _ hprim) c hc
      rwa [Bool.not_eq_true'] at hspace
  cases harray : Publisher.arrayBase fieldType with
  | none => rwa [harray] at hbase
  | some base =>
    rw [harray] at hbase
    rw [Publisher.arrayBase] at harray
    split at harray
    · next c cs hrev =>
      have heq := congrArg List.reverse hrev
      rw [List.reverse_reverse, List.reverse_cons, List.reverse_cons, List.append_assoc] at heq
      obtain rfl := Option.some.inj harray
      rw [heq, List.forall_mem_append]
      exact ⟨hbase, by simp [isSpace]⟩
    · cases harray

/-- A field that both sides read has no white space in its type and its name. -/
theorem noSpace_of_mem {line : Text}
    (hparsed : ∀ seg ∈ pieces (· == '\r') line,
      ∃ field, parseLine registry currentBaseName seg = .ok field)
    (h : Publisher.field fieldType fieldName ∈ written registry currentBaseName line) :
    (∀ c ∈ fieldType, isSpace c = false) ∧ ∀ c ∈ fieldName, isSpace c = false := by
  obtain ⟨T, N, info, hN, hresolve, hm⟩ := mem_written h hparsed
  obtain ⟨hname, hnested⟩ := written_noSpace hreg hresolve hm
  refine ⟨type_noSpace hnested, ?_⟩
  have hN' : fieldName = N := hname
  rwa [hN']

/-! ## Line by line -/

variable {f : MsgFile} {fields : List FieldInfo}

omit hreg in
/-- The fields of both sides, line by line. -/
theorem agree_iff_flatMap (h : parseMsgFile registry f = .ok fields) :
    fields.mapM (FieldInfo.written registry) = .ok (Publisher.parseMsgFile f).fields ↔
      (f.text.splitOn '\n').flatMap (fun line => (Publisher.parseLine line).toList) =
        (f.text.splitOn '\n').flatMap (written registry f.baseName) := by
  rw [(parseMsgFile_written h).2, Except.ok.injEq, Publisher.parseMsgFile,
    List.filterMap_eq_flatMap_toList]
  exact eq_comm

/-- If the sides agree on the file, the generator reads a field in every line in which the
publisher does. -/
theorem written_of_declares (h : parseMsgFile registry f = .ok fields)
    (hagree : (f.text.splitOn '\n').flatMap (fun line => (Publisher.parseLine line).toList) =
      (f.text.splitOn '\n').flatMap (written registry f.baseName)) :
    ∀ line ∈ f.text.splitOn '\n', ∀ fieldType gap fieldName,
      Declares line fieldType gap fieldName →
      (∀ c ∈ fieldType, isSpace c = false) ∧ (∀ c ∈ fieldName, isSpace c = false) ∧
      ∃ info m, resolveFieldInfo registry f.baseName fieldType fieldName = .ok info ∧
        info.written registry = .ok m ∧ written registry f.baseName line = [m] := by
  intro line hline fieldType gap fieldName hdecl
  have hparsed := (parseMsgFile_written h).1
  have hmem : Publisher.field fieldType fieldName ∈
      (f.text.splitOn '\n').flatMap (written registry f.baseName) := by
    rw [← hagree, List.mem_flatMap]
    refine ⟨line, hline, ?_⟩
    rw [parseLine_declares hdecl]
    exact List.mem_cons_self
  obtain ⟨other, hother, hmem⟩ := List.mem_flatMap.mp hmem
  obtain ⟨htype, hname⟩ := noSpace_of_mem hreg (hparsed other hother) hmem
  obtain ⟨info, hresolve, hwritten⟩ := written_declares hdecl htype hname (hparsed line hline)
  obtain ⟨m, hm⟩ := written_ok hresolve
  refine ⟨htype, hname, info, m, hresolve, hm, ?_⟩
  rw [hwritten, hm]
  rfl

omit hreg in
theorem written_skipped {line : Text} (h : Skipped line) :
    written registry currentBaseName line = [] := by
  rw [written, List.flatMap_eq_nil_iff]
  exact fun seg hseg => lineWritten_skips (h.2 seg hseg)

theorem written_fieldLine {line : Text} (h : FieldLine registry line)
    (hparsed : ∀ seg ∈ pieces (· == '\r') line,
      ∃ field, parseLine registry currentBaseName seg = .ok field) :
    (Publisher.parseLine line).toList = written registry currentBaseName line := by
  obtain ⟨fieldType, gap, fieldName, hdecl, htype, hname, hfixed, hshadow⟩ := h
  obtain ⟨info, hresolve, hwritten⟩ := written_declares hdecl htype hname hparsed
  rw [hwritten, written_eq_field hreg hresolve hfixed hshadow, parseLine_declares hdecl]
  rfl

/-- **The parsers agree on a file** if and only if every line of it is skipped by both or declares
a field in the plain way. -/
theorem lines_agree_iff (h : parseMsgFile registry f = .ok fields) :
    fields.mapM (FieldInfo.written registry) = .ok (Publisher.parseMsgFile f).fields ↔
      ∀ line ∈ f.text.splitOn '\n', Skipped line ∨ FieldLine registry line := by
  rw [agree_iff_flatMap h]
  have hparsed := (parseMsgFile_written h).1
  constructor
  · intro hagree
    have hfields := written_of_declares hreg h hagree
    have hle : ∀ line ∈ f.text.splitOn '\n', (Publisher.parseLine line).toList.length ≤
        (written registry f.baseName line).length := by
      intro line hline
      obtain hskip | ⟨fieldType, gap, fieldName, hdecl⟩ := publisherSkips_or_declares line
      · rw [parseLine_skips hskip]
        exact Nat.zero_le _
      · obtain ⟨-, -, info, m, -, -, hwritten⟩ := hfields line hline _ _ _ hdecl
        rw [hwritten, parseLine_declares hdecl]
        rfl
    intro line hline
    have heq := eq_of_flatMap_eq hle hagree line hline
    obtain hskip | ⟨fieldType, gap, fieldName, hdecl⟩ := publisherSkips_or_declares line
    · refine .inl ⟨hskip, ?_⟩
      intro seg hseg
      rw [parseLine_skips hskip] at heq
      have hseg' := List.flatMap_eq_nil_iff.mp heq.symm seg hseg
      obtain hskips | ⟨T, N, rest, info, hsplit, hcomment, hresolve⟩ :=
        lineWritten_cases (hparsed line hline seg hseg)
      · exact hskips
      · obtain ⟨m, hm⟩ := written_ok hresolve
        rw [lineWritten_words hsplit hcomment hresolve, hm] at hseg'
        nomatch hseg'
    · obtain ⟨htype, hname, info, m, hresolve, hm, hwritten⟩ := hfields line hline _ _ _ hdecl
      rw [hwritten, parseLine_declares hdecl] at heq
      obtain rfl : Publisher.field fieldType fieldName = m := (List.cons.inj heq).1
      obtain ⟨hfixed, hshadow⟩ := plain_of_written_eq hreg hresolve hm
      exact .inr ⟨fieldType, gap, fieldName, hdecl, htype, hname, hfixed, hshadow⟩
  · intro hlines
    refine List.flatMap_congr fun line hline => ?_
    obtain hskip | hfield := hlines line hline
    · rw [parseLine_skips hskip.1, written_skipped hskip]
      rfl
    · exact written_fieldLine hreg hfield (hparsed line hline)

omit hreg in
/-- In such a file every field of the generator is declared in the plain way. -/
theorem resolve_of_lines (h : parseMsgFile registry f = .ok fields)
    (hlines : ∀ line ∈ f.text.splitOn '\n', Skipped line ∨ FieldLine registry line) :
    ∀ info ∈ fields, ∃ fieldType fieldName,
      resolveFieldInfo registry f.baseName fieldType fieldName = .ok info ∧
        fixedArrayMatch fieldType = none ∧ Unshadowed registry fieldType := by
  intro info hinfo
  obtain ⟨line, hline, seg, hseg, hparse⟩ := mem_parseMsgFile h hinfo
  obtain hskip | ⟨T, N, rest, info', hsplit, hcomment, hresolve⟩ :=
    lineWritten_cases ⟨_, hparse⟩
  · rw [parseLine_eq] at hparse
    rcases hsplit : split seg with - | ⟨fieldType, - | ⟨fieldName, rest⟩⟩
    all_goals rw [hsplit] at hparse hskip
    · nomatch hparse
    · nomatch hparse
    · obtain hlength | hcomment := hskip
      · rw [List.length_cons, List.length_cons] at hlength
        omega
      · simp only at hparse
        rw [if_pos (by simpa using hcomment)] at hparse
        nomatch hparse
  · rw [parseLine_eq, hsplit] at hparse
    simp only at hparse
    rw [if_neg hcomment, hresolve] at hparse
    obtain rfl := Option.some.inj (Except.ok.inj hparse)
    obtain hskip | ⟨fieldType, gap, fieldName, hdecl, htype, hname, hfixed, hshadow⟩ :=
      hlines line hline
    · have hskips := hskip.2 seg hseg
      rw [hsplit] at hskips
      obtain hlength | hcomment' := hskips
      · rw [List.length_cons, List.length_cons] at hlength
        omega
      · exact absurd (by simpa using hcomment') hcomment
    · obtain hwords | hnil := (split_declares hdecl htype hname).1 seg hseg
      · rw [hsplit, List.cons.injEq] at hwords
        obtain ⟨rfl, -⟩ := hwords
        exact ⟨T, N, hresolve, hfixed, hshadow⟩
      · rw [hsplit] at hnil
        nomatch hnil

end Agree

end DzIpc.MsgFiles
