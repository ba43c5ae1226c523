import DzIpc.MsgFiles.Fields

/-!
# Lines

A text is cut into lines at `\n` by the publisher, and at `\n` and `\r` by the generator, so that
one line of the publisher is a few lines of the generator.  `written` is what the generator makes
of a line of the publisher.

* `parseMsgFile_written`: the generator's fields are what `written` gives, line by line.
* `publisherSkips_or_declares`: the publisher skips a line (`parseLine_skips`) or makes a field
  of it (`parseLine_declares`).
-/

namespace DzIpc.MsgFiles

open Generator

/-! ## The lines of the generator -/

theorem split_strip (line : Text) : split (strip line) = split line := by
  rw [split, strip, pieces_trimRight, pieces_trimLeft]
  rfl

theorem head_strip (line : Text) : (strip line).head? = (split line).head?.bind List.head? := by
  rw [split, head_pieces, strip]
  cases hd : (line.dropWhile isSpace).head? with
  | none =>
    rw [List.head?_eq_none_iff] at hd
    rw [hd]
    rfl
  | some c => exact head_rdropWhile hd (head_dropWhile hd)

/-- What the generator makes of a line is what it makes of its first two words. -/
theorem parseLine_eq (registry : Registry) (currentBaseName line : Text) :
    parseLine registry currentBaseName line =
      match split line with
      | fieldType :: fieldName :: _ =>
        if fieldType.head? = some '#' then .ok none
        else some <$> resolveFieldInfo registry currentBaseName fieldType fieldName
      | _ => .ok none := by
  rw [parseLine]
  simp only [split_strip, head_strip]
  have hempty : strip line = [] → split line = [] := by
    intro h
    rw [← split_strip, h]
    rfl
  rcases hsplit : split line with - | ⟨fieldType, - | ⟨fieldName, rest⟩⟩
  · simp
  · split <;> rfl
  · have hne : strip line ≠ [] := fun h => by simp [hempty h] at hsplit
    simp only [hne, false_or, List.head?_cons, Option.bind_some]

section Newlines

theorem universalNewlines_cons {c : Char} (hc : c ≠ '\r') (s : Text) :
    universalNewlines (c :: s) = c :: universalNewlines s := by
  rw [universalNewlines]
  · rintro t rfl
    exact absurd rfl hc
  · rintro rfl
    exact absurd rfl hc

theorem universalNewlines_append {w : Text} (hw : ∀ c ∈ w, c ≠ '\r') (s : Text) :
    universalNewlines (w ++ s) = w ++ universalNewlines s := by
  induction w with
  | nil => rfl
  | cons c w ih =>
    rw [List.forall_mem_cons] at hw
    rw [List.cons_append, universalNewlines_cons hw.1, ih hw.2]
    rfl

/-- After `\r` a line starts, behind the `\n` that may follow. -/
theorem universalNewlines_return (r : Text) :
    ∃ s, s <:+ r ∧ universalNewlines ('\r' :: r) = '\n' :: universalNewlines s ∧
      pieces (fun c => c == '\n' || c == '\r') s = pieces (fun c => c == '\n' || c == '\r') r := by
  cases r with
  | nil => exact ⟨[], List.suffix_rfl, rfl, rfl⟩
  | cons c s =>
    by_cases hc : c = '\n'
    · subst hc
      refine ⟨s, List.suffix_cons _ s, ?_, ?_⟩
      · rw [universalNewlines]
      · exact (pieces_cons_sep (by rfl)).symm
    · refine ⟨c :: s, List.suffix_rfl, ?_, rfl⟩
      rw [universalNewlines]
      rintro t heq
      exact absurd (List.cons.inj heq).1 hc

/-- The lines of the generator are the pieces of those of the publisher. -/
theorem pieces_universalNewlines (t : Text) :
    pieces (· == '\n') (universalNewlines t) =
      (pieces (· == '\n') t).flatMap (pieces (· == '\r')) := by
  rw [← pieces_or]
  induction t using sepInduction (fun c => c == '\n' || c == '\r') with
  | word w hw =>
    have hret : ∀ c ∈ w, c ≠ '\r' := fun c hc => by
      rintro rfl
      exact absurd (hw _ hc) (by decide)
    have happ := universalNewlines_append hret []
    rw [List.append_nil, universalNewlines, List.append_nil] at happ
    rw [happ]
    refine pieces_congr fun c hc => ?_
    have hsep := hw c hc
    rw [Bool.or_eq_false_iff] at hsep
    simp [hsep.1, hsep.2]
  | cut w a r hw ha ih =>
    have hret : ∀ c ∈ w, c ≠ '\r' := fun c hc => by
      rintro rfl
      exact absurd (hw _ hc) (by decide)
    have hword : pieces (· == '\n') w = pieces (fun c => c == '\n' || c == '\r') w := by
      refine pieces_congr fun c hc => ?_
      have hsep := hw c hc
      rw [Bool.or_eq_false_iff] at hsep
      simp [hsep.1, hsep.2]
    rw [universalNewlines_append hret, pieces_append_sep w r ha]
    by_cases hnl : a = '\n'
    · subst hnl
      rw [universalNewlines_cons (by decide), pieces_append_sep w _ (by rfl), hword,
        ih r List.suffix_rfl]
    · obtain rfl : a = '\r' := by simpa [hnl] using ha
      obtain ⟨s, hs, huniv, hpieces⟩ := universalNewlines_return r
      rw [huniv, pieces_append_sep w _ (by rfl), hword, ih s hs, hpieces]

end Newlines

/-! ## The fields of a line -/

/-- What the generated class writes for the field of a line. -/
def lineWritten (registry : Registry) (currentBaseName line : Text) : List MsgField :=
  match parseLine registry currentBaseName line with
  | .ok (some info) => (info.written registry).toOption.toList
  | _ => []

/-- What it writes for a line of the publisher. -/
def written (registry : Registry) (currentBaseName line : Text) : List MsgField :=
  (pieces (· == '\r') line).flatMap (lineWritten registry currentBaseName)

section Written

variable {registry : Registry} {currentBaseName line : Text} {fields : List FieldInfo}

theorem parseLine_ok {info : FieldInfo}
    (h : parseLine registry currentBaseName line = .ok (some info)) :
    ∃ fieldType fieldName, resolveFieldInfo registry currentBaseName fieldType fieldName =
      .ok info := by
  rw [parseLine_eq] at h
  split at h
  · next fieldType fieldName rest hsplit =>
    split_ifs at h
    · nomatch h
    cases hresolve : resolveFieldInfo registry currentBaseName fieldType fieldName with
    | error e =>
      rw [hresolve] at h
      nomatch h
    | ok field =>
      rw [hresolve] at h
      obtain rfl := Option.some.inj (Except.ok.inj h)
      exact ⟨fieldType, fieldName, hresolve⟩
  · nomatch h

theorem parseLines_written {lines : List Text}
    (h : parseLines registry currentBaseName lines = .ok fields) :
    (∀ line ∈ lines, ∃ field, parseLine registry currentBaseName line = .ok field) ∧
      fields.mapM (FieldInfo.written registry) =
        .ok (lines.flatMap (lineWritten registry currentBaseName)) := by
  induction lines generalizing fields with
  | nil =>
    obtain rfl : [] = fields := Except.ok.inj h
    exact ⟨by simp, rfl⟩
  | cons line lines ih =>
    rw [parseLines] at h
    cases hline : parseLine registry currentBaseName line with
    | error e =>
      rw [hline] at h
      nomatch h
    | ok field =>
      cases hlines : parseLines registry currentBaseName lines with
      | error e =>
        rw [hline, hlines] at h
        nomatch h
      | ok rest =>
        rw [hline, hlines] at h
        obtain rfl : field.toList ++ rest = fields := Except.ok.inj h
        obtain ⟨hparsed, hwritten⟩ := ih hlines
        refine ⟨List.forall_mem_cons.mpr ⟨⟨field, hline⟩, hparsed⟩, ?_⟩
        rw [List.flatMap_cons, lineWritten, hline]
        cases field with
        | none => exact hwritten
        | some info =>
          obtain ⟨fieldType, fieldName, hresolve⟩ := parseLine_ok hline
          obtain ⟨m, hm⟩ := written_ok hresolve
          rw [Option.toList_some, List.singleton_append, List.mapM_cons, hm, hwritten]
          simp only [hm]
          rfl

theorem mem_parseLines {lines : List Text} {info : FieldInfo}
    (h : parseLines registry currentBaseName lines = .ok fields) (hinfo : info ∈ fields) :
    ∃ line ∈ lines, parseLine registry currentBaseName line = .ok (some info) := by
  induction lines generalizing fields with
  | nil =>
    obtain rfl : [] = fields := Except.ok.inj h
    simp at hinfo
  | cons line lines ih =>
    rw [parseLines] at h
    cases hline : parseLine registry currentBaseName line with
    | error e =>
      rw [hline] at h
      nomatch h
    | ok field =>
      cases hlines : parseLines registry currentBaseName lines with
      | error e =>
        rw [hline, hlines] at h
        nomatch h
      | ok rest =>
        rw [hline, hlines] at h
        obtain rfl : field.toList ++ rest = fields := Except.ok.inj h
        rcases List.mem_append.mp hinfo with hfield | hrest
        · rw [Option.mem_toList] at hfield
          exact ⟨line, List.mem_cons_self, by rw [hline, Option.mem_def.mp hfield]⟩
        · obtain ⟨other, hother, hparse⟩ := ih hlines hrest
          exact ⟨other, List.mem_cons_of_mem line hother, hparse⟩

/-- Every field of the generator comes from a piece of a line of the publisher. -/
theorem mem_parseMsgFile {f : MsgFile} {info : FieldInfo}
    (h : parseMsgFile registry f = .ok fields) (hinfo : info ∈ fields) :
    ∃ line ∈ f.text.splitOn '\n', ∃ seg ∈ pieces (· == '\r') line,
      parseLine registry f.baseName seg = .ok (some info) := by
  obtain ⟨seg, hseg, hparse⟩ := mem_parseLines h hinfo
  have hne : seg ≠ [] := by
    rintro rfl
    nomatch hparse
  have hpiece : seg ∈ pieces (· == '\n') (universalNewlines f.text) :=
    List.mem_filter.mpr ⟨hseg, by simp [hne]⟩
  rw [pieces_universalNewlines, List.mem_flatMap] at hpiece
  obtain ⟨line, hline, hpiece⟩ := hpiece
  exact ⟨line, List.mem_of_mem_filter hline, seg, hpiece, hparse⟩

/-- The generator's fields, line by line of the publisher; and it refuses none of the lines. -/
theorem parseMsgFile_written {f : MsgFile} (h : parseMsgFile registry f = .ok fields) :
    (∀ line ∈ f.text.splitOn '\n', ∀ seg ∈ pieces (· == '\r') line,
      ∃ field, parseLine registry f.baseName seg = .ok field) ∧
      fields.mapM (FieldInfo.written registry) =
        .ok ((f.text.splitOn '\n').flatMap (written registry f.baseName)) := by
  obtain ⟨hparsed, hwritten⟩ := parseLines_written h
  constructor
  · intro line hline seg hseg
    have hmem : seg ∈ pieces (· == '\n') (universalNewlines f.text) := by
      rw [pieces_universalNewlines, List.mem_flatMap]
      refine ⟨line, List.mem_filter.mpr ⟨hline, ?_⟩, hseg⟩
      cases line with
      | nil => simp at hseg
      | cons c cs => rfl
    exact hparsed seg (List.mem_of_mem_filter hmem)
  · rw [hwritten, readlines, List.splitOn, List.splitOn,
      ← flatMap_pieces (f := lineWritten registry f.baseName) rfl, pieces_universalNewlines,
      List.flatMap_assoc, ← flatMap_pieces (f := written registry f.baseName) rfl]
    rfl

end Written

/-! ## The lines of the publisher -/

/-- A line of which the publisher makes nothing: a comment, or one word at most. -/
def PublisherSkips (line : Text) : Prop :=
  (Publisher.content line).head? = some '#' ∨
    ∀ c ∈ Publisher.content line, Publisher.isBlank c = false

/-- A type, blanks, and a name, which may have blanks in it. -/
structure Declares (line fieldType gap fieldName : Text) : Prop where
  content : Publisher.content line = fieldType ++ gap ++ fieldName
  typeChars : ∀ c ∈ fieldType, Publisher.isBlank c = false
  gapChars : ∀ c ∈ gap, Publisher.isBlank c = true
  type_ne : fieldType ≠ []
  gap_ne : gap ≠ []
  name_ne : fieldName ≠ []
  name_head : ∀ c, fieldName.head? = some c → Publisher.isBlank c = false
  comment : fieldType.head? ≠ some '#'

section Publisher

variable {line fieldType gap fieldName : Text}

/-- `content` does not end in a blank. -/
theorem not_blank_of_content {l w : Text} (h : Publisher.content line = l ++ w) (hne : w ≠ []) :
    ∃ c ∈ w, Publisher.isBlank c = false := by
  refine ⟨w.getLast hne, List.getLast_mem hne, ?_⟩
  have hcne : Publisher.content line ≠ [] := by
    rw [h]
    exact List.append_ne_nil_of_right_ne_nil l hne
  have hlast : (Publisher.content line).getLast hcne = w.getLast hne := by
    simp only [h]
    exact List.getLast_append_of_right_ne_nil l w hne
  have htrail := List.rdropWhile_last_not Publisher.isTrailing
    (line.dropWhile Publisher.isBlank) hcne
  have hblank : Publisher.isTrailing (w.getLast hne) = false := by
    rw [← hlast]
    exact (Bool.not_eq_true _).mp htrail
  rw [Publisher.isTrailing, Bool.or_eq_false_iff] at hblank
  exact hblank.1

theorem content_prefix (line : Text) :
    Publisher.content line <+: line.dropWhile Publisher.isBlank :=
  List.rdropWhile_prefix _ _

/-- `content` starts where the blanks end. -/
theorem head_content {c : Char} (h : (Publisher.content line).head? = some c) :
    (line.dropWhile Publisher.isBlank).head? = some c ∧ Publisher.isBlank c = false := by
  have hhead : (line.dropWhile Publisher.isBlank).head? = some c := by
    obtain ⟨r, hr⟩ := content_prefix line
    rw [← hr, List.head?_append, h]
    rfl
  exact ⟨hhead, head_dropWhile hhead⟩

theorem publisherSkips_or_declares (line : Text) :
    PublisherSkips line ∨ ∃ fieldType gap fieldName, Declares line fieldType gap fieldName := by
  by_cases hcomment : (Publisher.content line).head? = some '#'
  · exact .inl (.inl hcomment)
  obtain hnone | ⟨w, b, r, hcontent, hw, hb⟩ :=
    exists_sep Publisher.isBlank (Publisher.content line)
  · exact .inl (.inr hnone)
  right
  have hne : w ≠ [] := by
    rintro rfl
    have hhead := head_content (c := b) (by rw [hcontent]; rfl)
    rw [hb] at hhead
    exact absurd hhead.2 (by simp)
  refine ⟨w, b :: r.takeWhile Publisher.isBlank, r.dropWhile Publisher.isBlank, ?_, hw, ?_, hne,
    List.cons_ne_nil _ _, ?_, fun c hc => head_dropWhile hc, ?_⟩
  · rw [hcontent, List.append_assoc, List.cons_append, List.takeWhile_append_dropWhile]
  · exact List.forall_mem_cons.mpr ⟨hb, fun c hc => List.mem_takeWhile_imp hc⟩
  · intro hnil
    obtain ⟨c, hc, hblank⟩ := not_blank_of_content hcontent (List.cons_ne_nil b r)
    rw [List.dropWhile_eq_nil_iff] at hnil
    rcases List.mem_cons.mp hc with rfl | hc
    · rw [hb] at hblank
      exact absurd hblank (by simp)
    · rw [hnil c hc] at hblank
      exact absurd hblank (by simp)
  · intro hhead
    apply hcomment
    rw [hcontent, List.head?_append, hhead]
    rfl

theorem parseLine_skips (h : PublisherSkips line) : Publisher.parseLine line = none := by
  rw [Publisher.parseLine]
  simp only
  split_ifs with hskip
  · rfl
  · rw [not_or] at hskip
    obtain hcomment | hnone := h
    · exact absurd (head_content hcomment).1 hskip.2
    · have hdrop : (Publisher.content line).dropWhile (!Publisher.isBlank ·) = [] := by
        rw [List.dropWhile_eq_nil_iff]
        intro c hc
        rw [hnone c hc]
        rfl
      rw [Publisher.content] at hdrop
      rw [hdrop]

theorem parseLine_declares (h : Declares line fieldType gap fieldName) :
    Publisher.parseLine line = some (Publisher.field fieldType fieldName) := by
  have hcontent := h.content
  obtain ⟨c, cs, rfl⟩ := List.exists_cons_of_ne_nil h.type_ne
  obtain ⟨b, bs, rfl⟩ := List.exists_cons_of_ne_nil h.gap_ne
  have hhead := (head_content (c := c) (by rw [hcontent]; rfl)).1
  have hne : line.dropWhile Publisher.isBlank ≠ [] := by
    intro hnil
    rw [hnil] at hhead
    nomatch hhead
  have hskip : ¬(line.dropWhile Publisher.isBlank = [] ∨
      (line.dropWhile Publisher.isBlank).head? = some '#') := by
    rw [not_or, hhead]
    exact ⟨hne, h.comment⟩
  have hword : ∀ x ∈ c :: cs, (!Publisher.isBlank x) = true := fun x hx => by
    rw [h.typeChars x hx]
    rfl
  have hb : (!Publisher.isBlank b) = false := by
    rw [h.gapChars b List.mem_cons_self]
    rfl
  have hgap : (b :: bs ++ fieldName).takeWhile (!Publisher.isBlank ·) = [] := by
    rw [List.cons_append, List.takeWhile_cons_of_neg (by rw [hb]; simp)]
  have htake : (Publisher.content line).takeWhile (!Publisher.isBlank ·) = c :: cs := by
    rw [hcontent, List.append_assoc, List.takeWhile_append_of_pos hword, hgap, List.append_nil]
  have hdrop : (Publisher.content line).dropWhile (!Publisher.isBlank ·) =
      b :: (bs ++ fieldName) := by
    rw [hcontent, List.append_assoc, List.dropWhile_append_of_pos hword, List.cons_append,
      List.dropWhile_cons_of_neg (by rw [hb]; simp)]
  have hname : (bs ++ fieldName).dropWhile Publisher.isBlank = fieldName := by
    rw [List.dropWhile_append_of_pos fun x hx => h.gapChars x (List.mem_cons_of_mem b hx)]
    obtain ⟨n, ns, rfl⟩ := List.exists_cons_of_ne_nil h.name_ne
    rw [List.dropWhile_cons_of_neg (by rw [h.name_head n rfl]; simp)]
  rw [Publisher.content] at htake hdrop
  rw [Publisher.parseLine]
  simp only
  rw [if_neg hskip, hdrop]
  simp only
  rw [htake, hname, if_neg (by simp [h.name_ne])]

/-- A line is its `content`, with blanks before it and blanks and `\r` behind it. -/
theorem content_spec (line : Text) : ∃ front back, line = front ++ Publisher.content line ++ back ∧
    (∀ c ∈ front, Publisher.isBlank c = true) ∧ ∀ c ∈ back, Publisher.isTrailing c = true := by
  refine ⟨line.takeWhile Publisher.isBlank,
    (line.dropWhile Publisher.isBlank).rtakeWhile Publisher.isTrailing, ?_,
    fun c hc => List.mem_takeWhile_imp hc, fun c hc => List.mem_rtakeWhile_imp hc⟩
  rw [List.append_assoc, Publisher.content, List.rdropWhile_append_rtakeWhile,
    List.takeWhile_append_dropWhile]

end Publisher

end DzIpc.MsgFiles
