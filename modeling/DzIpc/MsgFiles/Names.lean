import DzIpc.MsgFiles.Publisher

/-!
# Names of files and classes

The generator and the publisher turn the name of a file into the name of its class by two
functions.  They agree on the names that the generator takes (`snakeToPascal_eq`), and the
publisher's leaves the name of a class as it is (`snakeToPascal_className`).

`lookup_buildMsgTypeRegistry`: what the registry holds for a name is a file of the set, of that
name or of that class.
-/

namespace DzIpc.MsgFiles

open Generator

/-! ## Characters -/

theorem forall_ascii {P : Char → Prop} (h : ∀ n < 128, P (Char.ofNat n)) {c : Char}
    (hc : c.toNat < 128) : P c := by
  have hP := h c.toNat hc
  rwa [Char.ofNat_toNat] at hP

theorem lt_of_isSpace {c : Char} (h : isSpace c = true) : c.toNat < 128 := by
  simp only [isSpace, Bool.or_eq_true, Bool.and_eq_true, decide_eq_true_eq] at h
  omega

theorem toUpper_of_isSpace {c : Char} (h : isSpace c = true) : c.toUpper = c := by
  have hall : ∀ n < 128, isSpace (Char.ofNat n) = true → (Char.ofNat n).toUpper = Char.ofNat n := by
    decide
  exact forall_ascii (P := fun c => isSpace c = true → c.toUpper = c) hall (lt_of_isSpace h) h

/-- The characters of the name of a file. -/
def isNameChar (c : Char) : Bool := c.isLower || c.isDigit || c = '_'

theorem lt_of_isNameChar {c : Char} (h : isNameChar c = true) : c.toNat < 128 := by
  have hval : c.toNat = c.val.toNat := rfl
  have hlower : c.isLower = (decide (c.val ≥ 'a'.val) && decide (c.val ≤ 'z'.val)) := rfl
  simp only [isNameChar, hlower, Char.isDigit, Bool.or_eq_true, Bool.and_eq_true,
    decide_eq_true_eq, ge_iff_le, UInt32.le_iff_toNat_le] at h
  obtain (⟨-, h⟩ | ⟨-, h⟩) | h := h
  · have : 'z'.val.toNat = 122 := rfl
    omega
  · have : '9'.val.toNat = 57 := rfl
    omega
  · subst h
    decide

/-- What matters of a character of a name. -/
structure NameChar (c : Char) : Prop where
  toLower : c.toLower = c
  space : isSpace c = false
  upperSpace : isSpace c.toUpper = false
  upper : c.toUpper.toUpper = c.toUpper
  upperUnderscore : c.toUpper = '_' → c = '_'

theorem nameChar {c : Char} (h : isNameChar c = true) : NameChar c := by
  have hall : ∀ n < 128, isNameChar (Char.ofNat n) = true →
      (Char.ofNat n).toLower = Char.ofNat n ∧ isSpace (Char.ofNat n) = false ∧
        isSpace (Char.ofNat n).toUpper = false ∧
        (Char.ofNat n).toUpper.toUpper = (Char.ofNat n).toUpper ∧
        ((Char.ofNat n).toUpper = '_' → Char.ofNat n = '_') := by
    decide
  obtain ⟨h1, h2, h3, h4, h5⟩ := forall_ascii (P := fun c => isNameChar c = true →
    c.toLower = c ∧ isSpace c = false ∧ isSpace c.toUpper = false ∧
      c.toUpper.toUpper = c.toUpper ∧ (c.toUpper = '_' → c = '_')) hall (lt_of_isNameChar h) h
  exact ⟨h1, h2, h3, h4, h5⟩

/-! ## Two ways to Pascal case -/

section Pascal

variable {name w r : Text}

theorem snakeToPascalLoop_append (capitalize : Bool) (w r : Text) (hw : '_' ∉ w) :
    Publisher.snakeToPascalLoop capitalize (w ++ '_' :: r) =
      Publisher.snakeToPascalLoop capitalize w ++ Publisher.snakeToPascalLoop true r := by
  induction w generalizing capitalize with
  | nil => simp [Publisher.snakeToPascalLoop]
  | cons c w ih =>
    rw [List.mem_cons, not_or] at hw
    have hc : c ≠ '_' := fun h => hw.1 h.symm
    cases capitalize <;> simp [Publisher.snakeToPascalLoop, hc, ih _ hw.2]

theorem snakeToPascalLoop_false (hw : '_' ∉ w) : Publisher.snakeToPascalLoop false w = w := by
  induction w with
  | nil => rfl
  | cons c w ih =>
    rw [List.mem_cons, not_or] at hw
    have hc : c ≠ '_' := fun h => hw.1 h.symm
    simp [Publisher.snakeToPascalLoop, hc, ih hw.2]

theorem snakeToPascal_word (hw : '_' ∉ w) (hlower : ∀ c ∈ w, c.toLower = c) :
    Publisher.snakeToPascal w = capitalize w := by
  cases w with
  | nil => rfl
  | cons c w =>
    rw [List.mem_cons, not_or] at hw
    rw [List.forall_mem_cons] at hlower
    have hc : c ≠ '_' := fun h => hw.1 h.symm
    have hmap : w.map Char.toLower = w := (List.map_congr_left hlower.2).trans (List.map_id w)
    simp [Publisher.snakeToPascal, Publisher.snakeToPascalLoop, hc,
      snakeToPascalLoop_false hw.2, capitalize, hmap]

theorem snakeToPascal_eq (hname : ∀ c ∈ name, isNameChar c = true) :
    Publisher.snakeToPascal name = snakeToPascal name := by
  induction name using sepInduction (· = '_') with
  | word w hw =>
    have hmem : '_' ∉ w := fun h => by simpa using hw _ h
    rw [snakeToPascal_word hmem fun c hc => (nameChar (hname c hc)).toLower, snakeToPascal]
    by_cases hne : w = []
    · subst hne
      rfl
    · rw [pieces_word hw hne]
      simp
  | cut w a r hw ha ih =>
    obtain rfl : a = '_' := by simpa using ha
    have hmem : '_' ∉ w := fun h => by simpa using hw _ h
    have hword := snakeToPascal_word hmem fun c hc => (nameChar (hname c (by simp [hc]))).toLower
    have hrest := ih r List.suffix_rfl fun c hc => hname c (by simp [hc])
    rw [Publisher.snakeToPascal, snakeToPascalLoop_append true w r hmem, snakeToPascal,
      pieces_append_sep w r (by simp), List.flatMap_append]
    rw [Publisher.snakeToPascal] at hword hrest
    rw [hword, hrest, snakeToPascal]
    congr 1
    by_cases hne : w = []
    · subst hne
      rfl
    · rw [pieces_word hw hne]
      simp

/-- Where the characters of a class name come from. -/
theorem mem_snakeToPascalLoop {capitalize : Bool} {d : Char}
    (h : d ∈ Publisher.snakeToPascalLoop capitalize name) :
    ∃ c ∈ name, c ≠ '_' ∧ (d = c ∨ d = c.toUpper) := by
  induction name generalizing capitalize with
  | nil => simp [Publisher.snakeToPascalLoop] at h
  | cons c s ih =>
    have hrest : ∀ b, d ∈ Publisher.snakeToPascalLoop b s →
        ∃ e ∈ c :: s, e ≠ '_' ∧ (d = e ∨ d = e.toUpper) := by
      intro b hb
      obtain ⟨e, he, hd⟩ := ih hb
      exact ⟨e, List.mem_cons_of_mem c he, hd⟩
    rw [Publisher.snakeToPascalLoop] at h
    split_ifs at h with hc hcap
    · exact hrest _ h
    · rcases List.mem_cons.mp h with rfl | h
      · exact ⟨c, List.mem_cons_self, hc, .inr rfl⟩
      · exact hrest _ h
    · rcases List.mem_cons.mp h with rfl | h
      · exact ⟨d, List.mem_cons_self, hc, .inl rfl⟩
      · exact hrest _ h

/-- A character other than `_` is in the class name, it or its upper case. -/
theorem mem_or_toUpper_mem (capitalize : Bool) {c : Char} (h : c ∈ name) (hc : c ≠ '_') :
    c ∈ Publisher.snakeToPascalLoop capitalize name ∨
      c.toUpper ∈ Publisher.snakeToPascalLoop capitalize name := by
  induction name generalizing capitalize with
  | nil => simp at h
  | cons d s ih =>
    rw [Publisher.snakeToPascalLoop]
    rcases List.mem_cons.mp h with rfl | h
    · cases capitalize <;> simp [hc]
    · split_ifs
      · exact ih true h
      · exact (ih false h).imp (List.mem_cons_of_mem _) (List.mem_cons_of_mem _)
      · exact (ih capitalize h).imp (List.mem_cons_of_mem _) (List.mem_cons_of_mem _)

/-- The publisher finds white space in a class name if there is some in what it made it from. -/
theorem forall_of_snakeToPascal
    (h : ∀ c ∈ Publisher.snakeToPascal name, isSpace c = false) :
    ∀ c ∈ name, isSpace c = false := by
  intro c hc
  by_contra hspace
  rw [Bool.not_eq_false] at hspace
  have hne : c ≠ '_' := by
    rintro rfl
    exact absurd hspace (by decide)
  have hupper := toUpper_of_isSpace hspace
  rcases mem_or_toUpper_mem true hc hne with hmem | hmem
  · have := h c hmem
    simp [hspace] at this
  · rw [hupper] at hmem
    have := h c hmem
    simp [hspace] at this

theorem head_snakeToPascal {d : Char} (h : (Publisher.snakeToPascal name).head? = some d) :
    ∃ c ∈ name, d = c.toUpper := by
  induction name with
  | nil => simp [Publisher.snakeToPascal, Publisher.snakeToPascalLoop] at h
  | cons c s ih =>
    rw [Publisher.snakeToPascal, Publisher.snakeToPascalLoop] at h
    split_ifs at h with hc
    · obtain ⟨e, he, hd⟩ := ih h
      exact ⟨e, List.mem_cons_of_mem c he, hd⟩
    · rw [List.head?_cons, Option.some.injEq] at h
      exact ⟨c, List.mem_cons_self, h.symm⟩
    · contradiction

theorem snakeToPascal_className (hname : ∀ c ∈ name, isNameChar c = true) :
    Publisher.snakeToPascal (snakeToPascal name) = snakeToPascal name := by
  rw [← snakeToPascal_eq hname]
  have hmem : '_' ∉ Publisher.snakeToPascal name := by
    intro h
    obtain ⟨c, hc, hne, rfl | hd⟩ := mem_snakeToPascalLoop h
    · exact hne rfl
    · exact hne ((nameChar (hname c hc)).upperUnderscore hd.symm)
  cases hs : Publisher.snakeToPascal name with
  | nil => rfl
  | cons d t =>
    rw [hs, List.mem_cons, not_or] at hmem
    obtain ⟨c, hc, rfl⟩ := head_snakeToPascal (by rw [hs, List.head?_cons])
    have hne : c.toUpper ≠ '_' := fun h => hmem.1 h.symm
    simp [Publisher.snakeToPascal, Publisher.snakeToPascalLoop, hne,
      snakeToPascalLoop_false hmem.2, (nameChar (hname c hc)).upper]

theorem snakeToPascal_noSpace (hname : ∀ c ∈ name, isNameChar c = true) :
    ∀ c ∈ snakeToPascal name, isSpace c = false := by
  rw [← snakeToPascal_eq hname]
  intro d hd
  obtain ⟨c, hc, -, rfl | rfl⟩ := mem_snakeToPascalLoop hd
  · exact (nameChar (hname d hc)).space
  · exact (nameChar (hname c hc)).upperSpace

end Pascal

/-! ## The registry -/

theorem isNameChar_of_matchesBaseName {name : Text} (h : matchesBaseName name = true) :
    ∀ c ∈ name, isNameChar c = true := by
  cases name with
  | nil => simp
  | cons c s =>
    rw [matchesBaseName, Bool.and_eq_true, List.all_eq_true] at h
    rw [List.forall_mem_cons]
    refine ⟨?_, h.2⟩
    simp [isNameChar, h.1]

theorem snakeToPascal_ne_nil {name : Text} (h : matchesBaseName name = true) :
    snakeToPascal name ≠ [] := by
  rw [← snakeToPascal_eq (isNameChar_of_matchesBaseName h)]
  cases name with
  | nil => exact absurd h (by decide)
  | cons c s =>
    rw [matchesBaseName, Bool.and_eq_true] at h
    have hne : c ≠ '_' := by
      rintro rfl
      exact absurd h.1 (by decide)
    simp [Publisher.snakeToPascal, Publisher.snakeToPascalLoop, hne]

/-- The entry of a file, for its name or for its class. -/
def Registered (files : List MsgFile) (key : Text) (info : NestedTypeInfo) : Prop :=
  ∃ f ∈ files, matchesBaseName f.baseName = true ∧
    info = nestedTypeInfo f (snakeToPascal f.baseName) ∧
    (key = f.baseName ∨ key = snakeToPascal f.baseName)

theorem registerFiles_sound {registry result : Registry} {files : List MsgFile}
    (h : registerFiles registry files = .ok result) :
    ∀ e ∈ result, e ∈ registry ∨ Registered files e.1 e.2 := by
  induction files generalizing registry with
  | nil =>
    obtain rfl : registry = result := Except.ok.inj h
    exact fun e he => .inl he
  | cons f files ih =>
    intro e he
    rw [registerFiles, snakeToPascalChecked] at h
    split_ifs at h with hname
    · have hrest := ih h e he
      simp only [List.mem_cons] at hrest
      obtain (rfl | rfl | hmem) | ⟨g, hg, hreg⟩ := hrest
      · exact .inr ⟨f, List.mem_cons_self, hname, rfl, .inr rfl⟩
      · exact .inr ⟨f, List.mem_cons_self, hname, rfl, .inl rfl⟩
      · exact .inl hmem
      · exact .inr ⟨g, List.mem_cons_of_mem f hg, hreg⟩
    · nomatch h

theorem lookup_buildMsgTypeRegistry {files : List MsgFile} {registry : Registry}
    (h : buildMsgTypeRegistry files = .ok registry) {key : Text} {info : NestedTypeInfo}
    (hlookup : registry.lookup key = some info) : Registered files key info := by
  obtain ⟨l₁, l₂, heq, -⟩ := List.lookup_eq_some_iff.mp hlookup
  have hmem : (key, info) ∈ registry := by
    rw [heq]
    simp
  obtain hnil | hreg := registerFiles_sound h _ hmem
  · simp at hnil
  · exact hreg

namespace Registered

variable {files : List MsgFile} {key : Text} {info : NestedTypeInfo}

/-- The publisher's name for the class of an entry is the generator's. -/
theorem className (h : Registered files key info) :
    info.className = Publisher.snakeToPascal key := by
  obtain ⟨f, -, hname, rfl, rfl | rfl⟩ := h
  · exact (snakeToPascal_eq (isNameChar_of_matchesBaseName hname)).symm
  · exact (snakeToPascal_className (isNameChar_of_matchesBaseName hname)).symm

theorem noSpace (h : Registered files key info) : ∀ c ∈ info.className, isSpace c = false := by
  obtain ⟨f, -, hname, rfl, -⟩ := h
  exact snakeToPascal_noSpace (isNameChar_of_matchesBaseName hname)

theorem className_ne_nil (h : Registered files key info) : info.className ≠ [] := by
  obtain ⟨f, -, hname, rfl, -⟩ := h
  exact snakeToPascal_ne_nil hname

/-- An entry has a name. -/
theorem key_ne_nil (h : Registered files key info) : key ≠ [] := by
  obtain ⟨f, -, hname, rfl, rfl | rfl⟩ := h
  · intro hnil
    rw [hnil] at hname
    exact absurd hname (by decide)
  · exact snakeToPascal_ne_nil hname

end Registered

end DzIpc.MsgFiles
