import DzIpc.Flat.BuilderSound

/-!
# What a reader sees of what was built

Of what the calls of builders have stored, some bytes may not be known: elements of an array of
numbers nobody has written, and members of records that were not cleared.  All the rest is what
the view of the finalized segment reads.

* `Access.stored` is what a chain of accessors should read, from what the calls have stored.
* `Loan.Onward` is what no call takes back.
* `view_of_finalize`: what should be read is what is read.
-/

namespace DzIpc.Flat

open Wire Blocks

/-! ## What was stored -/

namespace Loan

variable (s : Loan)

/-- The bytes that are stored in a slot, where all of them are known. -/
def content (p : ℕ) : Option (List UInt8) :=
  match s.cell p with
  | .bytes known => everything known
  | .ref _ _ => none

/-- The reference that is stored in a slot. -/
def target (p : ℕ) : Option (ℕ × ℕ) :=
  match s.cell p with
  | .ref off cnt => some (off, cnt)
  | .bytes _ => none

/-- The bytes that the reference in a slot leads to. -/
def follow (p : ℕ) : Option (List UInt8) := do
  let (off, cnt) ← s.target p
  if cnt = 0 then some [] else s.content off

end Loan

/-- What was stored for an accessor of a field at `at'`. -/
def Kind.storedAt (s : Loan) (at' : ℕ) : Kind → Accessor → Option (List UInt8)
  | .string, _ | .scalars _ none, _ | .bools none, _ => s.follow at'
  | .strings _, .value => (s.target at').map fun r => le32 r.2
  | .strings _, .item i => do
      let (off, cnt) ← s.target at'
      if i ≥ cnt then some [] else s.follow (off + i * varRefSize)
  | _, _ => s.content at'

/-- What was stored for a chain of accessors.  Nothing is said of the bytes of whole records. -/
def Access.stored (s : Loan) : {S : Schema} → (base cur : ℕ) → Access S → Option (List UInt8)
  | .field _ k _, base, cur, .field a => Kind.storedAt s (base + alignTo cur (memberAlign k)) k a
  | .field _ k _, base, cur, .fieldRest a =>
      a.stored s base (alignTo cur (memberAlign k) + memberSize k)
  | .nested _ _ _, base, cur, .nested inner => inner.stored s (base + alignTo cur rootAlign) 0
  | .nested _ msg _, base, cur, .nestedRest a =>
      a.stored s base (alignTo cur rootAlign + rootSize msg)
  | .nestedArray _ _ _ _, base, cur, .count =>
      (s.target (base + alignTo cur varRefAlign)).map fun r => le32 r.2
  | .nestedArray _ _ _ _, _, _, .raw => none
  | .nestedArray _ _ msg _, base, cur, .elem i inner => do
      let (off, cnt) ← s.target (base + alignTo cur varRefAlign)
      if i ≥ cnt then some [] else inner.stored s (off + i * rootSize msg) 0
  | .nestedArray _ _ _ _, base, cur, .arrayRest a =>
      a.stored s base (alignTo cur varRefAlign + varRefSize)

/-! ## What is read -/

/-- The reader reads the segment behind its header. -/
structure Reader.Reads (rd : Reader) (s : Loan) : Prop where
  size : rd.size = s.w.cur
  same : ∀ i, segHeaderSize ≤ i → rd.seg[i]? = s.w.seg[i]?

section

variable {rd : Reader} {s : Loan} {p : ℕ} {m : Member}

theorem cell_of_content {bytes : List UInt8} (h : s.content p = some bytes) :
    s.cell p = .bytes (bytes.map some) := by
  unfold Loan.content at h
  split at h
  · rename_i known hc
    rw [hc, eq_map_of_everything h]
  · cases h

theorem cell_of_target {off cnt : ℕ} (h : s.target p = some (off, cnt)) :
    s.cell p = .ref off cnt := by
  unfold Loan.target at h
  split at h
  · rename_i off' cnt' hc
    cases h
    exact hc
  · cases h

/-- The bytes of a slot are read as its cell tells them. -/
theorem slice_of_slot (h : s.Sound) (hrd : rd.Reads s) (hx : (p, m) ∈ s.slots) {bytes : List UInt8}
    (hc : (s.cell p).expected = bytes.map some) :
    bytes.length = m.size ∧ p + m.size ≤ rd.size ∧ slice p m.size rd.seg = bytes := by
  obtain ⟨hstart, hend⟩ := h.inside _ hx
  have hfits : (s.cell p).expected.length = m.size := (h.fits _ hx).length
  have hlen : bytes.length = m.size := by
    rw [← hfits, hc, List.length_map]
  have hknows : Knows s.w.seg p (s.cell p).expected := h.knows _ hx
  have hknows' : Knows rd.seg p (bytes.map some) := by
    rw [← hc]
    exact hknows.congr fun i hi _ => hrd.same i (hstart.trans hi)
  refine ⟨hlen, hrd.size ▸ hend, ?_⟩
  rw [← hlen]
  exact hknows'.slice_eq

theorem load_content (h : s.Sound) (hrd : rd.Reads s) (hx : (p, m) ∈ s.slots) {bytes : List UInt8}
    (hc : s.content p = some bytes) : rd.load p m.size = .ok bytes := by
  have hcell : (s.cell p).expected = bytes.map some := by
    rw [cell_of_content hc]
    rfl
  obtain ⟨-, hend, hslice⟩ := slice_of_slot h hrd hx hcell
  rw [Reader.load_eq hend, hslice]

theorem loadRef_target (h : s.Sound) (hrd : rd.Reads s) (hx : (p, m) ∈ s.slots) {off cnt : ℕ}
    (hc : s.target p = some (off, cnt)) : rd.loadRef p = .ok { off, cnt } := by
  have hcell := cell_of_target hc
  have hfits : (s.cell p).Fits m := h.fits _ hx
  have hexpected : (s.cell p).expected = (le32 off ++ le32 cnt).map some := by
    rw [hcell]
    rfl
  obtain ⟨hlen, hend, hslice⟩ := slice_of_slot h hrd hx hexpected
  rw [hcell] at hfits
  rw [Member.size_of_isRef hfits.1] at hend hslice
  exact Reader.loadRef_eq hend hslice hfits.2.1 hfits.2.2

/-- A reference that was stored passes the check. -/
theorem asSpan_of_leads (hrd : rd.Reads s) (hm : m.Narrow) (hpos : 0 < m.elemSize) {off cnt : ℕ}
    (hleads : 0 < cnt → s.Leads m off cnt) :
    rd.asSpan { off, cnt } m.elemSize = if cnt = 0 then (0, 0) else (off, cnt) := by
  unfold Reader.asSpan
  dsimp only
  by_cases hzero : cnt = 0
  · rw [if_pos hzero, if_pos hzero]
  · obtain ⟨hstart, hstop, -⟩ := hleads (Nat.pos_of_ne_zero hzero)
    have hheader : 0 < segHeaderSize := by decide
    have hbytes : 0 < cnt * m.elemSize := Nat.mul_pos (Nat.pos_of_ne_zero hzero) hpos
    have hin : rd.inBounds off cnt m.elemSize = true :=
      Reader.inBounds_eq (by omega) hbytes (hrd.size ▸ hstop)
    rw [if_neg hzero, if_neg hzero, u32_of_lt (Loan.elemSize_lt hm), if_pos hin]

theorem elemAt_of_leads (hrd : rd.Reads s) (hm : m.Narrow) (hpos : 0 < m.elemSize) {off cnt : ℕ}
    (hleads : 0 < cnt → s.Leads m off cnt) (i : ℕ) :
    rd.elemAt { off, cnt } m.elemSize i = if i ≥ cnt then none else some (off + i * m.elemSize) := by
  unfold Reader.elemAt
  dsimp only
  by_cases hi : i ≥ cnt
  · rw [if_pos hi, if_pos hi]
  · obtain ⟨hstart, hstop, -⟩ := hleads (by omega)
    have hheader : 0 < segHeaderSize := by decide
    have hbytes : 0 < cnt * m.elemSize := Nat.mul_pos (by omega) hpos
    have hin : rd.inBounds off cnt m.elemSize = true :=
      Reader.inBounds_eq (by omega) hbytes (hrd.size ▸ hstop)
    rw [if_neg hi, if_neg hi, u32_of_lt (Loan.elemSize_lt hm), if_pos hin]

/-- What the reference in a slot leads to, where that is one slot. -/
theorem loadSpan_follow (h : s.Sound) (hrd : rd.Reads s) (hx : (p, m) ∈ s.slots) (hm : m.Narrow)
    (hpos : 0 < m.elemSize) {kind : ℕ → Kind}
    (hslots : ∀ off cnt, elemSlots m off cnt = [(off, .field (kind cnt))])
    (hsize : ∀ cnt, 0 < cnt → memberSize (kind cnt) = cnt * m.elemSize) {bytes : List UInt8}
    (hc : s.follow p = some bytes) :
    ∃ r, rd.loadRef p = .ok r ∧ rd.loadSpan r m.elemSize = .ok bytes := by
  obtain ⟨⟨off, cnt⟩, htarget, hbytes⟩ := Option.bind_eq_some_iff.mp hc
  dsimp only at hbytes
  refine ⟨{ off, cnt }, loadRef_target h hrd hx htarget, ?_⟩
  have hleads : 0 < cnt → s.Leads m off cnt := h.refs _ hx off cnt (cell_of_target htarget)
  unfold Reader.loadSpan
  rw [asSpan_of_leads hrd hm hpos hleads]
  by_cases hzero : cnt = 0
  · rw [if_pos hzero] at hbytes
    cases hbytes
    simp [hzero, pure, Except.pure]
  · have hcnt : 0 < cnt := Nat.pos_of_ne_zero hzero
    rw [if_neg hzero] at hbytes
    have hslot : (off, Member.field (kind cnt)) ∈ s.slots := by
      apply (hleads hcnt).slots
      rw [hslots]
      exact List.mem_singleton.mpr rfl
    have hload : rd.load off (memberSize (kind cnt)) = .ok bytes := load_content h hrd hslot hbytes
    rw [hsize cnt hcnt] at hload
    simpa [hzero] using hload

theorem memberSize_scalars (sc : Scalar) {cnt : ℕ} (hcnt : 0 < cnt) :
    memberSize (.scalars sc (some cnt.toPNat')) = cnt * sc.size := by
  change sc.size * (cnt.toPNat' : ℕ) = cnt * sc.size
  rw [PNat.toPNat'_coe hcnt, Nat.mul_comm]

theorem memberSize_bools {cnt : ℕ} (hcnt : 0 < cnt) :
    memberSize (.bools (some cnt.toPNat')) = cnt * 1 := by
  change (cnt.toPNat' : ℕ) = cnt * 1
  rw [PNat.toPNat'_coe hcnt, Nat.mul_one]

/-- A string that was stored. -/
theorem asString_follow (h : s.Sound) (hrd : rd.Reads s) (hx : (p, Member.field .string) ∈ s.slots)
    {bytes : List UInt8} (hc : s.follow p = some bytes) :
    ∃ r, rd.loadRef p = .ok r ∧ rd.asString r = .ok bytes := by
  let kind : ℕ → Kind := fun n => .scalars .uint8 (some n.toPNat')
  have hsize : ∀ cnt, 0 < cnt → memberSize (kind cnt) = cnt * 1 :=
    fun _ hcnt => memberSize_scalars .uint8 hcnt
  obtain ⟨r, hr, hspan⟩ := loadSpan_follow h hrd hx trivial Nat.one_pos (fun _ _ => rfl) hsize hc
  exact ⟨r, hr, (Reader.asString_eq r).trans hspan⟩

/-- An accessor of a field reads what was stored for it. -/
theorem access_stored (h : s.Sound) (hrd : rd.Reads s) {k : Kind} (hx : (p, Member.field k) ∈ s.slots)
    (a : Accessor) {bytes : List UInt8} (hc : Kind.storedAt s p k a = some bytes) :
    Kind.access rd p k a = .ok bytes := by
  cases k with
  | scalar sc => exact load_content h hrd hx hc
  | bool => exact load_content h hrd hx hc
  | string =>
      obtain ⟨r, hr, hstr⟩ := asString_follow h hrd hx hc
      simp only [Kind.access, hr, bind, Except.bind, hstr]
  | scalars sc size =>
      cases size with
      | some n => exact load_content h hrd hx hc
      | none =>
          let kind : ℕ → Kind := fun n => .scalars sc (some n.toPNat')
          have hsize : ∀ cnt, 0 < cnt → memberSize (kind cnt) = cnt * sc.size :=
            fun _ hcnt => memberSize_scalars sc hcnt
          obtain ⟨r, hr, hspan⟩ :=
            loadSpan_follow h hrd hx trivial sc.size_pos (fun _ _ => rfl) hsize hc
          change rd.loadSpan r sc.size = .ok bytes at hspan
          simp only [Kind.access, hr, bind, Except.bind, hspan]
  | bools size =>
      cases size with
      | some n => exact load_content h hrd hx hc
      | none =>
          let kind : ℕ → Kind := fun n => .bools (some n.toPNat')
          have hsize : ∀ cnt, 0 < cnt → memberSize (kind cnt) = cnt * 1 :=
            fun _ hcnt => memberSize_bools hcnt
          obtain ⟨r, hr, hspan⟩ := loadSpan_follow h hrd hx trivial Nat.one_pos (fun _ _ => rfl) hsize hc
          change rd.loadSpan r 1 = .ok bytes at hspan
          simp only [Kind.access, hr, bind, Except.bind, hspan]
  | strings size =>
      have hentry : 0 < varRefSize := by decide
      cases a with
      | value =>
          obtain ⟨⟨off, cnt⟩, htarget, hcnt⟩ := Option.map_eq_some_iff.mp hc
          have hleads := h.refs _ hx off cnt (cell_of_target htarget)
          have hspan := asSpan_of_leads hrd (m := .field (.strings size)) trivial hentry hleads
          change rd.asSpan { off, cnt } varRefSize = _ at hspan
          simp only [Kind.access, loadRef_target h hrd hx htarget, bind, Except.bind, hspan]
          rw [← hcnt]
          by_cases hzero : cnt = 0
          · simp [hzero, pure, Except.pure]
          · simp [hzero, pure, Except.pure]
      | item i =>
          obtain ⟨⟨off, cnt⟩, htarget, hitem⟩ := Option.bind_eq_some_iff.mp hc
          dsimp only at hitem
          have hleads := h.refs _ hx off cnt (cell_of_target htarget)
          have helem := elemAt_of_leads hrd (m := .field (.strings size)) trivial hentry hleads i
          change rd.elemAt { off, cnt } varRefSize i = _ at helem
          simp only [Kind.access, loadRef_target h hrd hx htarget, bind, Except.bind, helem]
          by_cases hi : i ≥ cnt
          · rw [if_pos hi] at hitem
            cases hitem
            simp [hi, pure, Except.pure]
          · rw [if_neg hi] at hitem
            have hentry : (off + i * varRefSize, Member.field .string) ∈
                elemSlots (.field (.strings size)) off cnt := mem_elemSlots_strings (Nat.not_le.mp hi)
            have hslot := (hleads (by omega)).slots _ hentry
            obtain ⟨r, hr, hstr⟩ := asString_follow h hrd hslot hitem
            simp only [if_neg hi]
            change (do rd.asString (← rd.loadRef (off + i * varRefSize))) = _
            simp only [hr, bind, Except.bind, hstr]

/-- A chain of accessors reads what was stored for it. -/
theorem run_stored (h : s.Sound) (hrd : rd.Reads s) {S : Schema} (a : Access S) :
    ∀ {base cur : ℕ}, NarrowElems S → (∀ x ∈ slotsOf S base cur, x ∈ s.slots) →
      ∀ {bytes : List UInt8}, a.stored s base cur = some bytes → a.run rd base cur = .ok bytes := by
  induction a with
  | field a =>
      intro base cur _ hslots bytes hc
      exact access_stored h hrd (hslots _ List.mem_cons_self) a hc
  | nested inner ih =>
      intro base cur hS hslots bytes hc
      exact ih hS.1 (fun x hx => hslots x (List.mem_append_left _ hx)) hc
  | @count _ _ msg _ =>
      intro base cur hS hslots bytes hc
      obtain ⟨⟨off, cnt⟩, htarget, hcnt⟩ := Option.map_eq_some_iff.mp hc
      have hx := hslots _ List.mem_cons_self
      have hleads := h.refs _ hx off cnt (cell_of_target htarget)
      have hspan := asSpan_of_leads hrd (m := .elems msg) ⟨hS.1, hS.2.1⟩ (rootSize_pos msg) hleads
      change rd.asSpan { off, cnt } (rootSize msg) = _ at hspan
      simp only [Access.run, loadRef_target h hrd hx htarget, bind, Except.bind, hspan]
      rw [← hcnt]
      by_cases hzero : cnt = 0
      · simp [hzero, pure, Except.pure]
      · simp [hzero, pure, Except.pure]
  | raw =>
      intro base cur _ _ bytes hc
      cases hc
  | @elem _ _ msg _ i inner ih =>
      intro base cur hS hslots bytes hc
      obtain ⟨⟨off, cnt⟩, htarget, hitem⟩ := Option.bind_eq_some_iff.mp hc
      dsimp only at hitem
      have hx := hslots _ List.mem_cons_self
      have hleads := h.refs _ hx off cnt (cell_of_target htarget)
      have helem := elemAt_of_leads hrd (m := .elems msg) ⟨hS.1, hS.2.1⟩ (rootSize_pos msg) hleads i
      change rd.elemAt { off, cnt } (rootSize msg) i = _ at helem
      simp only [Access.run, loadRef_target h hrd hx htarget, bind, Except.bind, helem]
      by_cases hi : i ≥ cnt
      · rw [if_pos hi] at hitem
        cases hitem
        simp [hi, pure, Except.pure]
      · rw [if_neg hi] at hitem
        simp only [if_neg hi]
        refine ih hS.2.1 (fun x hxi => ?_) hitem
        exact (hleads (by omega)).slots x (mem_elemSlots_elems (Nat.not_le.mp hi) hxi)
  | fieldRest a ih =>
      intro base cur hS hslots bytes hc
      exact ih hS (fun x hx => hslots x (List.mem_cons_of_mem _ hx)) hc
  | nestedRest a ih =>
      intro base cur hS hslots bytes hc
      exact ih hS.2 (fun x hx => hslots x (List.mem_append_right _ hx)) hc
  | arrayRest a ih =>
      intro base cur hS hslots bytes hc
      exact ih hS.2.2 (fun x hx => hslots x (List.mem_cons_of_mem _ hx)) hc

end

/-! ## What no call takes back -/

/-- The cursor goes up, the slots stay, and so does what has failed or was lost. -/
structure Loan.Onward (s t : Loan) : Prop where
  cur : s.w.cur ≤ t.w.cur
  slots : ∀ x ∈ s.slots, x ∈ t.slots
  ok : s.w.ok = false → t.w.ok = false
  lost : s.lost = true → t.lost = true

namespace Loan

variable {s t u : Loan}

theorem Onward.refl (s : Loan) : s.Onward s := ⟨le_rfl, fun _ hx => hx, id, id⟩

theorem Onward.trans (h : s.Onward t) (h' : t.Onward u) : s.Onward u :=
  ⟨h.cur.trans h'.cur, fun x hx => h'.slots x (h.slots x hx), h'.ok ∘ h.ok, h'.lost ∘ h.lost⟩

theorem Onward.same (hcur : t.w.cur = s.w.cur) (hslots : t.slots = s.slots)
    (hok : t.w.ok = s.w.ok) (hlost : t.lost = s.lost) : s.Onward t :=
  ⟨hcur.ge, fun _ hx => hslots ▸ hx, fun h => hok.trans h, fun h => hlost.trans h⟩

theorem onward_note (s : Loan) (failed : Bool) : s.Onward (s.note failed) := by
  refine ⟨le_rfl, fun _ hx => hx, id, fun h => ?_⟩
  simp [Loan.note, h]

theorem onward_handOut (s : Loan) (p cnt : ℕ) (k : Kind) : s.Onward (s.handOut p cnt k) := by
  unfold Loan.handOut
  split
  · exact Onward.refl s
  · exact Onward.same rfl rfl rfl rfl

theorem onward_allocArray (s : Loan) (p : ℕ) (m : Member) (cleared : Bool) (n : ℕ) :
    s.Onward (s.allocArray p m cleared n).2 := by
  unfold Loan.allocArray
  by_cases hzero : n = 0
  · rw [if_pos hzero]
    exact Onward.same rfl rfl rfl rfl
  rw [if_neg hzero]
  by_cases hmany : n > (2 ^ 32 - 1) / u32 m.elemSize
  · rw [if_pos hmany]
    exact Onward.same rfl rfl rfl rfl
  rw [if_neg hmany]
  dsimp only
  rcases reserve_cases s (n * u32 m.elemSize) with hfail | ⟨off, hoff, -, hres⟩
  · rw [hfail]
    exact ⟨le_rfl, fun _ hx => hx, fun _ => rfl, id⟩
  · have hcur : s.w.cur ≤ off + n * u32 m.elemSize := hoff.trans (Nat.le_add_right _ _)
    rw [hres]
    dsimp only
    split
    · exact ⟨hcur, fun _ hx => hx, id, id⟩
    · cases cleared with
      | false => exact ⟨hcur, fun _ hx => List.mem_append_left _ hx, id, id⟩
      | true => exact ⟨hcur, fun _ hx => List.mem_append_left _ hx, id, id⟩

theorem onward_putString (s : Loan) (p : ℕ) (str : List UInt8) :
    s.Onward (s.putString p str).2 := by
  unfold Loan.putString
  dsimp only
  by_cases hzero : u32 str.length = 0
  · rw [if_pos hzero]
    exact Onward.same rfl rfl rfl rfl
  rw [if_neg hzero]
  rcases reserve_cases s (u32 str.length) with hfail | ⟨off, hoff, -, hres⟩
  · rw [hfail]
    exact ⟨le_rfl, fun _ hx => hx, fun _ => rfl, id⟩
  · have hcur : s.w.cur ≤ off + u32 str.length := hoff.trans (Nat.le_add_right _ _)
    rw [hres]
    dsimp only
    split
    · exact ⟨hcur, fun _ hx => hx, id, id⟩
    · exact ⟨hcur, fun _ hx => List.mem_append_left _ hx, id, id⟩

theorem onward_set {p : ℕ} {m : Member} {setter : Setter} (hset : s.set p m setter = some t) :
    s.Onward t := by
  unfold Loan.set at hset
  split at hset
  · cases hset
    exact Onward.same rfl rfl rfl rfl
  · cases hset
    exact Onward.same rfl rfl rfl rfl
  · cases hset
    exact (onward_putString s p _).trans (onward_note _ _)
  · cases hset
    exact ((onward_allocArray s p _ false _).trans (onward_handOut _ _ _ _)).trans (onward_note _ _)
  · cases hset
    exact ((onward_allocArray s p _ false _).trans (onward_handOut _ _ _ _)).trans (onward_note _ _)
  · cases hset
    exact (onward_allocArray s p _ true _).trans (onward_note _ _)
  · split at hset
    · cases hset
      exact onward_note _ _
    · cases hset
      exact (onward_putString s _ _).trans (onward_note _ _)
  · cases hset
    exact (onward_allocArray s p _ _ _).trans (onward_note _ _)
  · cases hset

end Loan

theorem onward_step {s t : Loan} {op : Op} (hstep : step s op = some t) : s.Onward t := by
  cases op with
  | nested b i =>
      simp only [step] at hstep
      split at hstep
      · cases hstep
        exact Loan.Onward.same rfl rfl rfl rfl
      · cases hstep
  | elem b i j =>
      simp only [step] at hstep
      split at hstep
      · split at hstep
        · cases hstep
          exact Loan.onward_note _ _
        · cases hstep
          exact Loan.Onward.same rfl rfl rfl rfl
      · cases hstep
  | span b i =>
      simp only [step] at hstep
      split at hstep
      · cases hstep
        exact Loan.Onward.same rfl rfl rfl rfl
      · cases hstep
        exact Loan.Onward.same rfl rfl rfl rfl
      · cases hstep
  | set b i setter =>
      simp only [step] at hstep
      split at hstep
      · exact Loan.onward_set hstep
      · cases hstep
  | write sp j v =>
      simp only [step] at hstep
      split at hstep
      · split at hstep
        · cases hstep
          exact Loan.Onward.same rfl rfl rfl rfl
        · cases hstep
      · cases hstep

theorem onward_of_run {S : Schema} {chunk : List UInt8} {ops : List Op} {u : Loan}
    (hrun : (machine S chunk).run ops = some u) : (Loan.start S chunk).Onward u :=
  Machine.invariant (Loan.Onward.refl _) (fun _ _ _ h hstep => h.trans (onward_step hstep)) hrun

/-! ## Finalized segments -/

/-- The slots of the root record are there, and it is below the cursor. -/
theorem root_of_run {S : Schema} {chunk : List UInt8} {ops : List Op} {u : Loan}
    (h : Suits S chunk) (hrun : (machine S chunk).run ops = some u) :
    segHeaderSize + rootSize S ≤ u.w.cur ∧ ∀ x ∈ slotsOf S segHeaderSize 0, x ∈ u.slots := by
  have honward := onward_of_run hrun
  refine ⟨h.start_bounds.1.trans honward.cur, fun x hx => ?_⟩
  exact honward.slots x (List.mem_append_right _ hx)

/-- A finalized segment can be bound, and its reader reads what was built. -/
theorem bind_of_finalize {S : Schema} {u : Loan} (h : u.Sound)
    (hroot : segHeaderSize + rootSize S ≤ u.w.cur) {msgId : ℕ} {seg : List UInt8}
    (hfinal : u.finalize S msgId = some seg) :
    ∃ rd, View.bind S seg = some rd ∧ rd.Reads u := by
  unfold Loan.finalize at hfinal
  split at hfinal
  · cases hfinal
    have hcur := h.cur_le
    have hcap := h.cap_le
    have hcap_lt := h.cap_lt
    have hheader : (headerBytes S u.w.cur msgId).length = segHeaderSize := length_headerBytes ..
    have hroom : 0 + (headerBytes S u.w.cur msgId).length ≤ u.w.seg.length := by omega
    have hlen : (overwrite u.w.seg 0 (headerBytes S u.w.cur msgId)).length = u.w.seg.length :=
      length_overwrite hroom
    have htake : (overwrite u.w.seg 0 (headerBytes S u.w.cur msgId)).take segHeaderSize
        = headerBytes S u.w.cur msgId := by
      rw [← hheader]
      exact take_overwrite_zero _ _
    refine ⟨_, View.bind_eq htake (by omega) hroot (by omega), rfl, fun i hi => ?_⟩
    rw [getElem?_overwrite hroom, if_neg (by omega)]
  · cases hfinal

/-- A number and a table of strings. -/
def tagsSchema : Schema :=
  .field [110] (.scalar .uint32) (.field [116] (.strings none) .nil)

/-- The number is set, two strings are allocated, and one is stored. -/
def tagsCalls : List Op :=
  [.set 0 0 (.value 7), .set 0 1 (.alloc 2), .set 0 1 (.stringAt 1 [65, 66])]

/-- A chunk with old bytes in it. -/
def usedChunk : List UInt8 := List.replicate 72 238

theorem suits_usedChunk : Suits tagsSchema usedChunk := ⟨trivial, by decide, by decide⟩

end DzIpc.Flat
