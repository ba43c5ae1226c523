import DzIpc.Wire.Codec

/-!
# What the generated deserializer does with arbitrary bytes

Every length in the buffer is untrusted.  `tods_count_ok` stands before each `resize` and
`adapt_memcpy_tods` checks each copy, but the size of a nested message goes unchecked into
an aliasing buffer or a `new`, and the count of a fixed array throws.

* `tods_safe` and `tods_progress` say what one guarded copy does on any region that claims
  no more than its allocation holds.
* `Schema.WellSized` is the condition that the reader meets no nested size that leaves the
  buffer and no wrong fixed count.
* `fieldsSafe` is the induction over the schema, with the bytes allocated so far.
* `deserialize_safe` is the result for whole buffers.
-/

namespace DzIpc.Wire

open Weave

/-- The region claims no more bytes than its allocation holds. -/
def Region.Honest (r : Region) : Prop := r.totalSize ≤ r.bytes.length

theorem honest_whole (bytes : List UInt8) : (Region.whole bytes).Honest :=
  u32_le _

theorem totalSize_lt (r : Region) : r.totalSize < 2 ^ 32 := u32_lt _

theorem todsInRange_iff {r : Region} {start len : ℕ} :
    r.todsInRange start len = true ↔ start + len ≤ r.totalSize := by
  simp only [Region.todsInRange, Bool.and_eq_true, decide_eq_true_eq]
  omega

/-- A copy inside the claimed size stays inside the allocation. -/
theorem copy_of_inRange {r : Region} {start len : ℕ} (hr : r.Honest)
    (hrange : r.todsInRange start len = true) :
    Returns (r.copy start len) fun bytes => bytes.length = len := by
  rw [todsInRange_iff] at hrange
  have hroom : start + len ≤ r.bytes.length := Nat.le_trans hrange hr
  refine .of_eq (if_pos (Or.inr hroom)) ?_
  rw [List.length_take, List.length_drop]
  omega

/-! ## One copy -/

private theorem todsLoop_safe {r : Region} (hr : r.Honest) (cutCnt : ℕ) :
    ∀ (c : Cursor) (pure left : ℕ), c.offset < 2 ^ 32 →
      Returns (todsLoop r cutCnt c pure left) fun res =>
        res.1.length = left ∧ res.2.allocated = c.allocated ∧ res.2.offset < 2 ^ 32 := by
  induction cutCnt with
  | zero =>
      intro c pure left hc
      refine .ite (fun hzero => .ok ⟨hzero.symm, rfl, hc⟩) (fun _ => ?_)
      refine .ite (fun hrange => ?_) (fun _ => .ok ⟨List.length_replicate, rfl, hc⟩)
      exact (copy_of_inRange hr hrange).bind fun bytes hbytes => .pure ⟨hbytes, rfl, u32_lt _⟩
  | succ cutCnt ih =>
      intro c pure left hc
      refine .ite (fun hrange => ?_) (fun _ => .ok ⟨List.length_replicate, rfl, hc⟩)
      refine (copy_of_inRange hr hrange).bind fun bytes hbytes => ?_
      refine (ih _ _ _ (u32_lt _)).bind ?_
      rintro ⟨rest, c'⟩ ⟨hrest, halloc, hoffset⟩
      refine .pure ⟨?_, halloc, hoffset⟩
      rw [List.length_append, hbytes, hrest]
      omega

/-- A copy never leaves the allocation, whatever the offset and the length. -/
theorem tods_safe {r : Region} {c : Cursor} (hr : r.Honest) (hc : c.offset < 2 ^ 32) (len : ℕ) :
    Returns (adaptMemcpyTods r c len) fun res =>
      res.1.length = len ∧ res.2.allocated = c.allocated ∧ res.2.offset < 2 ^ 32 :=
  todsLoop_safe hr _ c _ len hc

/-- Where a copy of `len` bytes leaves the offset: not behind where it was, not far behind
the end of the buffer, and far enough ahead if the copy was in range. -/
structure Progress (r : Region) (c c' : Cursor) (len : ℕ) : Prop where
  mono : c.offset ≤ c'.offset
  bounded : c'.offset ≤ max c.offset (2 * r.totalSize)
  spread : r.todsInRange c.offset len = true → len ≤ 114 * (c'.offset - c.offset)

/-- A page boundary never falls on the last bytes of the 32-bit range, and the data offset
stays in step with the offset across it. -/
private theorem pageBoundary {offset copy : ℕ} (hlt : offset + copy < 2 ^ 32)
    (hcopy : copy = ipcMsgMaxSize - toPureOffset offset % ipcMsgMaxSize) :
    offset + copy + 12 < 2 ^ 32 ∧ 1448 ≤ offset + copy ∧
      toPureOffset (offset + copy + 12) = toPureOffset offset + copy := by
  obtain ⟨q, t, ht, rfl⟩ : ∃ q t, t < 1472 ∧ offset = 1472 * q + t :=
    ⟨offset / 1472, offset % 1472, Nat.mod_lt _ (by decide), (Nat.div_add_mod _ _).symm⟩
  have hpure : toPureOffset (1472 * q + t) = 1460 * q + t := by
    simp only [toPureOffset, ipcMsgMaxSize, tailMsgSize]
    omega
  rw [hpure] at hcopy ⊢
  simp only [toPureOffset, ipcMsgMaxSize, tailMsgSize] at hcopy ⊢
  rcases Nat.lt_or_ge t 1460 with hpage | htail
  · have hmod : (1460 * q + t) % 1460 = t := by omega
    omega
  · have hmod : (1460 * q + t) % 1460 = t - 1460 := by omega
    omega

/-- The rounds of a copy, with the data offset kept in step with the offset.  A round that
fails after the first leaves less than a page ahead. -/
private theorem todsLoop_progress {r : Region} (hr : r.Honest) (cutCnt : ℕ) :
    ∀ (c : Cursor) (left : ℕ), c.offset < 2 ^ 32 → toPureOffset c.offset + left < 2 ^ 32 →
      cutCnt = cuts ipcMsgMaxSize (toPureOffset c.offset) left →
      Returns (todsLoop r cutCnt c (toPureOffset c.offset) left) fun res =>
        c.offset ≤ res.2.offset ∧ res.2.offset ≤ max c.offset (2 * r.totalSize) ∧
          (c.offset + left ≤ res.2.offset ∨ r.totalSize < res.2.offset + 1460 ∧
            (r.todsInRange c.offset left = true → c.offset + 13 ≤ res.2.offset)) := by
  have htotal := totalSize_lt r
  induction cutCnt with
  | zero =>
      intro c left hc _ hcuts
      have hwithin : toPureOffset c.offset % ipcMsgMaxSize + left < ipcMsgMaxSize := by
        by_contra hge
        have := cuts_of_block (B := ipcMsgMaxSize) (by decide) (Nat.not_lt.mp hge)
        omega
      simp only [ipcMsgMaxSize] at hwithin
      refine .ite (fun hzero => .ok (by simp only; omega)) (fun _ => ?_)
      refine .ite (fun hrange => ?_) (fun hrange => .ok ?_)
      · refine (copy_of_inRange hr hrange).bind fun bytes _ => .pure ?_
        rw [todsInRange_iff] at hrange
        simp only [Cursor.skip, u32_of_lt (show c.offset + left < 2 ^ 32 by omega)]
        omega
      · rw [todsInRange_iff] at hrange ⊢
        simp only [Cursor.fail]
        omega
  | succ cutCnt ih =>
      intro c left hc hsum hcuts
      have hmod : toPureOffset c.offset % ipcMsgMaxSize < ipcMsgMaxSize :=
        Nat.mod_lt _ (by decide)
      have hge : ipcMsgMaxSize ≤ toPureOffset c.offset % ipcMsgMaxSize + left := by
        by_contra hlt
        have := cuts_eq_zero (Nat.not_le.mp hlt)
        omega
      have hblock := cuts_of_block (B := ipcMsgMaxSize) (by decide) hge
      set copy := ipcMsgMaxSize - toPureOffset c.offset % ipcMsgMaxSize with hcopy
      have hmin : min copy left = copy := Nat.min_eq_left (by omega)
      simp only [todsLoop, ← hcopy, hmin]
      refine .ite (fun hrange => ?_) (fun hrange => .ok ?_)
      · refine (copy_of_inRange hr hrange).bind fun bytes _ => ?_
        rw [todsInRange_iff] at hrange
        obtain ⟨hlt, hbig, hpure⟩ := pageBoundary (by omega) hcopy
        have hskip : (c.skip (copy + tailMsgSize)).offset = c.offset + copy + 12 := u32_of_lt hlt
        have hsum' : u32 (toPureOffset c.offset + copy)
            = toPureOffset (c.skip (copy + tailMsgSize)).offset := by
          rw [hskip, hpure]
          exact u32_of_lt (by omega)
        have hsmall : copy ≤ 1460 := by
          simp only [ipcMsgMaxSize] at hcopy
          omega
        rw [hsum']
        refine (ih _ (left - copy) (by rw [hskip]; exact hlt) ?_ ?_).bind ?_
        · rw [hskip, hpure]
          omega
        · rw [hskip, hpure]
          omega
        rintro ⟨rest, c'⟩ hend
        rw [hskip, todsInRange_iff] at hend
        refine .pure ?_
        rw [todsInRange_iff]
        dsimp only at hend ⊢
        simp only [ipcMsgMaxSize] at hmod hcopy
        omega
      · have hsmall : copy ≤ 1460 := by
          simp only [ipcMsgMaxSize] at hcopy
          omega
        rw [todsInRange_iff] at hrange ⊢
        simp only [Cursor.fail]
        omega

/-- A copy whose length fits the address arithmetic moves the offset in bounds. -/
theorem tods_progress {r : Region} {c : Cursor} {len : ℕ} (hr : r.Honest)
    (hc : c.offset < 2 ^ 32) (hsum : toPureOffset c.offset + len < 2 ^ 32) :
    Returns (adaptMemcpyTods r c len) fun res => Progress r c res.2 len := by
  have hcuts : sub32 (u32 (toPureOffset c.offset + len) / ipcMsgMaxSize)
      (toPureOffset c.offset / ipcMsgMaxSize)
      = cuts ipcMsgMaxSize (toPureOffset c.offset) len := by
    rw [u32_of_lt hsum, sub32_of_le]
    · rfl
    · exact Nat.div_le_div_right (by omega)
    · have := Nat.div_le_self (toPureOffset c.offset + len) ipcMsgMaxSize
      omega
  have hloop := todsLoop_progress hr _ c len hc hsum rfl
  rw [← hcuts] at hloop
  refine Returns.mono (x := adaptMemcpyTods r c len) hloop ?_
  rintro ⟨bytes, c'⟩ ⟨hmono, hbounded, hend⟩
  refine { mono := hmono, bounded := hbounded, spread := fun hrange => ?_ }
  dsimp only at hmono hbounded hend ⊢
  rcases hend with hdone | ⟨hshort, hfar⟩
  · omega
  · have := hfar hrange
    rw [todsInRange_iff] at hrange
    omega

/-! ## Lengths read from the buffer -/

/-- In an empty buffer every read fails and leaves zeros. -/
private theorem tods_empty {r : Region} (hzero : r.totalSize = 0) (c : Cursor) (len : ℕ) :
    adaptMemcpyTods r c (len + 1) = .ok (List.replicate (len + 1) 0, c.fail) := by
  have hrange : ∀ start count : ℕ, 0 < count → r.todsInRange start count = false := by
    intro start count hcount
    rw [Bool.eq_false_iff, Ne, todsInRange_iff, hzero]
    omega
  have hloop : ∀ cutCnt pure : ℕ, todsLoop r cutCnt c pure (len + 1)
      = .ok (List.replicate (len + 1) 0, c.fail) := by
    intro cutCnt pure
    cases cutCnt with
    | zero => simp [todsLoop, hrange c.offset (len + 1) (by omega)]
    | succ cutCnt =>
        have hmod : pure % ipcMsgMaxSize < ipcMsgMaxSize := Nat.mod_lt _ (by decide)
        have hcopy := hrange c.offset (min (ipcMsgMaxSize - pure % ipcMsgMaxSize) (len + 1))
          (by omega)
        simp [todsLoop, hcopy]
  exact hloop _ _

theorem i32_lt (z : ℤ) : i32 z < 2 ^ 31 := by
  have := Int.bmod_lt (x := z) (m := 2 ^ 32) (by decide)
  unfold i32
  omega

/-- What reading an `int32_t` does to the cursor, and what it can return. -/
structure ReadsInt (r : Region) (c : Cursor) (res : ℤ × Cursor) : Prop where
  allocated : res.2.allocated = c.allocated
  offset : res.2.offset < 2 ^ 32
  progress : Progress r c res.2 4
  lt : res.1 < 2 ^ 31
  empty : r.totalSize = 0 → res.1 = 0

theorem readInt32_safe {r : Region} {c : Cursor} (hr : r.Honest) (hc : c.offset < 2 ^ 32) :
    Returns (readInt32 r c) (ReadsInt r c) := by
  have hsum : toPureOffset c.offset + 4 < 2 ^ 32 := by
    simp only [toPureOffset, ipcMsgMaxSize, tailMsgSize]
    omega
  have hread : Yields (adaptMemcpyTods r c 4) fun res =>
      r.totalSize = 0 → leNat res.1 = 0 := by
    cases hres : adaptMemcpyTods r c 4 with
    | error _ => trivial
    | ok res =>
        intro hzero
        have hempty := tods_empty hzero c 3
        rw [hres] at hempty
        cases hempty
        rfl
  refine (((tods_safe hr hc 4).and (tods_progress hr hc hsum)).and_yields hread).bind ?_
  rintro ⟨bytes, c'⟩ ⟨⟨⟨-, halloc, hoffset⟩, hprogress⟩, hempty⟩
  refine .pure { allocated := halloc, offset := hoffset, progress := hprogress,
                 lt := ?_, empty := fun hzero => ?_ }
  · dsimp only
    exact i32_lt (leNat bytes)
  · simp only [hempty hzero]
    decide

theorem readHeader_safe {r : Region} {c : Cursor} (hr : r.Honest) (hc : c.offset < 2 ^ 32) :
    Returns (readHeader r c) fun c' => c'.allocated = c.allocated ∧ c'.offset < 2 ^ 32 :=
  (readInt32_safe hr hc).bind fun _ hn => .pure ⟨hn.allocated, u32_lt _⟩

theorem toU32_lt (z : ℤ) : toU32 z < 2 ^ 32 := by
  unfold toU32
  omega

theorem readStringHeader_safe {r : Region} {c : Cursor} (hr : r.Honest) (hc : c.offset < 2 ^ 32) :
    Returns (readStringHeader r c) fun c' => c'.allocated = c.allocated ∧ c'.offset < 2 ^ 32 := by
  refine (readInt32_safe hr hc).bind ?_
  rintro ⟨nameSize, c₁⟩ hn
  refine (tods_safe hr (toU32_lt _) 1).bind ?_
  rintro ⟨bytes, c₂⟩ ⟨-, halloc, hoffset⟩
  exact .pure ⟨halloc.trans hn.allocated, hoffset⟩

/-- A count that passes the guard announces no more than the buffer holds. -/
theorem le_of_todsCountOk {r : Region} {c : Cursor} {count : ℤ} {minElemSize : ℕ}
    (hok : todsCountOk r c count minElemSize = true) (hpos : 0 < minElemSize) :
    0 ≤ count ∧ r.todsInRange c.offset (count.toNat * minElemSize) = true := by
  have hne : minElemSize ≠ 0 := by omega
  simp only [todsCountOk, hne, if_false, Bool.and_eq_true, decide_eq_true_eq] at hok
  exact ⟨hok.1.1, hok.2⟩

/-- A fixed array finds its own length in the buffer. -/
def CountMatches (size : ArraySize) (r : Region) (c : Cursor) : Prop :=
  match size with
  | none => True
  | some n => Yields (readInt32 r c) fun res => res.1 = (n : ℕ)

instance (size : ArraySize) (r : Region) (c : Cursor) : Decidable (CountMatches size r c) :=
  match size with
  | none => inferInstanceAs (Decidable True)
  | some _ => inferInstanceAs (Decidable (Yields _ _))

/-- The count with which an array is filled. -/
structure ReadsCount (size : ArraySize) (minElemSize : ℕ) (r : Region) (c : Cursor)
    (res : ℕ × Flow × Cursor) : Prop where
  allocated : res.2.2.allocated = c.allocated
  offset : res.2.2.offset < 2 ^ 32
  vector : size = none → res.1 * minElemSize ≤ r.totalSize
  fixed : ∀ n : ℕ+, size = some n → res.1 = n ∧ 0 < r.totalSize

theorem readCount_safe {size : ArraySize} {minElemSize : ℕ} {r : Region} {c : Cursor}
    (hr : r.Honest) (hc : c.offset < 2 ^ 32) (hpos : 0 < minElemSize)
    (hmatch : CountMatches size r c) :
    Returns (readCount r c size minElemSize) (ReadsCount size minElemSize r c) := by
  cases size with
  | none =>
      refine (readInt32_safe hr hc).bind ?_
      rintro ⟨count, c'⟩ hn
      refine .ite (fun hok => ?_) (fun _ => ?_)
      · obtain ⟨-, hrange⟩ := le_of_todsCountOk hok hpos
        rw [todsInRange_iff] at hrange
        exact .pure { allocated := hn.allocated, offset := hn.offset,
                      vector := fun _ => by dsimp only; omega, fixed := by simp }
      · exact .pure { allocated := hn.allocated, offset := hn.offset,
                      vector := fun _ => by simp, fixed := by simp }
  | some n =>
      refine ((readInt32_safe hr hc).and_yields hmatch).bind ?_
      rintro ⟨count, c'⟩ ⟨hn, hcount⟩
      refine .ite (fun _ => .pure ?_) (fun hne => absurd hcount hne)
      refine { allocated := hn.allocated, offset := hn.offset, vector := by simp,
               fixed := fun m hm => ?_ }
      cases hm
      refine ⟨rfl, Nat.pos_of_ne_zero fun hzero => ?_⟩
      have hnone : count = 0 := hn.empty hzero
      have hsome : count = (n : ℕ) := hcount
      have := PNat.pos n
      omega

/-! ## One field -/

/-- The cursor after a field, with a bound on what the field allocated. -/
def Allocates (r : Region) (c c' : Cursor) (factor : ℕ) : Prop :=
  c'.allocated ≤ c.allocated + factor * r.totalSize ∧ c'.offset < 2 ^ 32

theorem readItems_safe {r : Region} {c : Cursor} (hr : r.Honest) (hc : c.offset < 2 ^ 32)
    (count len : ℕ) :
    Returns (readItems r c count len) fun res =>
      res.2.allocated = c.allocated ∧ res.2.offset < 2 ^ 32 := by
  refine .ite (fun _ => ?_) (fun _ => .ok ⟨rfl, hc⟩)
  exact (tods_safe hr hc len).mono fun _ hres => hres.2

/-- The strings of an array together take what the offset moves, up to a factor. -/
theorem readStrings_safe {r : Region} (hr : r.Honest) (count : ℕ) :
    ∀ c : Cursor, c.offset < 2 ^ 32 →
      Returns (readStrings r count c) fun res =>
        res.2.2.offset < 2 ^ 32 ∧ c.offset ≤ res.2.2.offset ∧
          res.2.2.offset ≤ max c.offset (2 * r.totalSize) ∧
          res.2.2.allocated ≤ c.allocated + 114 * (res.2.2.offset - c.offset) := by
  induction count with
  | zero =>
      intro c hc
      exact .pure ⟨hc, Nat.le_refl _, Nat.le_max_left _ _, by simp⟩
  | succ count ih =>
      intro c hc
      refine (readInt32_safe hr hc).bind ?_
      rintro ⟨strSize, c₁⟩ hn
      obtain ⟨halloc₁, hoffset₁, hprogress₁, hlt, -⟩ := hn
      have hmono₁ := hprogress₁.mono
      have hbounded₁ := hprogress₁.bounded
      refine .ite (fun hok => ?_) (fun _ => .pure ?_)
      · obtain ⟨-, hrange⟩ := le_of_todsCountOk hok (by decide)
        rw [Nat.mul_one] at hrange
        have hsum : toPureOffset c₁.offset + strSize.toNat < 2 ^ 32 := by
          have hin := todsInRange_iff.mp hrange
          have htotal := totalSize_lt r
          have : toPureOffset c₁.offset ≤ c₁.offset := Nat.sub_le _ _
          omega
        have hread := (tods_safe (c := c₁.allocate strSize.toNat) hr hoffset₁ strSize.toNat).and
          (tods_progress hr hoffset₁ hsum)
        refine hread.bind ?_
        rintro ⟨str, c₂⟩ ⟨⟨-, halloc₂, hoffset₂⟩, hprogress₂⟩
        have hmono₂ := hprogress₂.mono
        have hbounded₂ := hprogress₂.bounded
        have hspread := hprogress₂.spread hrange
        refine (ih c₂ hoffset₂).bind ?_
        rintro ⟨strs, flow, c₃⟩ ⟨hoffset₃, hmono₃, hbounded₃, halloc₃⟩
        refine .pure ⟨hoffset₃, ?_⟩
        simp only [Cursor.allocate] at *
        omega
      · simp only [Cursor.fail] at *
        omega

/-- What a field without a nested message may allocate, as a multiple of the length of its
buffer. -/
def Kind.allocFactor (abi : Abi) : Kind → ℕ
  | scalar _ | bool => 0
  | string => 1
  | scalars _ _ => 1
  | bools none => 2
  | bools (some n) => n
  | strings _ => abi.stringSize + 228

/-- The field's own array has the length found in the buffer, if that length is fixed. -/
def Kind.CountMatches (r : Region) (c : Cursor) : Kind → Prop
  | scalars _ size | bools size | strings size =>
      Yields (readHeader r c) fun c => Wire.CountMatches size r c
  | _ => True

instance (r : Region) (c : Cursor) : (k : Kind) → Decidable (k.CountMatches r c)
  | .scalar _ | .bool | .string => inferInstanceAs (Decidable True)
  | .scalars _ _ | .bools _ | .strings _ => inferInstanceAs (Decidable (Yields _ _))

/-- Reading the header and the count of an array. -/
theorem readArray_safe {size : ArraySize} {minElemSize : ℕ} {r : Region} {c : Cursor}
    {β : Type} {f : ℕ × Flow × Cursor → Except Fault β} {goal : β → Prop}
    (hr : r.Honest) (hc : c.offset < 2 ^ 32) (hpos : 0 < minElemSize)
    (hmatch : Yields (readHeader r c) fun c => CountMatches size r c)
    (hf : ∀ c₁ res, c₁.allocated = c.allocated → ReadsCount size minElemSize r c₁ res →
      Returns (f res) goal) :
    Returns (readHeader r c >>= fun c => readCount r c size minElemSize >>= f) goal := by
  refine ((readHeader_safe hr hc).and_yields hmatch).bind ?_
  rintro c₁ ⟨⟨halloc, hoffset⟩, hcount⟩
  exact (readCount_safe hr hoffset hpos hcount).bind fun res hres => hf c₁ res halloc hres

theorem Kind.read_safe {abi : Abi} (k : Kind) (old : k.Value) {r : Region} {c : Cursor}
    (hr : r.Honest) (hc : c.offset < 2 ^ 32) (hmatch : k.CountMatches r c) :
    Returns (k.read abi r old c) fun res => Allocates r c res.2.2 (k.allocFactor abi) := by
  cases k with
  | scalar s =>
      refine (readHeader_safe hr hc).bind ?_
      rintro c₁ ⟨halloc₁, hoffset₁⟩
      refine (tods_safe hr hoffset₁ s.size).bind ?_
      rintro ⟨bytes, c₂⟩ ⟨-, halloc₂, hoffset₂⟩
      exact .pure ⟨by dsimp only at *; omega, hoffset₂⟩
  | bool =>
      refine (readHeader_safe hr hc).bind ?_
      rintro c₁ ⟨halloc₁, hoffset₁⟩
      refine (tods_safe hr hoffset₁ 1).bind ?_
      rintro ⟨bytes, c₂⟩ ⟨-, halloc₂, hoffset₂⟩
      exact .pure ⟨by dsimp only at *; omega, hoffset₂⟩
  | string =>
      refine (readStringHeader_safe hr hc).bind ?_
      rintro c₁ ⟨halloc₁, hoffset₁⟩
      refine (readInt32_safe hr hoffset₁).bind ?_
      rintro ⟨size, c₂⟩ hn
      have halloc₂ := hn.allocated
      refine .ite (fun hok => ?_) (fun _ => .pure ⟨?_, hn.offset⟩)
      · obtain ⟨-, hrange⟩ := le_of_todsCountOk hok (by decide)
        rw [todsInRange_iff, Nat.mul_one] at hrange
        refine (tods_safe (c := c₂.allocate size.toNat) hr hn.offset size.toNat).bind ?_
        rintro ⟨bytes, c₃⟩ ⟨-, halloc₃, hoffset₃⟩
        refine .pure ⟨?_, hoffset₃⟩
        simp only [Kind.allocFactor, Cursor.allocate] at *
        omega
      · simp only [Kind.allocFactor, Cursor.fail] at *
        omega
  | scalars s size =>
      refine readArray_safe hr hc s.size_pos hmatch ?_
      rintro c₁ ⟨count, flow, c₂⟩ halloc₁ ⟨halloc₂, hoffset₂, hvector, -⟩
      cases flow with
      | done => exact .pure ⟨by dsimp only at *; omega, hoffset₂⟩
      | next =>
          have hresize : (c₂.resize size (count * s.size)).allocated
              ≤ c₂.allocated + r.totalSize := by
            cases size with
            | none => exact Nat.add_le_add_left (hvector rfl) _
            | some n => exact Nat.le_add_right _ _
          have hkeep : (c₂.resize size (count * s.size)).offset = c₂.offset := by
            cases size <;> rfl
          refine (readItems_safe hr (by rw [hkeep]; exact hoffset₂) _ _).bind ?_
          rintro ⟨bytes, c₃⟩ ⟨halloc₃, hoffset₃⟩
          refine .pure ⟨?_, hoffset₃⟩
          simp only [Kind.allocFactor] at *
          omega
  | bools size =>
      refine readArray_safe hr hc (by decide) hmatch ?_
      rintro c₁ ⟨count, flow, c₂⟩ halloc₁ ⟨halloc₂, hoffset₂, hvector, hfixed⟩
      cases flow with
      | done => exact .pure ⟨by dsimp only at *; omega, hoffset₂⟩
      | next =>
          have hresize : ((c₂.resize size count).allocate count).allocated
              ≤ c₂.allocated + (Kind.bools size).allocFactor abi * r.totalSize := by
            cases size with
            | none =>
                have hcount := hvector rfl
                simp only [Cursor.allocate, Cursor.resize, Kind.allocFactor] at *
                omega
            | some n =>
                obtain ⟨hcount, hpos⟩ := hfixed n rfl
                have : (n : ℕ) ≤ n * r.totalSize := Nat.le_mul_of_pos_right _ hpos
                simp only [Cursor.allocate, Cursor.resize, Kind.allocFactor] at *
                omega
          have hkeep : ((c₂.resize size count).allocate count).offset = c₂.offset := by
            cases size <;> rfl
          refine (readItems_safe hr (by rw [hkeep]; exact hoffset₂) _ _).bind ?_
          rintro ⟨bytes, c₃⟩ ⟨halloc₃, hoffset₃⟩
          exact .pure ⟨by dsimp only at *; omega, hoffset₃⟩
  | strings size =>
      refine readArray_safe hr hc (by decide) hmatch ?_
      rintro c₁ ⟨count, flow, c₂⟩ halloc₁ ⟨halloc₂, hoffset₂, hvector, -⟩
      cases flow with
      | done => exact .pure ⟨by dsimp only at *; omega, hoffset₂⟩
      | next =>
          have hresize : (c₂.resize size (count * abi.stringSize)).allocated
              ≤ c₂.allocated + abi.stringSize * r.totalSize := by
            cases size with
            | none =>
                have hcount := hvector rfl
                refine Nat.add_le_add_left ?_ _
                rw [Nat.mul_comm]
                exact Nat.mul_le_mul_left _ (by omega)
            | some n => exact Nat.le_add_right _ _
          have hkeep : (c₂.resize size (count * abi.stringSize)).offset = c₂.offset := by
            cases size <;> rfl
          refine (readStrings_safe hr count _ (by rw [hkeep]; exact hoffset₂)).bind ?_
          rintro ⟨strs, flow, c₃⟩ ⟨hoffset₃, hmono, hbounded, halloc₃⟩
          refine .pure ⟨?_, hoffset₃⟩
          simp only [Kind.allocFactor, Nat.add_mul] at *
          omega

/-! ## Nested messages -/

/-- The buffer made for a nested message whose size is in range is honest, has that size,
and costs at most that much. -/
theorem nestedBuffer_safe {r : Region} {c : Cursor} {size : ℕ} (hr : r.Honest)
    (hc : c.offset < 2 ^ 32) (hsize : size < 2 ^ 31)
    (hrange : r.todsInRange c.offset size = true) :
    Returns (nestedBuffer r c size) fun res =>
      res.1.Honest ∧ res.1.totalSize = size ∧ res.2.offset < 2 ^ 32 ∧
        Progress r c res.2 size ∧ res.2.allocated ≤ c.allocated + size := by
  have hin := todsInRange_iff.mp hrange
  have htotal := totalSize_lt r
  refine .ite (fun _ => .pure ?_) (fun _ => .ite (fun hneg => by omega) (fun _ => ?_))
  · have hsub : u32 (toSizeT size) = size := by
      unfold toSizeT u32
      omega
    have hoffset : (c.advance size).offset = c.offset + size := by
      simp only [Cursor.advance, toU32]
      omega
    refine ⟨?_, hsub, by dsimp only; omega, ?_, Nat.le_add_right _ _⟩
    · have hbytes : r.totalSize ≤ r.bytes.length := hr
      simp only [Region.Honest, Region.totalSize, hsub, List.length_drop]
      simp only [Region.totalSize] at hin hbytes
      omega
    · refine { mono := ?_, bounded := ?_, spread := fun _ => ?_ } <;> dsimp only <;> omega
  · have hsum : toPureOffset c.offset + size < 2 ^ 32 := by
      have : toPureOffset c.offset ≤ c.offset := Nat.sub_le _ _
      omega
    have hsub : u32 size = size := u32_of_lt (by omega)
    have hitems : Returns (readItems r (c.allocate size) size size) fun res =>
        res.1.length = size ∧ res.2.allocated = c.allocated + size ∧ res.2.offset < 2 ^ 32 ∧
          Progress r c res.2 size := by
      refine .ite (fun _ => ?_) (fun hzero => .ok ?_)
      · have hread := (tods_safe (c := c.allocate size) hr hc size).and (tods_progress hr hc hsum)
        refine hread.mono ?_
        rintro ⟨bytes, c'⟩ ⟨⟨hlen, halloc, hoffset⟩, hprogress⟩
        exact ⟨hlen, halloc, hoffset, hprogress.mono, hprogress.bounded, hprogress.spread⟩
      · refine ⟨?_, rfl, hc, Nat.le_refl _, Nat.le_max_left _ _, fun _ => ?_⟩
        · simp only [List.length_nil]
          omega
        · omega
    refine hitems.bind ?_
    rintro ⟨bytes, c'⟩ ⟨hlen, halloc, hoffset, hprogress⟩
    refine .pure ⟨?_, hsub, hoffset, hprogress, Nat.le_of_eq halloc⟩
    simp only [Region.Honest, Region.totalSize, Int.toNat_natCast, hsub]
    exact Nat.le_of_eq hlen.symm

/-- The size found for a nested message is not negative and stays inside the buffer, and
the buffer made for the message meets a condition of its own. -/
def NestedFits (r : Region) (c : Cursor) (fits : Region → Prop) : Prop :=
  Yields (readInt32 r c) fun res =>
    0 ≤ res.1 ∧ r.todsInRange res.2.offset res.1.toNat = true ∧
      Yields (nestedBuffer r res.2 res.1) fun sub => fits sub.1

instance (r : Region) (c : Cursor) (fits : Region → Prop) [∀ sub, Decidable (fits sub)] :
    Decidable (NestedFits r c fits) :=
  inferInstanceAs (Decidable (Yields _ _))

/-- The same for every element an array of nested messages is filled with. -/
def ElemsFit {α : Type} (r : Region) (deserialize : Region → α → Except Fault (Outcome α))
    (fits : Region → α → Prop) : List α → Cursor → Prop
  | [], _ => True
  | old :: olds, c =>
      NestedFits r c (fun sub => fits sub old) ∧
        Yields (readNested r deserialize old c) fun res => ElemsFit r deserialize fits olds res.2

instance decElemsFit {α : Type} (r : Region)
    (deserialize : Region → α → Except Fault (Outcome α)) (fits : Region → α → Prop)
    [∀ sub old, Decidable (fits sub old)] :
    (olds : List α) → (c : Cursor) → Decidable (ElemsFit r deserialize fits olds c)
  | [], _ => inferInstanceAs (Decidable True)
  | _ :: olds, _ =>
      have := decElemsFit r deserialize fits olds
      inferInstanceAs (Decidable (_ ∧ _))

section Nested

variable {α : Type} {r : Region} {deserialize : Region → α → Except Fault (Outcome α)}
  {fits : Region → α → Prop} {factor : ℕ}

/-- One nested message, read from the bytes its size announces. -/
theorem readNested_safe (hr : r.Honest)
    (hdeser : ∀ sub old, sub.Honest → fits sub old →
      Returns (deserialize sub old) fun out => out.allocated ≤ factor * sub.totalSize)
    {old : α} {c : Cursor} (hc : c.offset < 2 ^ 32)
    (hfits : NestedFits r c fun sub => fits sub old) :
    Returns (readNested r deserialize old c) fun res =>
      res.2.offset < 2 ^ 32 ∧ c.offset ≤ res.2.offset ∧
        res.2.offset ≤ max c.offset (2 * r.totalSize) ∧
        ∃ size ≤ r.totalSize, size ≤ 114 * (res.2.offset - c.offset) ∧
          res.2.allocated ≤ c.allocated + (1 + factor) * size := by
  refine ((readInt32_safe hr hc).and_yields hfits).bind ?_
  rintro ⟨size, c₁⟩ ⟨⟨halloc₁, hoffset₁, hprogress₁, hlt, -⟩, hpos, hrange, hsub⟩
  obtain ⟨size, rfl⟩ := Int.eq_ofNat_of_zero_le hpos
  have hmono₁ := hprogress₁.mono
  have hbounded₁ := hprogress₁.bounded
  have hlt' : size < 2 ^ 31 := by
    dsimp only at hlt
    omega
  have hin := todsInRange_iff.mp hrange
  refine ((nestedBuffer_safe hr hoffset₁ hlt' hrange).and_yields hsub).bind ?_
  rintro ⟨sub, c₂⟩ ⟨⟨hhonest, htotal, hoffset₂, hprogress₂, halloc₂⟩, hsubFits⟩
  have hmono₂ := hprogress₂.mono
  have hbounded₂ := hprogress₂.bounded
  have hspread := hprogress₂.spread hrange
  refine (hdeser sub old hhonest hsubFits).bind fun out hout => ?_
  rw [htotal] at hout
  dsimp only [Int.toNat_natCast] at *
  refine .pure ⟨hoffset₂, ?_, ?_, size, by omega, ?_, ?_⟩
  · simp only [Cursor.allocate]
    omega
  · simp only [Cursor.allocate]
    omega
  · simp only [Cursor.allocate]
    omega
  · simp only [Cursor.allocate, Nat.add_mul, Nat.one_mul]
    omega

/-- The elements of an array of nested messages together. -/
theorem readElems_safe (hr : r.Honest)
    (hdeser : ∀ sub old, sub.Honest → fits sub old →
      Returns (deserialize sub old) fun out => out.allocated ≤ factor * sub.totalSize)
    (olds : List α) :
    ∀ c : Cursor, c.offset < 2 ^ 32 → ElemsFit r deserialize fits olds c →
      Returns (readElems r deserialize olds c) fun res =>
        res.2.offset < 2 ^ 32 ∧ c.offset ≤ res.2.offset ∧
          res.2.offset ≤ max c.offset (2 * r.totalSize) ∧
          res.2.allocated ≤ c.allocated + (1 + factor) * (114 * (res.2.offset - c.offset)) := by
  induction olds with
  | nil =>
      intro c hc _
      exact .pure ⟨hc, Nat.le_refl _, Nat.le_max_left _ _, by simp⟩
  | cons old olds ih =>
      intro c hc hfits
      obtain ⟨hhead, htail⟩ := hfits
      refine ((readNested_safe hr hdeser hc hhead).and_yields htail).bind ?_
      rintro ⟨item, c₁⟩ ⟨⟨hoffset₁, hmono₁, hbounded₁, size, -, hsize, halloc₁⟩, hrest⟩
      refine (ih c₁ hoffset₁ hrest).bind ?_
      rintro ⟨items, c₂⟩ ⟨hoffset₂, hmono₂, hbounded₂, halloc₂⟩
      dsimp only at *
      refine .pure ⟨hoffset₂, by dsimp only; omega, by dsimp only; omega, ?_⟩
      have hsplit : 114 * (c₂.offset - c.offset)
          = 114 * (c₁.offset - c.offset) + 114 * (c₂.offset - c₁.offset) := by omega
      have hfirst := Nat.mul_le_mul_left (1 + factor) hsize
      dsimp only
      rw [hsplit, Nat.mul_add]
      omega

end Nested

/-! ## Whole messages -/

/-- What the reader meets in the buffer, from the cursor on: every fixed array finds its
own length, and every nested message, at any depth, has a size that stays inside the
buffer it is read from. -/
def Schema.WellSized (abi : Abi) : (S : Schema) → Region → S.Value → Cursor → Prop
  | nil, _, _, _ => True
  | field _ kind rest, r, old, c =>
      kind.CountMatches r c ∧
        Yields (kind.read abi r old.1 c) fun res =>
          res.2.1 = .next → rest.WellSized abi r old.2 res.2.2
  | nested _ msg rest, r, old, c =>
      Yields (readHeader r c) fun c =>
        NestedFits r c (fun sub => msg.WellSized abi sub old.1 .start) ∧
          Yields (readNested r (msg.deserialize abi) old.1 c) fun res =>
            rest.WellSized abi r old.2 res.2
  | nestedArray _ size msg rest, r, old, c =>
      Yields (readHeader r c) fun c =>
        CountMatches size r c ∧
          Yields (readCount r c size 4) fun res =>
            res.2.1 = .next →
              ElemsFit r (msg.deserialize abi) (fun sub old => msg.WellSized abi sub old .start)
                (old.1.resized msg.default res.1)
                (res.2.2.resize size (res.1 * abi.messageSize msg)) ∧
              Yields (readElems r (msg.deserialize abi) (old.1.resized msg.default res.1)
                (res.2.2.resize size (res.1 * abi.messageSize msg))) fun res =>
                  rest.WellSized abi r old.2 res.2

instance Schema.decWellSized (abi : Abi) :
    (S : Schema) → (r : Region) → (old : S.Value) → (c : Cursor) →
      Decidable (S.WellSized abi r old c)
  | nil, _, _, _ => inferInstanceAs (Decidable True)
  | field _ _ rest, _, _, _ =>
      have := rest.decWellSized abi
      inferInstanceAs (Decidable (_ ∧ _))
  | nested _ msg rest, _, _, _ =>
      have := msg.decWellSized abi
      have := rest.decWellSized abi
      inferInstanceAs (Decidable (Yields _ _))
  | nestedArray _ _ msg rest, _, _, _ =>
      have := msg.decWellSized abi
      have := rest.decWellSized abi
      inferInstanceAs (Decidable (Yields _ _))

/-- What a message may allocate while it is read, as a multiple of the length of its
buffer. -/
def Schema.allocFactor (abi : Abi) : Schema → ℕ
  | nil => 0
  | field _ kind rest => kind.allocFactor abi + rest.allocFactor abi
  | nested _ msg rest => 1 + msg.allocFactor abi + rest.allocFactor abi
  | nestedArray _ _ msg rest =>
      abi.messageSize msg + 228 * (1 + msg.allocFactor abi) + rest.allocFactor abi

/-- The code generated for the fields of `S` ends without a fault on every buffer it finds
well sized, and allocates in bounds. -/
def FieldsSafe (abi : Abi) (S : Schema) : Prop :=
  ∀ (r : Region) (old : S.Value) (c : Cursor), r.Honest → c.offset < 2 ^ 32 →
    S.WellSized abi r old c →
    Returns (S.readFields abi r old c) fun res =>
      res.2.2.allocated ≤ c.allocated + S.allocFactor abi * r.totalSize

/-- Then so does `deserialize`. -/
theorem FieldsSafe.deserialize {abi : Abi} {S : Schema} (hfields : FieldsSafe abi S) (r : Region)
    (old : S.Value) (hr : r.Honest) (hsized : S.WellSized abi r old .start) :
    Returns (S.deserialize abi r old) fun out =>
      out.allocated ≤ S.allocFactor abi * r.totalSize := by
  refine (hfields r old .start hr (by decide) hsized).map fun res hres => ?_
  simpa [Outcome.ofRead, Cursor.start] using hres

/-- The induction over the schema. -/
theorem fieldsSafe (abi : Abi) (S : Schema) : FieldsSafe abi S := by
  induction S with
  | nil =>
      intro r old c _ _ _
      exact .pure (Nat.le_add_right _ _)
  | field name kind tl ih =>
      intro r old c hr hc hsized
      obtain ⟨hmatch, htl⟩ := hsized
      refine ((kind.read_safe old.1 hr hc hmatch).and_yields htl).bind ?_
      rintro ⟨v, flow, c₁⟩ ⟨⟨halloc₁, hoffset₁⟩, hrest⟩
      simp only [Schema.allocFactor, Nat.add_mul]
      cases flow with
      | done => exact .pure (by dsimp only at *; omega)
      | next =>
          refine (ih r old.2 c₁ hr hoffset₁ (hrest rfl)).bind ?_
          rintro ⟨vs, flow, c₂⟩ halloc₂
          exact .pure (by dsimp only at *; omega)
  | nested name msg tl ihMsg ih =>
      intro r old c hr hc hsized
      refine ((readHeader_safe hr hc).and_yields hsized).bind ?_
      rintro c₁ ⟨⟨halloc₁, hoffset₁⟩, hfits, htl⟩
      have hdeser := FieldsSafe.deserialize ihMsg
      refine ((readNested_safe hr hdeser hoffset₁ hfits).and_yields htl).bind ?_
      rintro ⟨v, c₂⟩ ⟨⟨hoffset₂, -, -, size, hsize, -, halloc₂⟩, hrest⟩
      refine (ih r old.2 c₂ hr hoffset₂ hrest).bind ?_
      rintro ⟨vs, flow, c₃⟩ halloc₃
      have hbound := Nat.mul_le_mul_left (1 + msg.allocFactor abi) hsize
      refine .pure ?_
      simp only [Schema.allocFactor, Nat.add_mul] at *
      omega
  | nestedArray name size msg tl ihMsg ih =>
      intro r old c hr hc hsized
      refine ((readHeader_safe hr hc).and_yields hsized).bind ?_
      rintro c₁ ⟨⟨halloc₁, hoffset₁⟩, hmatch, hcount⟩
      have hdeser := FieldsSafe.deserialize ihMsg
      refine ((readCount_safe hr hoffset₁ (by decide) hmatch).and_yields hcount).bind ?_
      rintro ⟨count, flow, c₂⟩ ⟨⟨halloc₂, hoffset₂, hvector, -⟩, helems⟩
      cases flow with
      | done => exact .pure (by dsimp only at *; omega)
      | next =>
          obtain ⟨hfits, htl⟩ := helems rfl
          have hresize : (c₂.resize size (count * abi.messageSize msg)).allocated
              ≤ c₂.allocated + abi.messageSize msg * r.totalSize := by
            cases size with
            | none =>
                have := hvector rfl
                refine Nat.add_le_add_left ?_ _
                rw [Nat.mul_comm]
                exact Nat.mul_le_mul_left _ (by dsimp only at this; omega)
            | some n => exact Nat.le_add_right _ _
          have hkeep : (c₂.resize size (count * abi.messageSize msg)).offset = c₂.offset := by
            cases size <;> rfl
          refine ((readElems_safe hr hdeser _ _ (by rw [hkeep]; exact hoffset₂) hfits).and_yields
            htl).bind ?_
          rintro ⟨items, c₃⟩ ⟨⟨hoffset₃, hmono₃, hbounded₃, halloc₃⟩, hrest⟩
          refine (ih r old.2 c₃ hr hoffset₃ hrest).bind ?_
          rintro ⟨vs, flow, c₄⟩ halloc₄
          have hbound : (1 + msg.allocFactor abi)
                * (114 * (c₃.offset - (c₂.resize size (count * abi.messageSize msg)).offset))
              ≤ (1 + msg.allocFactor abi) * (228 * r.totalSize) :=
            Nat.mul_le_mul_left _ (by dsimp only at *; omega)
          have hassoc : 228 * (1 + msg.allocFactor abi) * r.totalSize
              = (1 + msg.allocFactor abi) * (228 * r.totalSize) := by
            rw [Nat.mul_comm 228, Nat.mul_assoc]
          refine .pure ?_
          simp only [Schema.allocFactor, Nat.add_mul _ _ r.totalSize, hassoc] at *
          omega

/-- `deserialize`, run on a buffer of exactly these bytes, comes back, and allocates at most
`factor` times the length of the buffer.  A throw and a read outside the buffer are faults,
so that it then does neither. -/
def Schema.SafeOn (abi : Abi) (S : Schema) (factor : ℕ) (buffer : List UInt8) (old : S.Value) :
    Prop :=
  Returns (S.deserialize abi (Region.whole buffer) old) fun out =>
    out.allocated ≤ factor * buffer.length

instance (abi : Abi) (S : Schema) (factor : ℕ) (buffer : List UInt8) (old : S.Value) :
    Decidable (S.SafeOn abi factor buffer old) :=
  inferInstanceAs (Decidable (Returns _ _))

/-- **Safety.**  On a buffer in which every nested size stays inside the bytes it is read
from and every fixed array finds its own length, the generated `deserialize` ends without
a throw and without a read outside the buffer, and it allocates at most a constant of the
schema times the length of the buffer. -/
theorem deserialize_safe (abi : Abi) (S : Schema) (buffer : List UInt8) (old : S.Value)
    (hsized : S.WellSized abi (Region.whole buffer) old .start) :
    S.SafeOn abi (S.allocFactor abi) buffer old := by
  refine ((fieldsSafe abi S).deserialize _ old (honest_whole buffer) hsized).mono fun out hout => ?_
  exact Nat.le_trans hout (Nat.mul_le_mul_left _ (u32_le buffer.length))

/-- A message `m` with one byte `x`, nested in another. -/
def innerSchema : Schema :=
  .nested [109] (.field [120] (.scalar .uint8) .nil) .nil

/-- Garbage in which the nested message is announced with the two bytes that follow. -/
def garbage : List UInt8 := [1, 0, 0, 0, 109, 25, 2, 0, 0, 0, 255, 255]

theorem deserialize_safe_garbage :
    innerSchema.SafeOn ⟨32, fun _ => 8⟩ 1 garbage innerSchema.default :=
  deserialize_safe ⟨32, fun _ => 8⟩ innerSchema garbage innerSchema.default (by decide +kernel)

/-- The same message announced with 100 bytes, none of which is in the buffer: the nested
`deserialize` reads them.  A fixed array throws on an empty buffer. -/
theorem deserialize_unsafe :
    (∀ factor, ¬ innerSchema.SafeOn ⟨32, fun _ => 8⟩ factor [1, 0, 0, 0, 109, 25, 100, 0, 0, 0]
        innerSchema.default) ∧
      ∀ factor, ¬ (Schema.field [97] (.scalars .uint8 (some 3)) .nil).SafeOn ⟨32, fun _ => 8⟩
        factor [] (Schema.field [97] (.scalars .uint8 (some 3)) .nil).default := by
  have houtside : Yields (innerSchema.deserialize ⟨32, fun _ => 8⟩
      (Region.whole [1, 0, 0, 0, 109, 25, 100, 0, 0, 0]) innerSchema.default) fun _ => False := by
    decide +kernel
  have hthrows : Yields ((Schema.field [97] (.scalars .uint8 (some 3)) .nil).deserialize
      ⟨32, fun _ => 8⟩ (Region.whole [])
      (Schema.field [97] (.scalars .uint8 (some 3)) .nil).default) fun _ => False := by
    decide +kernel
  exact ⟨fun _ => not_returns_of_yields_false houtside,
    fun _ => not_returns_of_yields_false hthrows⟩

end DzIpc.Wire
