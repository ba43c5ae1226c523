import DzIpc.Flat.Layout
import DzIpc.Library.Abi

/-!
# Two layouts and two hashes

The generator computes the layout and the hash of a record in Python, for the Python decoder; the
compiler lays the generated struct out itself, and `dzflat.h` has the hash as a constant
expression.

* `computeLayout_eq`: the offsets, sizes and alignments are those of the compiler.
* `cachedHash_eq`: the hashes are equal.
-/

namespace DzIpc.Flat

open Wire

/-! ## The layout of the generator -/

/-- An entry of `fields` in `LAYOUT_CACHE`. -/
structure FieldLayout where
  name : List UInt8
  offset : ℕ
  size : ℕ
  align : ℕ
  deriving DecidableEq

/-- An entry of `LAYOUT_CACHE`. -/
structure LayoutInfo where
  size : ℕ
  align : ℕ
  fields : List FieldLayout
  deriving DecidableEq

/-- `info` in `compute_layout`, of the fields, `cur` and `align` behind the loop. -/
def LayoutInfo.of (S : Schema) (loop : List FieldLayout × ℕ × ℕ) : LayoutInfo :=
  { size := match S with
      | .nil => rootAlign
      | _ => alignTo loop.2.1 loop.2.2
    align := loop.2.2
    fields := loop.1 }

/-- The loop of `compute_layout`, from `cur` and `align` on. -/
def layoutLoop : Schema → ℕ → ℕ → List FieldLayout × ℕ × ℕ
  | .nil, cur, align => ([], cur, align)
  | .field name k rest, cur, align =>
    let off := alignTo cur (memberAlign k)
    let loop := layoutLoop rest (off + memberSize k) (max align (memberAlign k))
    (⟨name, off, memberSize k, memberAlign k⟩ :: loop.1, loop.2)
  | .nested name msg rest, cur, align =>
    -- the entry of the nested message is in the cache
    let size := (LayoutInfo.of msg (layoutLoop msg 0 rootAlign)).size
    let off := alignTo cur rootAlign
    let loop := layoutLoop rest (off + size) (max align rootAlign)
    (⟨name, off, size, rootAlign⟩ :: loop.1, loop.2)
  | .nestedArray name _ _ rest, cur, align =>
    let off := alignTo cur varRefAlign
    let loop := layoutLoop rest (off + varRefSize) (max align varRefAlign)
    (⟨name, off, varRefSize, varRefAlign⟩ :: loop.1, loop.2)

/-- `compute_layout`. -/
def computeLayout (S : Schema) : LayoutInfo := .of S (layoutLoop S 0 rootAlign)

theorem memberAlign_le (k : Kind) : memberAlign k ≤ rootAlign := by
  have hscalar : ∀ s : Scalar, s.size ≤ rootAlign := by
    intro s
    cases s <;> decide
  unfold memberAlign
  split
  · exact hscalar _
  · exact hscalar _
  all_goals decide

theorem LayoutInfo.size_of (S : Schema) {loop : List FieldLayout × ℕ × ℕ} {cur : ℕ}
    (h : loop.2 = (cur, rootAlign)) : (LayoutInfo.of S loop).size = recordSize S cur := by
  cases S with
  | nil => rfl
  | field _ _ _ => exact congrArg (fun c => alignTo c.1 c.2) h
  | nested _ _ _ => exact congrArg (fun c => alignTo c.1 c.2) h
  | nestedArray _ _ _ _ => exact congrArg (fun c => alignTo c.1 c.2) h

theorem layoutLoop_snd (S : Schema) (cur : ℕ) :
    (layoutLoop S cur rootAlign).2 = (layoutEnd S cur, rootAlign) := by
  induction S generalizing cur with
  | nil => rfl
  | field name k rest ih =>
    rw [layoutLoop, layoutEnd, ← ih, Nat.max_eq_left (memberAlign_le k)]
  | nested name msg rest ihmsg ih =>
    have hsize := LayoutInfo.size_of msg (ihmsg 0)
    rw [layoutLoop, layoutEnd, ← ih, hsize, Nat.max_self]
  | nestedArray name size msg rest _ ih =>
    rw [layoutLoop, layoutEnd, ← ih, Nat.max_eq_left (by decide)]

/-- The size of a record is the one that views work with. -/
theorem computeLayout_size (S : Schema) : (computeLayout S).size = rootSize S :=
  LayoutInfo.size_of S (layoutLoop_snd S 0)

/-! ## The layout of the compiler -/

/-- `VarRef`. -/
def varRefExtent : Abi.Extent := Abi.record 1 [⟨4, 4⟩, ⟨4, 4⟩]

/-- The member of a field that is not a nested message. -/
def memberExtent : Kind → Abi.Extent
  | .scalar s => ⟨s.size, s.size⟩
  | .bool => ⟨1, 1⟩
  | .scalars s (some n) => Abi.array ⟨s.size, s.size⟩ n
  | .bools (some n) => Abi.array ⟨1, 1⟩ n
  | .string | .scalars _ none | .bools none | .strings _ => varRefExtent

/-- The members of `XxxRoot`, which is declared with `alignas(8)`. -/
def rootMembers : Schema → List Abi.Extent
  | .nil => []
  | .field _ k rest => memberExtent k :: rootMembers rest
  | .nested _ msg rest => Abi.record rootAlign (rootMembers msg) :: rootMembers rest
  | .nestedArray _ _ _ rest => varRefExtent :: rootMembers rest

/-- `XxxRoot`. -/
def rootExtent (S : Schema) : Abi.Extent := Abi.record rootAlign (rootMembers S)

theorem memberExtent_eq (k : Kind) : memberExtent k = ⟨memberSize k, memberAlign k⟩ := by
  unfold memberExtent memberSize memberAlign
  split <;> first | rfl | simp [Abi.array]

theorem alignTo_eq_roundUp (n : ℕ) {a : ℕ} (ha : 0 < a) : alignTo n a = Abi.roundUp n a := by
  have hleast : IsLeast {o | n ≤ o ∧ a ∣ o} (alignTo n a) := by
    refine ⟨⟨le_alignTo n ha, Nat.dvd_mul_left _ _⟩, ?_⟩
    rintro o ⟨hle, q, rfl⟩
    rw [alignTo, Nat.mul_comm]
    have hlt : (n + a - 1) / a < q + 1 := by
      rw [Nat.div_lt_iff_lt_mul ha, Nat.add_mul, Nat.one_mul, Nat.mul_comm q]
      omega
    exact Nat.mul_le_mul_left a (Nat.lt_succ_iff.mp hlt)
  exact hleast.unique (Abi.isLeast_roundUp n ha)

/-- No member makes the alignment stricter than `alignas(8)` does. -/
theorem alignOf_rootMembers (S : Schema) : Abi.alignOf rootAlign (rootMembers S) = rootAlign := by
  rw [Abi.alignOf]
  induction S with
  | nil => rfl
  | field name k rest ih =>
    rw [rootMembers, List.foldl_cons, memberExtent_eq, Nat.max_eq_left (memberAlign_le k), ih]
  | nested name msg rest ihmsg ih =>
    have hmsg : (Abi.record rootAlign (rootMembers msg)).align = rootAlign := ihmsg
    rw [rootMembers, List.foldl_cons, hmsg, Nat.max_self, ih]
  | nestedArray name size msg rest _ ih =>
    rw [rootMembers, List.foldl_cons]
    exact ih

theorem layoutEnd_pos {S : Schema} (hne : S ≠ .nil) : 0 < layoutEnd S 0 := by
  cases S with
  | nil => exact absurd rfl hne
  | field name k rest =>
    exact lt_of_lt_of_le (Nat.add_pos_right _ (memberSize_pos k)) (le_layoutEnd rest _)
  | nested name msg rest =>
    exact lt_of_lt_of_le (Nat.add_pos_right _ (rootSize_pos msg)) (le_layoutEnd rest _)
  | nestedArray name size msg rest =>
    exact lt_of_lt_of_le (Nat.add_pos_right _ (by decide)) (le_layoutEnd rest _)

/-- The size of a record whose members end where the compiler ends them. -/
theorem rootExtent_eq {S : Schema} (hend : Abi.endOf (rootMembers S) 0 = layoutEnd S 0) :
    rootExtent S = ⟨rootSize S, rootAlign⟩ := by
  rw [rootExtent, Abi.record, alignOf_rootMembers, hend, Abi.Extent.mk.injEq]
  refine ⟨?_, rfl⟩
  cases S with
  | nil => rfl
  | field _ _ _ =>
    rw [Nat.max_eq_right (layoutEnd_pos (by simp)), ← alignTo_eq_roundUp _ (by decide)]
    rfl
  | nested _ _ _ =>
    rw [Nat.max_eq_right (layoutEnd_pos (by simp)), ← alignTo_eq_roundUp _ (by decide)]
    rfl
  | nestedArray _ _ _ _ =>
    rw [Nat.max_eq_right (layoutEnd_pos (by simp)), ← alignTo_eq_roundUp _ (by decide)]
    rfl

theorem endOf_rootMembers (S : Schema) (cur : ℕ) :
    Abi.endOf (rootMembers S) cur = layoutEnd S cur := by
  induction S generalizing cur with
  | nil => rfl
  | field name k rest ih =>
    rw [rootMembers, Abi.endOf, memberExtent_eq, ih, layoutEnd,
      alignTo_eq_roundUp _ (memberAlign_pos k)]
  | nested name msg rest ihmsg ih =>
    have hmsg : Abi.record rootAlign (rootMembers msg) = ⟨rootSize msg, rootAlign⟩ :=
      rootExtent_eq (ihmsg 0)
    rw [rootMembers, Abi.endOf, hmsg, ih, layoutEnd, alignTo_eq_roundUp _ (by decide)]
    rfl
  | nestedArray name size msg rest _ ih =>
    rw [rootMembers, Abi.endOf, ih, layoutEnd, alignTo_eq_roundUp _ (by decide)]
    rfl

/-- The loop of the generator lays the members out as the compiler does. -/
theorem layoutLoop_fields (S : Schema) (cur : ℕ) :
    (layoutLoop S cur rootAlign).1.map FieldLayout.offset = Abi.offsets (rootMembers S) cur ∧
      (layoutLoop S cur rootAlign).1.map (fun f => Abi.Extent.mk f.size f.align) =
        rootMembers S := by
  induction S generalizing cur with
  | nil => exact ⟨rfl, rfl⟩
  | field name k rest ih =>
    obtain ⟨hoffsets, hextents⟩ := ih (alignTo cur (memberAlign k) + memberSize k)
    rw [layoutLoop, Nat.max_eq_left (memberAlign_le k), rootMembers, Abi.offsets, memberExtent_eq,
      ← alignTo_eq_roundUp _ (memberAlign_pos k), ← hoffsets, ← hextents]
    exact ⟨rfl, rfl⟩
  | nested name msg rest _ ih =>
    have hmsg : Abi.record rootAlign (rootMembers msg) = ⟨rootSize msg, rootAlign⟩ :=
      rootExtent_eq (endOf_rootMembers msg 0)
    have hsize : (LayoutInfo.of msg (layoutLoop msg 0 rootAlign)).size = rootSize msg :=
      computeLayout_size msg
    obtain ⟨hoffsets, hextents⟩ := ih (alignTo cur rootAlign + rootSize msg)
    rw [layoutLoop, hsize, Nat.max_self, rootMembers, Abi.offsets, hmsg,
      ← alignTo_eq_roundUp _ (a := rootAlign) (by decide), ← hoffsets, ← hextents]
    exact ⟨rfl, rfl⟩
  | nestedArray name size msg rest _ ih =>
    obtain ⟨hoffsets, hextents⟩ := ih (alignTo cur varRefAlign + varRefSize)
    rw [layoutLoop, Nat.max_eq_left (by decide), rootMembers, Abi.offsets,
      ← alignTo_eq_roundUp _ (by decide)]
    refine ⟨congrArg (alignTo cur varRefAlign :: ·) hoffsets, congrArg (varRefExtent :: ·) hextents⟩

/-- The layout of a record, computed twice. -/
theorem computeLayout_eq (S : Schema) :
    Abi.Extent.mk (computeLayout S).size (computeLayout S).align = rootExtent S ∧
      (computeLayout S).fields.map FieldLayout.offset = Abi.offsets (rootMembers S) 0 ∧
      (computeLayout S).fields.map (fun f => Abi.Extent.mk f.size f.align) = rootMembers S := by
  refine ⟨?_, layoutLoop_fields S 0⟩
  have halign : (computeLayout S).align = rootAlign := congrArg Prod.snd (layoutLoop_snd S 0)
  rw [computeLayout_size, halign, rootExtent_eq (endOf_rootMembers S 0)]

/-! ## Hashes -/

/-- The step of both loops: multiplied with `_FNV_PRIME`, and cut to 32 bits. -/
def pyFnvStep (h v : ℕ) : ℕ := ((h ^^^ v) * 16777619) &&& 0xFFFFFFFF

/-- `_fnv1a`. -/
def pyFnv1a (data : List UInt8) (h : ℕ) : ℕ := data.foldl (fun h b => pyFnvStep h b.toNat) h

/-- `_fnv1a_u32`. -/
def pyFnv1aU32 (v h : ℕ) : ℕ :=
  [0, 8, 16, 24].foldl (fun h shift => pyFnvStep h ((v >>> shift) &&& 0xFF)) h

/-- `compute_schema_hash`. -/
def computeSchemaHash (canon : List UInt8) (nestedHashes : List ℕ) : ℕ :=
  nestedHashes.foldl (fun h nh => pyFnv1aU32 nh h) (pyFnv1a canon 2166136261)

/-- The entries of `HASH_CACHE` of the nested messages, in order. -/
def cachedHashes : Schema → List ℕ
  | .nil => []
  | .field _ _ rest => cachedHashes rest
  | .nested _ msg rest | .nestedArray _ _ msg rest =>
    computeSchemaHash (canon msg) (cachedHashes msg) :: cachedHashes rest

/-- The entry of `HASH_CACHE`. -/
def cachedHash (S : Schema) : ℕ := computeSchemaHash (canon S) (cachedHashes S)

theorem toNat_fnvStep (h v : UInt32) : (fnvStep h v).toNat = pyFnvStep h.toNat v.toNat := by
  have hmask : ∀ n : ℕ, n &&& 0xFFFFFFFF = n % 2 ^ 32 := by
    intro n
    rw [show (0xFFFFFFFF : ℕ) = 2 ^ 32 - 1 from rfl, Nat.and_two_pow_sub_one_eq_mod]
  have hprime : (16777619 : UInt32).toNat = 16777619 := by decide
  rw [fnvStep, UInt32.toNat_mul, UInt32.toNat_xor, hprime, pyFnvStep, hmask]

theorem toNat_fnv1aU32 (v h : UInt32) : (fnv1aU32 v h).toNat = pyFnv1aU32 v.toNat h.toNat := by
  have hmask : (0xFF : UInt32).toNat = 0xFF := by decide
  have hbyte : ∀ shift : UInt32, ((v >>> shift) &&& 0xFF).toNat =
      (v.toNat >>> (shift.toNat % 32)) &&& 0xFF := by
    intro shift
    rw [UInt32.toNat_and, UInt32.toNat_shiftRight, hmask]
  have h0 : (v &&& 0xFF).toNat = (v.toNat >>> 0) &&& 0xFF := by
    rw [UInt32.toNat_and, hmask, Nat.shiftRight_zero]
  have h8 := hbyte 8
  have h16 := hbyte 16
  have h24 := hbyte 24
  rw [fnv1aU32, toNat_fnvStep, toNat_fnvStep, toNat_fnvStep, toNat_fnvStep, h0, h8, h16, h24,
    pyFnv1aU32, List.foldl_cons, List.foldl_cons, List.foldl_cons, List.foldl_cons, List.foldl_nil]
  rfl

theorem toNat_fnv1a (data : List UInt8) (h : UInt32) :
    (data.foldl (fun h b => fnvStep h b.toUInt32) h).toNat = pyFnv1a data h.toNat := by
  induction data generalizing h with
  | nil => rfl
  | cons b data ih =>
    rw [List.foldl_cons, ih, pyFnv1a, pyFnv1a, List.foldl_cons, toNat_fnvStep, UInt8.toNat_toUInt32]

theorem toNat_mixNested (h : UInt32) (nested : List UInt32) :
    (mixNested h nested).toNat =
      (nested.map UInt32.toNat).foldl (fun h nh => pyFnv1aU32 nh h) h.toNat := by
  induction nested generalizing h with
  | nil => rfl
  | cons v nested ih =>
    rw [mixNested, List.foldl_cons, ← mixNested, ih, List.map_cons, List.foldl_cons, toNat_fnv1aU32]

theorem computeSchemaHash_eq (bytes : List UInt8) (nested : List UInt32) :
    computeSchemaHash bytes (nested.map UInt32.toNat) = (mixNested (fnv1a bytes) nested).toNat := by
  rw [toNat_mixNested, fnv1a, toNat_fnv1a]
  rfl

theorem cachedHashes_eq (S : Schema) : cachedHashes S = (nestedHashes S).map UInt32.toNat := by
  induction S with
  | nil => rfl
  | field name k rest ih => exact ih
  | nested name msg rest ihmsg ih =>
    rw [cachedHashes, ihmsg, ih, computeSchemaHash_eq, nestedHashes, List.map_cons]
  | nestedArray name size msg rest ihmsg ih =>
    rw [cachedHashes, ihmsg, ih, computeSchemaHash_eq, nestedHashes, List.map_cons]

/-- The hash of a message, computed twice. -/
theorem cachedHash_eq (S : Schema) : cachedHash S = (schemaHash S).toNat := by
  rw [cachedHash, cachedHashes_eq, computeSchemaHash_eq, schemaHash]

end DzIpc.Flat
