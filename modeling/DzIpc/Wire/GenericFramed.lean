import DzIpc.Wire.GenericRoundTrip

/-!
# What `GenericMessage` reads can be written again

Whatever the buffer holds, every field that `deserialize` adds has a name and value bytes in the
layout of its type.  So a message that has been read comes back from its own buffer.

* `readField_framed` and `readFields_framed` are the step and the run of the loop.
* `deserialize_framed` is the result.
-/

namespace DzIpc.Wire

theorem length_copy (r : Region) (start len : ℕ) :
    Yields (r.copy start len) fun bytes => bytes.length = len := by
  unfold Region.copy
  refine .ite (fun h => ?_) (fun _ => trivial)
  change (List.take len (List.drop start r.bytes)).length = len
  rw [List.length_take, List.length_drop]
  omega

namespace GenericMessage

variable {r : Region}

/-! ## Objects -/

/-- A paged read gives as many bytes as the object has, read or not. -/
private theorem length_pagedLoop (cutCnt : ℕ) : ∀ (c : Scan) (pure left : ℕ),
    Yields (pagedLoop r cutCnt c pure left) fun res => res.1.length = left := by
  induction cutCnt with
  | zero =>
      intro c pure left
      unfold pagedLoop readRest
      refine .ite (fun _ => ?_) (fun _ => ?_)
      · exact (length_copy r c.offset left).bind fun bytes hbytes => .pure hbytes
      · exact .pure List.length_replicate
  | succ cutCnt ih =>
      intro c pure left
      unfold pagedLoop
      dsimp only
      refine .ite (fun _ => ?_) (fun _ => ?_)
      · unfold readRest
        refine .ite (fun _ => ?_) (fun _ => ?_)
        · exact (length_copy r _ left).bind fun bytes hbytes => .pure hbytes
        · exact .pure List.length_replicate
      · refine (length_copy r _ _).bind fun bytes hbytes => ?_
        refine (ih _ _ _).bind fun rest hrest => .pure ?_
        rw [List.length_append, hbytes, hrest]
        omega

theorem length_readPaged (c : Scan) (len : ℕ) :
    Yields (readPaged r c len) fun res => res.1.length = len :=
  length_pagedLoop _ _ _ _

theorem length_readBytesPaged (c : Scan) (size : ℤ) :
    Yields (readBytesPaged r c size) fun res => res.1.length = size.toNat := by
  unfold readBytesPaged
  refine .ite (fun hnone => ?_) (fun _ => length_readPaged _ _)
  change 0 = size.toNat
  omega

/-! ## Values -/

theorem readSized_stored (c : Scan) :
    Yields (readSized r c) fun res => res.2.1 = .next → ∃ bytes, res.1 = blob bytes := by
  unfold readSized
  refine .ite (fun _ => .pure nofun) (fun _ => ?_)
  refine Yields.any.bind fun size _ => ?_
  refine .ite (fun _ => .pure nofun) (fun _ => ?_)
  exact Yields.any.bind fun bytes _ => .pure fun _ => ⟨bytes.1, rfl⟩

theorem readElements_stored (width count : ℕ) : ∀ c : Scan,
    Yields (readElements r width count c) fun res =>
      res.2.1 = .next → res.1.length = count * width := by
  induction count with
  | zero => exact fun c => .pure fun _ => (Nat.zero_mul width).symm
  | succ count ih =>
      intro c
      unfold readElements
      refine .ite (fun _ => .pure fun hflow => Flow.noConfusion hflow) (fun _ => ?_)
      refine (length_readPaged _ _).bind fun bytes hbytes => ?_
      refine (ih bytes.2).bind fun rest hrest => .pure fun hflow => ?_
      rw [List.length_append, hbytes, hrest hflow, Nat.succ_mul, Nat.add_comm]

theorem readSizedArray_stored (count : ℕ) : ∀ c : Scan,
    Yields (readSizedArray r count c) fun res => res.2.1 = .next →
      ∃ items : List (List UInt8), items.length = count ∧ res.1 = items.flatMap blob := by
  induction count with
  | zero => exact fun c => .pure fun _ => ⟨[], rfl, rfl⟩
  | succ count ih =>
      intro c
      unfold readSizedArray
      refine (readSized_stored _).bind ?_
      rintro ⟨item, flow, c₁⟩ hitem
      cases flow with
      | done => exact .pure nofun
      | next =>
          refine (ih c₁).bind ?_
          rintro ⟨rest, flow, c₂⟩ hrest
          refine .pure fun hflow => ?_
          obtain ⟨bytes, hbytes⟩ := hitem rfl
          obtain ⟨items, hlen, hitems⟩ := hrest hflow
          dsimp only at hbytes hitems
          exact ⟨bytes :: items, by rw [List.length_cons, hlen],
            by rw [List.flatMap_cons, hbytes, hitems]⟩

/-- The cases of the `switch`. -/
theorem readValue_stored (c : Scan) (l : Layout) :
    Yields (readValue r c l) fun res => res.2.1 = .next → Stored l res.1 := by
  cases l with
  | fixed width =>
      unfold readValue
      refine .ite (fun _ => .pure nofun) (fun _ => ?_)
      exact (length_readPaged _ _).bind fun bytes hbytes => .pure fun _ => .fixed hbytes
  | sized =>
      refine (readSized_stored c).mono fun res hres hflow => ?_
      obtain ⟨bytes, hbytes⟩ := hres hflow
      exact hbytes ▸ .sized bytes
  | array width =>
      unfold readValue
      refine Yields.any.bind ?_
      rintro ⟨count, c₁⟩ -
      cases count with
      | none => exact .pure nofun
      | some count =>
          refine (readElements_stored width count _).bind ?_
          rintro ⟨elems, flow, c₂⟩ helems
          exact .pure fun hflow => .array (helems hflow)
  | sizedArray =>
      unfold readValue
      refine Yields.any.bind ?_
      rintro ⟨count, c₁⟩ -
      cases count with
      | none => exact .pure nofun
      | some count =>
          refine (readSizedArray_stored count _).bind ?_
          rintro ⟨items', flow, c₂⟩ hitems'
          refine .pure fun hflow => ?_
          obtain ⟨items, rfl, hitems⟩ := hitems' hflow
          dsimp only at hitems
          exact hitems ▸ .sizedArray items

/-! ## Fields -/

theorem readHeader_name (c : Scan) :
    Yields (readHeader r c) fun res => ∀ header ∈ res.1, header.1 ≠ [] := by
  unfold readHeader
  refine .ite (fun _ => .pure nofun) (fun _ => ?_)
  refine Yields.any.bind ?_
  rintro ⟨nameSize, c₁⟩ -
  refine .ite (fun _ => .pure nofun) (fun hroom => ?_)
  refine (length_readBytesPaged _ _).bind ?_
  rintro ⟨name, c₂⟩ hname
  refine .ite (fun _ => .pure nofun) (fun _ => ?_)
  refine Yields.any.bind ?_
  rintro ⟨type, c₃⟩ -
  refine .pure fun header hheader hnil => ?_
  obtain rfl := Option.some.inj hheader
  dsimp only at hname hnil
  rw [hnil, List.length_nil] at hname
  omega

/-- The step: a field that is added is framed. -/
theorem readField_framed (c : Scan) :
    Yields (readField r c) fun res => ∀ f ∈ res.1, Framed f := by
  unfold readField
  refine .ite (fun _ => .pure nofun) (fun _ => ?_)
  refine (readHeader_name c).bind ?_
  rintro ⟨header, c₁⟩ hheader
  cases header with
  | none => exact .pure nofun
  | some header =>
      obtain ⟨name, type⟩ := header
      dsimp only
      cases hl : layout type with
      | none => exact .pure nofun
      | some l =>
          refine (readValue_stored c₁ l).bind ?_
          rintro ⟨data, flow, c₂⟩ hdata
          refine .pure fun f hf => ?_
          cases flow with
          | done => nomatch hf
          | next =>
              obtain rfl := Option.some.inj hf
              exact ⟨hheader _ rfl, l, hl, hdata rfl⟩

/-- The run. -/
theorem readFields_framed (fuel : ℕ) : ∀ (c : Scan) (fields : List FieldEntry),
    (∀ f ∈ fields, Framed f) →
      Yields (readFields r fuel c fields) fun res => ∀ out ∈ res, ∀ f ∈ out.1, Framed f := by
  induction fuel with
  | zero => exact fun _ _ _ => .pure nofun
  | succ fuel ih =>
      intro c fields hfields
      have hend : ∀ c' : Scan, ∀ out ∈ some (fields, c'), ∀ f ∈ out.1, Framed f := by
        intro c' out hout
        obtain rfl := Option.some.inj hout
        exact hfields
      unfold readFields
      refine .ite (fun _ => ?_) (fun _ => .pure (hend c))
      refine (readField_framed c.round).bind ?_
      rintro ⟨field, flow, c₁⟩ hfield
      cases flow with
      | done => exact .pure (hend c₁)
      | next =>
          refine ih c₁ _ fun f hf => ?_
          rcases List.mem_append.mp hf with hold | hnew
          · exact hfields f hold
          · exact hfield f (Option.mem_toList.mp hnew)

/-- **Every field that is read is framed**, on any buffer. -/
theorem deserialize_framed (r : Region) :
    Yields (deserialize r) fun res => ∀ out ∈ res, ∀ f ∈ out.1, Framed f := by
  unfold deserialize
  refine .ite (fun _ => .pure fun out hout f hf => ?_) (fun _ => ?_)
  · obtain rfl := Option.some.inj hout
    nomatch hf
  · exact readFields_framed _ _ _ nofun

end GenericMessage

end DzIpc.Wire
