import DzIpc.Wire.Paging

/-!
# Where the paged writer writes

The writer of `DzIpc.Wire.Paging` with a log of its writes: where in the buffer each begins, and
whether it is a page tail.  The buffer is the one `serialize_data_cut` allocates.

* `writer_run`: without the log it is the writer.
* `Tight` bounds every write by the bytes laid so far; `tails_adaptMemcpyTos` counts the tails of a
  call.
* `wellPaged_iff`: the writes stay inside the buffer, end 12 bytes before its end, and every tail has
  the number of tails, exactly where the page count fits 16 bits.
-/

namespace DzIpc.Wire

open Weave

/-- A `memcpy` to `dst + offset`, or a tail there. -/
structure PageWrite where
  offset : ℕ
  bytes : List UInt8
  tail : Bool
  deriving DecidableEq, Repr

/-- A serialization under way, with the writes made so far. -/
structure PagedWriter where
  writer : Writer
  writes : List PageWrite
  deriving DecidableEq, Repr

namespace PagedWriter

/-- Bytes are copied to the running offset. -/
def append (t : PagedWriter) (bytes : List UInt8) : PagedWriter where
  writer := t.writer.append bytes
  writes := t.writes ++ [{ offset := t.writer.offset, bytes := bytes, tail := false }]

/-- `add_tail_msg` at the running offset. -/
def addTailMsg (t : PagedWriter) : PagedWriter where
  writer := t.writer.addTailMsg
  writes := t.writes ++
    [{ offset := t.writer.offset
       bytes := tailBytes t.writer.info t.writer.msgId t.writer.page
       tail := true }]

/-- `page++`. -/
def nextPage (t : PagedWriter) : PagedWriter :=
  { t with writer := { t.writer with page := u16 (t.writer.page + 1) } }

/-- The rounds of `adapt_memcpy_tos`, with what is left of the source. -/
def cutLoop : ℕ → PagedWriter → ℕ → List UInt8 → PagedWriter × List UInt8
  | 0, t, _, src => (t, src)
  | i + 1, t, pureDataOffset, src =>
      let copySize := min (ipcMsgMaxSize - pureDataOffset % ipcMsgMaxSize) src.length
      cutLoop i ((t.append (src.take copySize)).nextPage).addTailMsg
        (u32 (pureDataOffset + copySize)) (src.drop copySize)

/-- `adapt_memcpy_tos`. -/
def adaptMemcpyTos (t : PagedWriter) (src : List UInt8) : PagedWriter :=
  let pureDataOffset := sub32 (t.writer.offset + tailMsgSize) (t.writer.page * tailMsgSize)
  let cutCnt := sub32 (u32 (pureDataOffset + src.length) / ipcMsgMaxSize)
    (pureDataOffset / ipcMsgMaxSize)
  let cut := cutLoop cutCnt t pureDataOffset src
  if cut.2.length > 0 then cut.1.append cut.2 else cut.1

/-- `serialize_data_cut`, then one call of `adapt_memcpy_tos` for each source object. -/
def run (msgId totalDataLen : ℕ) (sources : List (List UInt8)) : PagedWriter :=
  sources.foldl adaptMemcpyTos { writer := serializeDataCut msgId totalDataLen, writes := [] }

/-! ## The writer in it -/

theorem writer_cutLoop (cutCnt : ℕ) : ∀ (t : PagedWriter) (pureDataOffset : ℕ) (src : List UInt8),
    Writer.cutLoop cutCnt t.writer pureDataOffset src
      = ((cutLoop cutCnt t pureDataOffset src).1.writer,
          (cutLoop cutCnt t pureDataOffset src).2) := by
  induction cutCnt with
  | zero => exact fun _ _ _ => rfl
  | succ cutCnt ih =>
      intro t pureDataOffset src
      rw [Writer.cutLoop, cutLoop]
      generalize min (ipcMsgMaxSize - pureDataOffset % ipcMsgMaxSize) src.length = copySize
      have hround : ((t.append (src.take copySize)).nextPage).addTailMsg.writer
          = Writer.addTailMsg
            { t.writer.append (src.take copySize) with page := u16 (t.writer.page + 1) } := rfl
      rw [← ih, hround]

/-- One call, from the data offset and the number of rounds it computes. -/
theorem adaptMemcpyTos_eq {t t' : PagedWriter} {src rest : List UInt8} {pure cutCnt : ℕ}
    (hpure : sub32 (t.writer.offset + tailMsgSize) (t.writer.page * tailMsgSize) = pure)
    (hcuts : sub32 (u32 (pure + src.length) / ipcMsgMaxSize) (pure / ipcMsgMaxSize) = cutCnt)
    (hloop : cutLoop cutCnt t pure src = (t', rest)) :
    t.adaptMemcpyTos src = if rest.length > 0 then t'.append rest else t' := by
  subst hpure hcuts
  simp only [adaptMemcpyTos, hloop]

/-- Every call computes some. -/
theorem exists_adaptMemcpyTos (t : PagedWriter) (src : List UInt8) :
    ∃ pure cutCnt t' rest,
      sub32 (t.writer.offset + tailMsgSize) (t.writer.page * tailMsgSize) = pure ∧
      sub32 (u32 (pure + src.length) / ipcMsgMaxSize) (pure / ipcMsgMaxSize) = cutCnt ∧
      cutLoop cutCnt t pure src = (t', rest) := by
  obtain ⟨pure, hpure⟩ : ∃ pure, sub32 (t.writer.offset + tailMsgSize)
      (t.writer.page * tailMsgSize) = pure := ⟨_, rfl⟩
  obtain ⟨cutCnt, hcuts⟩ : ∃ cutCnt, sub32 (u32 (pure + src.length) / ipcMsgMaxSize)
      (pure / ipcMsgMaxSize) = cutCnt := ⟨_, rfl⟩
  exact ⟨pure, cutCnt, _, _, hpure, hcuts, rfl⟩

theorem writer_adaptMemcpyTos (t : PagedWriter) (src : List UInt8) :
    (t.adaptMemcpyTos src).writer = t.writer.adaptMemcpyTos src := by
  obtain ⟨pure, cutCnt, t', rest, hpure, hcuts, hloop⟩ := exists_adaptMemcpyTos t src
  have hwriter := writer_cutLoop cutCnt t pure src
  rw [hloop] at hwriter
  rw [adaptMemcpyTos_eq hpure hcuts hloop, Wire.adaptMemcpyTos_eq hpure hcuts hwriter]
  split_ifs with hrest
  · rfl
  · rw [List.eq_nil_of_length_eq_zero (Nat.eq_zero_of_not_pos hrest), Writer.append,
      List.append_nil]

theorem writer_run (msgId totalDataLen : ℕ) (sources : List (List UInt8)) :
    (run msgId totalDataLen sources).writer
      = sources.foldl Writer.adaptMemcpyTos (serializeDataCut msgId totalDataLen) :=
  (List.foldl_hom writer fun t src => (writer_adaptMemcpyTos t src).symm).symm

/-! ## What every call keeps -/

/-- The tails written so far. -/
def tails (t : PagedWriter) : ℕ :=
  t.writes.countP PageWrite.tail

/-- Every write lies among the bytes laid so far, and every tail is one of this message. -/
structure Tight (info : SizeInfo) (msgId : ℕ) (t : PagedWriter) : Prop where
  sameInfo : t.writer.info = info
  sameMsgId : t.writer.msgId = msgId
  inside : ∀ w ∈ t.writes, w.offset + w.bytes.length ≤ t.writer.out.length
  tail : ∀ w ∈ t.writes, w.tail = true → ∃ page, w.bytes = tailBytes info msgId page

namespace Tight

variable {info : SizeInfo} {msgId : ℕ} {t : PagedWriter}

theorem start (msgId totalDataLen : ℕ) :
    Tight (correctTotalSize totalDataLen) msgId
      { writer := serializeDataCut msgId totalDataLen, writes := [] } where
  sameInfo := rfl
  sameMsgId := rfl
  inside := fun _ h => nomatch h
  tail := fun _ h => nomatch h

/-- One more write, at the running offset. -/
theorem write (h : t.Tight info msgId) {bytes : List UInt8} {tail : Bool} {w : Writer}
    (hw : w = t.writer.append bytes)
    (htail : tail = true → ∃ page, bytes = tailBytes info msgId page) :
    Tight info msgId
      { writer := w, writes := t.writes ++ [{ offset := t.writer.offset, bytes, tail }] } := by
  subst hw
  have hlen : (t.writer.append bytes).out.length = t.writer.out.length + bytes.length :=
    List.length_append
  refine ⟨h.sameInfo, h.sameMsgId, fun v hv => ?_, fun v hv => ?_⟩
  · dsimp only
    rw [hlen]
    rcases List.mem_append.mp hv with hold | hnew
    · exact (h.inside v hold).trans (Nat.le_add_right _ _)
    · rw [List.mem_singleton.mp hnew]
      exact Nat.add_le_add_right (u32_le _) _
  · rcases List.mem_append.mp hv with hold | hnew
    · exact h.tail v hold
    · rw [List.mem_singleton.mp hnew]
      exact htail

theorem append (h : t.Tight info msgId) (bytes : List UInt8) : (t.append bytes).Tight info msgId :=
  h.write rfl fun hfalse => absurd hfalse (by decide)

theorem nextPage (h : t.Tight info msgId) : t.nextPage.Tight info msgId :=
  ⟨h.sameInfo, h.sameMsgId, h.inside, h.tail⟩

theorem addTailMsg (h : t.Tight info msgId) : t.addTailMsg.Tight info msgId := by
  refine h.write rfl fun _ => ⟨t.writer.page, ?_⟩
  rw [h.sameInfo, h.sameMsgId]

theorem cutLoop (cutCnt : ℕ) : ∀ {t : PagedWriter} (_ : t.Tight info msgId) (pure : ℕ)
    (src : List UInt8), (PagedWriter.cutLoop cutCnt t pure src).1.Tight info msgId := by
  induction cutCnt with
  | zero => exact fun h _ _ => h
  | succ cutCnt ih =>
      intro t h pure src
      rw [PagedWriter.cutLoop]
      exact ih ((h.append _).nextPage.addTailMsg) _ _

theorem adaptMemcpyTos (h : t.Tight info msgId) (src : List UInt8) :
    (t.adaptMemcpyTos src).Tight info msgId := by
  obtain ⟨pure, cutCnt, t', rest, hpure, hcuts, hloop⟩ := exists_adaptMemcpyTos t src
  have hafter := h.cutLoop cutCnt pure src
  rw [hloop] at hafter
  rw [adaptMemcpyTos_eq hpure hcuts hloop]
  split
  · exact hafter.append rest
  · exact hafter

theorem foldl (sources : List (List UInt8)) : ∀ {t : PagedWriter}, t.Tight info msgId →
    (sources.foldl PagedWriter.adaptMemcpyTos t).Tight info msgId := by
  induction sources with
  | nil => exact fun h => h
  | cons src sources ih => exact fun h => ih (h.adaptMemcpyTos src)

end Tight

/-! ## The number of tails -/

@[simp] theorem tails_append (t : PagedWriter) (bytes : List UInt8) :
    (t.append bytes).tails = t.tails := by
  simp [tails, append, List.countP_append]

@[simp] theorem tails_addTailMsg (t : PagedWriter) : t.addTailMsg.tails = t.tails + 1 := by
  simp [tails, addTailMsg, List.countP_append]

@[simp] theorem tails_nextPage (t : PagedWriter) : t.nextPage.tails = t.tails := rfl

/-- Each round writes one tail. -/
theorem tails_cutLoop (cutCnt : ℕ) : ∀ (t : PagedWriter) (pure : ℕ) (src : List UInt8),
    (cutLoop cutCnt t pure src).1.tails = t.tails + cutCnt := by
  induction cutCnt with
  | zero => exact fun _ _ _ => rfl
  | succ cutCnt ih =>
      intro t pure src
      rw [cutLoop, ih, tails_addTailMsg, tails_nextPage, tails_append]
      omega

theorem tails_adaptMemcpyTos {t : PagedWriter} {src : List UInt8} {pure cutCnt : ℕ}
    (hpure : sub32 (t.writer.offset + tailMsgSize) (t.writer.page * tailMsgSize) = pure)
    (hcuts : sub32 (u32 (pure + src.length) / ipcMsgMaxSize) (pure / ipcMsgMaxSize) = cutCnt) :
    (t.adaptMemcpyTos src).tails = t.tails + cutCnt := by
  have hcount := tails_cutLoop cutCnt t pure src
  rw [adaptMemcpyTos_eq hpure hcuts rfl]
  split
  · rw [tails_append, hcount]
  · exact hcount

theorem tails_le_foldl (sources : List (List UInt8)) :
    ∀ t : PagedWriter, t.tails ≤ (sources.foldl adaptMemcpyTos t).tails := by
  induction sources with
  | nil => exact fun t => Nat.le_refl _
  | cons src sources ih =>
      intro t
      obtain ⟨pure, cutCnt, -, -, hpure, hcuts, -⟩ := exists_adaptMemcpyTos t src
      have hstep := tails_adaptMemcpyTos hpure hcuts
      have hrest := ih (t.adaptMemcpyTos src)
      rw [List.foldl_cons]
      omega

/-- The data are laid, with a tail for every page that is full. -/
structure Laid (info : SizeInfo) (msgId : ℕ) (data : List UInt8) (t : PagedWriter) : Prop where
  writer : t.writer = laid info msgId data
  tails : t.tails = data.length / ipcMsgMaxSize

namespace Laid

variable {info : SizeInfo} {msgId : ℕ} {data : List UInt8} {t : PagedWriter}

/-- As long as the page number fits 16 bits, a call writes a tail for every page it fills. -/
theorem tails_adaptMemcpyTos (h : t.Laid info msgId data)
    (hfits : data.length / ipcMsgMaxSize + 1 < 2 ^ 16) {src : List UInt8}
    (hsum : data.length + src.length < 2 ^ 32) :
    (t.adaptMemcpyTos src).tails = (data ++ src).length / ipcMsgMaxSize := by
  have hpure := pureDataOffset_laid info msgId data hfits
  rw [← h.writer] at hpure
  rw [PagedWriter.tails_adaptMemcpyTos hpure (cutCnt_eq hsum), h.tails, cuts, List.length_append]
  exact Nat.add_sub_cancel' (Nat.div_le_div_right (Nat.le_add_right _ _))

theorem adaptMemcpyTos (h : t.Laid info msgId data) {src : List UInt8}
    (hfits : (data ++ src).length / ipcMsgMaxSize + 1 < 2 ^ 16)
    (hsum : data.length + src.length < 2 ^ 32) :
    (t.adaptMemcpyTos src).Laid info msgId (data ++ src) := by
  have hle : data.length / ipcMsgMaxSize ≤ (data ++ src).length / ipcMsgMaxSize :=
    Nat.div_le_div_right (by rw [List.length_append]; exact Nat.le_add_right _ _)
  refine ⟨?_, h.tails_adaptMemcpyTos (by omega) hsum⟩
  rw [writer_adaptMemcpyTos, h.writer]
  rw [List.length_append] at hfits
  exact adaptMemcpyTos_laid info msgId data src hfits

/-- **A whole message.**  If its pages fit 16 bits the data are laid; if not, there are more tails
than 16 bits can say. -/
theorem foldl (sources : List (List UInt8)) : ∀ {t : PagedWriter} {data : List UInt8},
    t.Laid info msgId data → data.length / ipcMsgMaxSize + 1 < 2 ^ 16 →
      (data ++ sources.flatten).length < 2 ^ 32 →
        ((data ++ sources.flatten).length / ipcMsgMaxSize + 1 < 2 ^ 16 →
          (sources.foldl PagedWriter.adaptMemcpyTos t).Laid info msgId (data ++ sources.flatten)) ∧
        (2 ^ 16 ≤ (data ++ sources.flatten).length / ipcMsgMaxSize + 1 →
          2 ^ 16 ≤ (sources.foldl PagedWriter.adaptMemcpyTos t).tails + 1) := by
  induction sources with
  | nil =>
      intro t data h hfits _
      rw [List.flatten_nil, List.append_nil]
      exact ⟨fun _ => h, fun hbig => absurd hfits (Nat.not_lt.mpr hbig)⟩
  | cons src sources ih =>
      intro t data h hfits hsum
      rw [List.flatten_cons, ← List.append_assoc] at hsum ⊢
      have hsrc : data.length + src.length < 2 ^ 32 := by
        rw [← List.length_append]
        rw [List.length_append] at hsum
        omega
      by_cases hnext : (data ++ src).length / ipcMsgMaxSize + 1 < 2 ^ 16
      · exact ih (h.adaptMemcpyTos hnext hsrc) hnext hsum
      · -- the call that leaves 16 bits has written all tails of its pages, and no later one takes any
        have hle : (data ++ src).length / ipcMsgMaxSize
            ≤ (data ++ src ++ sources.flatten).length / ipcMsgMaxSize := by
          apply Nat.div_le_div_right
          exact (List.sublist_append_left (data ++ src) sources.flatten).length_le
        have htails := h.tails_adaptMemcpyTos hfits hsrc
        have hmono := tails_le_foldl sources (t.adaptMemcpyTos src)
        rw [List.foldl_cons]
        exact ⟨fun hsmall => absurd hsmall (by omega), fun _ => by omega⟩

end Laid

end PagedWriter

/-! ## A message and its buffer -/

/-- The page count that a tail records. -/
def PageWrite.pageCnt (w : PageWrite) : ℕ :=
  match w.bytes with
  | hi :: lo :: _ => hi.toNat * 2 ^ 8 + lo.toNat
  | _ => 0

theorem PageWrite.pageCnt_lt (w : PageWrite) : w.pageCnt < 2 ^ 16 := by
  unfold pageCnt
  split
  · rename_i hi lo _ _
    have hhi := hi.toNat_lt
    have hlo := lo.toNat_lt
    omega
  · decide

theorem PageWrite.pageCnt_eq (w : PageWrite) {info : SizeInfo} {msgId page : ℕ}
    (hbytes : w.bytes = tailBytes info msgId page) (hlt : info.pageCnt < 2 ^ 16) :
    w.pageCnt = info.pageCnt := by
  have hhead : tailBytes info msgId page = byte (info.pageCnt / 2 ^ 8) :: byte info.pageCnt ::
      (be16 page ++ be32 info.totalSize ++ be32 msgId) := rfl
  rw [pageCnt, hbytes, hhead]
  dsimp only
  rw [byte_toNat, byte_toNat]
  omega

/-- The serialization of a message, up to `add_tail_msg` after the last source object. -/
structure WellPaged (totalDataLen : ℕ) (t : PagedWriter) : Prop where
  inside : ∀ w ∈ t.addTailMsg.writes,
    w.offset + w.bytes.length ≤ (correctTotalSize totalDataLen).totalSize
  offset : t.writer.offset + tailMsgSize = (correctTotalSize totalDataLen).totalSize
  pageCnt : ∀ w ∈ t.addTailMsg.writes, w.tail = true → w.pageCnt = t.addTailMsg.tails

theorem correctTotalSize_eq {n : ℕ} (hfits : n / ipcMsgMaxSize + 1 < 2 ^ 16) :
    correctTotalSize n
      = { pageCnt := n / ipcMsgMaxSize + 1
          totalSize := position n + tailMsgSize } := by
  have hbound : n < 1460 * 65536 := by
    have := Nat.lt_mul_div_succ n (b := ipcMsgMaxSize) (by decide)
    simp only [ipcMsgMaxSize] at this hfits
    omega
  have hpage : u16 (u16 (n / ipcMsgMaxSize) + 1) = n / ipcMsgMaxSize + 1 := by
    rw [u16_of_lt (Nat.lt_of_succ_lt hfits), u16_of_lt hfits]
  have hsize : u32 (n + (n / ipcMsgMaxSize + 1) * tailMsgSize) = position n + tailMsgSize := by
    rw [position_eq, u32_of_lt] <;> simp only [ipcMsgMaxSize, tailMsgSize] at hfits ⊢ <;> omega
  rw [correctTotalSize, hpage, hsize]

theorem run_laid (msgId : ℕ) (sources : List (List UInt8))
    (hsum : sources.flatten.length < 2 ^ 32) :
    (sources.flatten.length / ipcMsgMaxSize + 1 < 2 ^ 16 →
      (PagedWriter.run msgId sources.flatten.length sources).Laid
        (correctTotalSize sources.flatten.length) msgId sources.flatten) ∧
    (2 ^ 16 ≤ sources.flatten.length / ipcMsgMaxSize + 1 →
      2 ^ 16 ≤ (PagedWriter.run msgId sources.flatten.length sources).tails + 1) := by
  have hstart : PagedWriter.Laid (correctTotalSize sources.flatten.length) msgId []
      { writer := serializeDataCut msgId sources.flatten.length, writes := [] } := ⟨rfl, rfl⟩
  exact hstart.foldl sources (by decide) hsum

theorem wellPaged_of_fits (msgId : ℕ) {sources : List (List UInt8)}
    (hfits : sources.flatten.length / ipcMsgMaxSize + 1 < 2 ^ 16)
    (hsum : sources.flatten.length < 2 ^ 32) :
    WellPaged sources.flatten.length
      (PagedWriter.run msgId sources.flatten.length sources) := by
  have hlaid := (run_laid msgId sources hsum).1 hfits
  have hinfo := correctTotalSize_eq hfits
  have htight : (PagedWriter.run msgId sources.flatten.length sources).Tight
      (correctTotalSize sources.flatten.length) msgId :=
    PagedWriter.Tight.foldl sources (.start msgId sources.flatten.length)
  set t := PagedWriter.run msgId sources.flatten.length sources with ht
  have hout : t.writer.out.length = position sources.flatten.length := by
    rw [hlaid.writer]
    exact length_laid_out _ _ _
  have hsmall : position sources.flatten.length < 2 ^ 32 := by
    rw [position_eq]
    simp only [ipcMsgMaxSize] at hfits
    omega
  have htails : t.addTailMsg.tails = sources.flatten.length / ipcMsgMaxSize + 1 := by
    rw [PagedWriter.tails_addTailMsg, hlaid.tails]
  refine ⟨fun w hw => ?_, ?_, fun w hw htail => ?_⟩
  · have hend : t.addTailMsg.writer.out.length = position sources.flatten.length + tailMsgSize := by
      rw [← hout]
      exact List.length_append
    rw [hinfo, ← hend]
    exact htight.addTailMsg.inside w hw
  · rw [hinfo, Writer.offset, hout, u32_of_lt hsmall]
  · obtain ⟨page, hbytes⟩ := htight.addTailMsg.tail w hw htail
    have hcount : (correctTotalSize sources.flatten.length).pageCnt
        = sources.flatten.length / ipcMsgMaxSize + 1 := by
      rw [hinfo]
    rw [w.pageCnt_eq hbytes (by rw [hcount]; exact hfits), htails, hcount]

/-- Where there are more tails than 16 bits can say, no tail says how many. -/
theorem not_wellPaged (msgId : ℕ) {sources : List (List UInt8)}
    (hbig : 2 ^ 16 ≤ sources.flatten.length / ipcMsgMaxSize + 1)
    (hsum : sources.flatten.length < 2 ^ 32) :
    ¬ WellPaged sources.flatten.length
      (PagedWriter.run msgId sources.flatten.length sources) := by
  intro h
  have htails := (run_laid msgId sources hsum).2 hbig
  obtain ⟨w, hw, htail⟩ : ∃ w ∈ (PagedWriter.run msgId sources.flatten.length
      sources).addTailMsg.writes, w.tail = true :=
    ⟨_, List.mem_append_right _ (List.mem_singleton_self _), rfl⟩
  have hlast := h.pageCnt w hw htail
  have hlt := w.pageCnt_lt
  rw [PagedWriter.tails_addTailMsg] at hlast
  omega

/-- For every split of a message into source objects, all writes stay inside the buffer, the last tail
is its last 12 bytes, and every tail records the number of tails, exactly where this number fits 16
bits. -/
theorem wellPaged_iff (msgId : ℕ) (sources : List (List UInt8))
    (hsum : sources.flatten.length < 2 ^ 32) :
    WellPaged sources.flatten.length
        (PagedWriter.run msgId sources.flatten.length sources) ↔
      sources.flatten.length / ipcMsgMaxSize + 1 < 2 ^ 16 := by
  constructor
  · intro h
    apply Nat.lt_of_not_le
    exact fun hbig => not_wellPaged msgId hbig hsum h
  · exact fun hfits => wellPaged_of_fits msgId hfits hsum

theorem wellPaged_iff_two : WellPaged 3 (PagedWriter.run 7 3 [[1, 2], [3]]) :=
  (wellPaged_iff 7 [[1, 2], [3]] (by decide)).mpr (by decide)

/-- A message of 65536 pages: its page count is recorded as 0. -/
theorem not_wellPaged_65536 : ∃ sources : List (List UInt8), sources.flatten.length < 2 ^ 32 ∧
    ¬ WellPaged sources.flatten.length
      (PagedWriter.run 7 sources.flatten.length sources) := by
  have hlen : [List.replicate 95681100 (0 : UInt8)].flatten.length = 95681100 := by
    rw [List.flatten_singleton, List.length_replicate]
  have hsum : [List.replicate 95681100 (0 : UInt8)].flatten.length < 2 ^ 32 := by
    rw [hlen]
    decide
  have hbig : 2 ^ 16 ≤ [List.replicate 95681100 (0 : UInt8)].flatten.length / ipcMsgMaxSize + 1 := by
    rw [hlen]
    decide
  exact ⟨_, hsum, not_wellPaged 7 hbig hsum⟩

end DzIpc.Wire
