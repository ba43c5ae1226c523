import DzIpc.Flat.Segment
import DzIpc.Wire.RoundTrip
import Mathlib.Data.List.GetD

/-!
# Taking a segment out of its pages

A DZFlat segment that travels in pages has a tail in its middle after every 1460 bytes, so a
reader on the socket path first copies it to one piece (`de_frame_dzflat`).  The length it
takes is the `total_size` of an untrusted header.

The reader walks pages and the writer walks source objects.  They meet at the position of a
data byte: `deFrameDzflat_eq` says that whatever the stream holds, the copy is the bytes at
the positions of the first `segLen` data bytes, and these lie inside the stream as soon as the
last of them and one tail do.
-/

namespace DzIpc.Wire

open Weave Flat

/-- `PTRDIFF_MAX`: `new uint8_t[n]` throws for a larger `n`. -/
def ptrdiffMax : ℕ := 2 ^ 63 - 1

/-- The value of a `std::size_t`. -/
def sizeT (n : ℕ) : ℕ := n % 2 ^ 64

/-- The loop of `de_frame_dzflat`: the pages behind the first `done` bytes of the segment,
from `stream + read` on. -/
def deFramePages (stream : List UInt8) (segLen done read : ℕ) : Except Fault (List UInt8) :=
  if done < segLen then do
    let n := min ipcMsgMaxSize (segLen - done)
    let bytes ← Region.copy { bytes := stream, size := stream.length } read n
    let rest ← deFramePages stream segLen (done + n) (sizeT (read + n + tailMsgSize))
    return bytes ++ rest
  else .ok []
termination_by segLen - done
decreasing_by simp only [ipcMsgMaxSize]; omega

/-- `de_frame_dzflat`: the payload, or `none` where it returns `false`. -/
def deFrameDzflat (stream : List UInt8) (segLen : ℕ) : Except Fault (Option (List UInt8)) :=
  if segLen < segHeaderSize then .ok none
  else
    let pages := segLen / ipcMsgMaxSize + 1
    if sizeT (segLen + sizeT (pages * tailMsgSize)) > stream.length then .ok none
    else if segLen > ptrdiffMax then .error .badArrayNewLength
    else some <$> deFramePages stream segLen 0 0

/-! ## What the loop copies -/

/-- The bytes at the positions of the data bytes `done`, …, `segLen - 1`. -/
def dataBytes (stream : List UInt8) (segLen done : ℕ) : List UInt8 :=
  (List.range' done (segLen - done)).map fun i => stream.getD (position i) 0

@[simp] theorem length_dataBytes (stream : List UInt8) (segLen done : ℕ) :
    (dataBytes stream segLen done).length = segLen - done := by
  simp [dataBytes]

/-- The data bytes of one page stand next to each other. -/
theorem dataBytes_page {stream : List UInt8} {segLen done n : ℕ}
    (hpage : done % ipcMsgMaxSize = 0) (hn : n ≤ ipcMsgMaxSize) (hle : done + n ≤ segLen)
    (hroom : position done + n ≤ stream.length) :
    dataBytes stream segLen done
      = (stream.drop (position done)).take n ++ dataBytes stream segLen (done + n) := by
  have hsplit : segLen - done = n + (segLen - (done + n)) := by omega
  have hfirst : (List.range' done n).map (fun i => stream.getD (position i) 0)
      = (stream.drop (position done)).take n := by
    apply List.ext_getElem
    · rw [List.length_map, List.length_range', List.length_take, List.length_drop]
      omega
    · intro i hi _
      rw [List.length_map, List.length_range'] at hi
      have hplace : position (done + i) = position done + i :=
        position_add_of_within (by omega)
      rw [List.getElem_map, List.getElem_range', Nat.one_mul, List.getElem_take,
        List.getElem_drop, hplace, List.getD_eq_getElem]
  rw [dataBytes, hsplit, ← List.range'_append_1, List.map_append, hfirst, dataBytes]

/-- From the first byte of a page on, the loop copies data bytes only, to the end of the
segment. -/
theorem deFramePages_eq {stream : List UInt8} {segLen : ℕ} (hsmall : segLen ≤ ptrdiffMax)
    (hroom : position segLen + tailMsgSize ≤ stream.length) :
    ∀ done : ℕ, done ≤ segLen → (done < segLen → done % ipcMsgMaxSize = 0) →
      ∀ read : ℕ, (done < segLen → read = position done) →
        deFramePages stream segLen done read = .ok (dataBytes stream segLen done) := by
  intro done
  induction hleft : segLen - done using Nat.strong_induction_on generalizing done with
  | _ left ih =>
      intro hdone hpage read hread
      rw [deFramePages]
      by_cases hmore : done < segLen
      · obtain rfl := hread hmore
        have hpage := hpage hmore
        rw [if_pos hmore]
        set n := min ipcMsgMaxSize (segLen - done) with hn
        have hpos : 0 < n := Nat.lt_min.mpr ⟨by decide, by omega⟩
        have hle : done + n ≤ segLen := by omega
        have hmono : position (done + n) ≤ position segLen := position_mono hle
        have hfits : position done + n ≤ stream.length := by
          have := position_add_le done n
          omega
        have hcopy : Region.copy { bytes := stream, size := stream.length } (position done) n
            = .ok ((stream.drop (position done)).take n) := if_pos (Or.inr hfits)
        -- another page follows only if this one is full, and then its tail is stepped over
        have hfull : done + n < segLen → done % ipcMsgMaxSize + n = ipcMsgMaxSize := by omega
        have hnext := ih (segLen - (done + n)) (by omega) (done + n) rfl hle
          (fun hmore => mod_add_of_block (hfull hmore))
          (sizeT (position done + n + tailMsgSize))
          (fun hmore => by
            rw [position_add_of_block (hfull hmore), sizeT, Nat.mod_eq_of_lt]
            rw [position_add_of_block (hfull hmore), position_eq segLen] at hmono
            simp only [ptrdiffMax] at hsmall
            omega)
        dsimp only
        rw [hcopy, dataBytes_page hpage (Nat.min_le_left _ _) hle hfits]
        change (deFramePages stream segLen (done + n) _ >>= _) = _
        rw [hnext]
        rfl
      · have hnone : segLen - done = 0 := by omega
        rw [if_neg hmore, dataBytes, hnone]
        rfl

/-- **What `de_frame_dzflat` returns.**  It refuses a length with no room for the header or
for its pages, throws on one that cannot be allocated, and else copies the data bytes. -/
theorem deFrameDzflat_eq (stream : List UInt8) (segLen : ℕ) :
    deFrameDzflat stream segLen = .ok none ∨
      deFrameDzflat stream segLen = .error .badArrayNewLength ∨
      deFrameDzflat stream segLen = .ok (some (dataBytes stream segLen 0)) := by
  by_cases hheader : segLen < segHeaderSize
  · exact Or.inl (if_pos hheader)
  by_cases hroom : sizeT (segLen + sizeT ((segLen / ipcMsgMaxSize + 1) * tailMsgSize))
      > stream.length
  · exact Or.inl (by rw [deFrameDzflat, if_neg hheader]; exact if_pos hroom)
  by_cases hsmall : segLen > ptrdiffMax
  · refine Or.inr (Or.inl ?_)
    rw [deFrameDzflat, if_neg hheader]
    dsimp only
    rw [if_neg hroom, if_pos hsmall]
  · refine Or.inr (Or.inr ?_)
    have hfits : position segLen + tailMsgSize ≤ stream.length := by
      simp only [sizeT, ptrdiffMax, ipcMsgMaxSize, tailMsgSize] at hroom hsmall ⊢
      rw [position_eq]
      omega
    have hloop := deFramePages_eq (Nat.le_of_not_lt hsmall) hfits 0
      (Nat.zero_le _) (fun _ => rfl) 0 (fun _ => rfl)
    rw [deFrameDzflat, if_neg hheader]
    dsimp only
    rw [if_neg hroom, if_neg hsmall, hloop]
    rfl

/-! ## A segment that was paged -/

/-- Where the data are woven, the data byte `i` stands at its position. -/
theorem dataBytes_weave {tail : ℕ → List UInt8} (htail : ∀ k, (tail k).length = tailMsgSize)
    (data extra : List UInt8) :
    dataBytes (weave ipcMsgMaxSize tail 0 data ++ extra) data.length 0 = data := by
  apply List.ext_getElem
  · rw [length_dataBytes, Nat.sub_zero]
  · intro i _ hi
    have hsplit : data.drop i = [data[i]] ++ data.drop (i + 1) := List.drop_eq_getElem_cons hi
    have hone : i % ipcMsgMaxSize + [data[i]].length ≤ ipcMsgMaxSize :=
      Nat.mod_lt i (by decide)
    have hslice := slice_weave htail (by decide) extra hsplit (Nat.le_of_lt hi) hone
    have hhead := congrArg List.head? hslice
    rw [List.length_singleton, List.head?_take, if_neg Nat.one_ne_zero, List.head?_drop] at hhead
    simp only [dataBytes, List.getElem_map, List.getElem_range', Nat.zero_add, Nat.one_mul]
    rw [List.getD_eq_getElem?_getD]
    exact congrArg (Option.getD · 0) hhead

/-- The writer and the reader agree on the number of pages, at the multiples of a page too, so
the reader takes the stream of every segment. -/
theorem deFrameDzflat_writeMessage (msgId : ℕ) {pieces : List (List UInt8)}
    (hheader : segHeaderSize ≤ pieces.flatten.length)
    (hpages : pieces.flatten.length / ipcMsgMaxSize + 1 < 2 ^ 16) :
    deFrameDzflat (writeMessage msgId pieces.flatten.length pieces) pieces.flatten.length
      = .ok (some pieces.flatten) := by
  have hlen := length_writeMessage msgId pieces hpages
  have hbound : pieces.flatten.length < 1460 * 65536 := by
    have := Nat.lt_mul_div_succ pieces.flatten.length (b := ipcMsgMaxSize) (by decide)
    simp only [ipcMsgMaxSize] at this hpages
    omega
  have hroom : ¬ sizeT (pieces.flatten.length
        + sizeT ((pieces.flatten.length / ipcMsgMaxSize + 1) * tailMsgSize))
      > (writeMessage msgId pieces.flatten.length pieces).length := by
    rw [hlen, position_eq]
    simp only [sizeT, ipcMsgMaxSize, tailMsgSize]
    omega
  have hsmall : pieces.flatten.length ≤ ptrdiffMax := by
    simp only [ptrdiffMax]
    omega
  have hloop := deFramePages_eq hsmall (Nat.le_of_eq hlen.symm) 0 (Nat.zero_le _) (fun _ => rfl) 0
    (fun _ => rfl)
  rw [deFrameDzflat, if_neg (Nat.not_lt.mpr hheader)]
  dsimp only
  rw [if_neg hroom, if_neg (Nat.not_lt.mpr hsmall), hloop, writeMessage_eq msgId pieces hpages,
    dataBytes_weave (fun _ => rfl)]
  rfl

/-- **`de_frame_dzflat` undoes paging.**  For every segment and every split of it into source
objects the reader gives the segment back; and on no stream and for no claimed length does it
read a byte outside the stream. -/
theorem deFrameDzflat_undoes :
    (∀ (msgId : ℕ) (pieces : List (List UInt8)), segHeaderSize ≤ pieces.flatten.length →
      pieces.flatten.length / ipcMsgMaxSize + 1 < 2 ^ 16 →
        deFrameDzflat (writeMessage msgId pieces.flatten.length pieces) pieces.flatten.length
          = .ok (some pieces.flatten)) ∧
    ∀ (stream : List UInt8) (segLen : ℕ), deFrameDzflat stream segLen ≠ .error .outOfBounds := by
  refine ⟨fun msgId pieces => deFrameDzflat_writeMessage msgId, fun stream segLen hfault => ?_⟩
  rcases deFrameDzflat_eq stream segLen with hnone | hthrew | hsome
  · rw [hnone] at hfault
    nomatch hfault
  · rw [hthrew] at hfault
    nomatch hfault
  · rw [hsome] at hfault
    nomatch hfault

/-- A segment that fills two pages, laid in two pieces. -/
theorem deFrameDzflat_undoes_twoPages :
    deFrameDzflat (writeMessage 7 2920 [List.replicate 32 1, List.replicate 2888 2]) 2920
        = .ok (some (List.replicate 32 1 ++ List.replicate 2888 2)) ∧
      deFrameDzflat [] (2 ^ 64 - 1) ≠ .error .outOfBounds := by
  have hflat : [List.replicate 32 (1 : UInt8), List.replicate 2888 2].flatten
      = List.replicate 32 1 ++ List.replicate 2888 2 := by
    rw [List.flatten_cons, List.flatten_singleton]
  have hlen : (List.replicate 32 (1 : UInt8) ++ List.replicate 2888 2).length = 2920 := by
    rw [List.length_append, List.length_replicate, List.length_replicate]
  have hback := deFrameDzflat_undoes.1 7 [List.replicate 32 1, List.replicate 2888 2]
    (by rw [hflat, hlen]; decide) (by rw [hflat, hlen]; decide)
  rw [hflat, hlen] at hback
  exact ⟨hback, deFrameDzflat_undoes.2 [] (2 ^ 64 - 1)⟩

end DzIpc.Wire
