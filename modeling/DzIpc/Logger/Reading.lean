import DzIpc.Library.Scan
import DzIpc.Logger.Writer

/-!
# Reading a bag

How a reader of the format takes a file apart: into records, each with its position, a record
into the fields of its header and its data, the data of a chunk into message records, and the
data of a message into a transport packet.

* `Consistent` says what has to hold between the records of a file.
* `reads_record`: a record that was written is read back.
-/

namespace DzIpc.Logger

open Wire

/-! ## Blocks, fields and records -/

/-- The next block of bytes behind its length. -/
def readBlock (bytes : List UInt8) : Option (List UInt8 × List UInt8) :=
  let n := leNat (bytes.take 4)
  if bytes.length < 4 + n then none else some ((bytes.drop 4).take n, bytes.drop (4 + n))

/-- The next field of a header: its key up to the first `=`, and its value. -/
def readField (bytes : List UInt8) : Option ((List UInt8 × List UInt8) × List UInt8) :=
  (readBlock bytes).bind fun (block, rest) =>
    match block.dropWhile (· ≠ 0x3d) with
    | [] => none
    | _ :: value => some ((block.takeWhile (· ≠ 0x3d), value), rest)

/-- Items up to the end, each with its position. -/
def readAll {α : Type} (read : List UInt8 → Option (α × List UInt8)) (bytes : List UInt8) :
    Option (List (ℕ × α)) :=
  scan read bytes.length 0 bytes

/-- A record: the fields of its header, and its data. -/
structure Record where
  header : List (List UInt8 × List UInt8)
  data : List UInt8

/-- The next record. -/
def readRecord (bytes : List UInt8) : Option (Record × List UInt8) :=
  (readBlock bytes).bind fun (header, rest) =>
    (readBlock rest).bind fun (data, rest) =>
      (readAll readField header).map fun fields => (⟨fields.map Prod.snd, data⟩, rest)

/-- A time in the data of a record or the value of a field. -/
def rosTime (bytes : List UInt8) : ℕ :=
  leNat (bytes.take 4) * 1000000000 + leNat (bytes.drop 4)

namespace Record

/-- The value of a field. -/
def get (r : Record) (key : String) : Option (List UInt8) := r.header.lookup (ascii key)

/-- The number that a field holds. -/
def num (r : Record) (key : String) : Option ℕ := (r.get key).map leNat

/-- The time that a field holds. -/
def time (r : Record) (key : String) : Option ℕ := (r.get key).map rosTime

end Record

/-- The records of a file, behind the magic. -/
def readBag (file : List UInt8) : Option (List (ℕ × Record)) :=
  if file.take 13 = kBagHdr then scan readRecord file.length 13 (file.drop 13) else none

/-- The next entry of an index: a time and an offset. -/
def readEntry (bytes : List UInt8) : Option ((ℕ × ℕ) × List UInt8) :=
  if bytes.length < 12 then none
  else some ((rosTime (bytes.take 8), leNat ((bytes.drop 8).take 4)), bytes.drop 12)

/-- A transport packet: the data of a message. -/
def readPacket (bytes : List UInt8) : Option TransportPacket :=
  if bytes.length < 8 then none
  else
    (readBlock (bytes.drop 8)).bind fun (topic, rest) =>
      (readBlock rest).bind fun (type, rest) =>
        match rest.drop 8 with
        | transport :: role :: event :: last =>
          (readBlock last).bind fun (payload, tail) =>
            if tail = [] then
              some ⟨BitVec.ofNat 64 (leNat (bytes.take 8)), topic, type,
                BitVec.ofNat 32 (leNat (rest.take 4)),
                BitVec.ofNat 32 (leNat ((rest.drop 4).take 4)), transport, role, event, payload⟩
            else none
        | _ => none

/-- The packets of the messages of a chunk. -/
def readChunk (data : List UInt8) : Option (List TransportPacket) :=
  (readAll readRecord data).bind fun messages => messages.mapM fun m => readPacket m.2.data

/-- The packets of all messages of a file, in file order. -/
def readEvents (file : List UInt8) : Option (List TransportPacket) :=
  (readBag file).bind fun records =>
    ((records.filter fun r => r.2.num "op" = some kOpChunk).mapM fun r => readChunk r.2.data).map
      List.flatten

/-! ## Consistent files -/

/-- A chunk-info record describes the chunk at its `chunk_pos`: the chunk, its index and its
messages agree in sizes, counts, offsets and times. -/
structure Describes (records : List (ℕ × Record)) (info : Record) (pos : ℕ) (chunk index : Record)
    (messages : List (ℕ × Record)) : Prop where
  chunk_pos : info.num "chunk_pos" = some pos
  chunk_mem : (pos, chunk) ∈ records
  chunk_op : chunk.num "op" = some kOpChunk
  size : chunk.num "size" = some chunk.data.length
  messages_eq : readAll readRecord chunk.data = some messages
  conn : ∀ m ∈ messages, m.2.num "conn" = some 0
  count : info.num "count" = some 1
  counts : leNat (info.data.take 4) = 0 ∧ leNat (info.data.drop 4) = messages.length
  index_mem : ∃ indexPos, (indexPos, index) ∈ records
  index_op : index.num "op" = some kOpIndexData
  index_conn : index.num "conn" = some 0
  index_count : index.num "count" = some messages.length
  entries : ∃ entries, readAll readEntry index.data = some entries ∧
    (entries.map fun e => (some e.2.1, e.2.2)) = messages.map fun m => (m.2.time "time", m.1)
  times : ∃ start finish, info.time "start_time" = some start ∧ info.time "end_time" = some finish ∧
    ((messages.map fun m => m.2.time "time").Pairwise (fun a b => ∀ s ∈ a, ∀ t ∈ b, s ≤ t) →
      ∀ m ∈ messages, ∃ t, m.2.time "time" = some t ∧ start ≤ t ∧ t ≤ finish)

/-- The records of a file agree with each other. -/
structure Consistent (header : Record) (records : List (ℕ × Record)) : Prop where
  op : header.num "op" = some kOpBagHeader
  index_pos : ∃ pos conn, header.num "index_pos" = some pos ∧ (pos, conn) ∈ records ∧
    conn.num "op" = some kOpConnection
  conn_count : header.num "conn_count" =
    some (records.countP fun r => r.2.num "op" = some kOpConnection)
  chunk_count : header.num "chunk_count" =
    some (records.countP fun r => r.2.num "op" = some kOpChunkInfo)
  chunks : records.countP (fun r => r.2.num "op" = some kOpChunk) =
    records.countP fun r => r.2.num "op" = some kOpChunkInfo
  infos : ∀ r ∈ records, r.2.num "op" = some kOpChunkInfo →
    ∃ pos chunk index messages, Describes records r.2 pos chunk index messages

/-- A file that a reader takes apart to records that agree. -/
def Valid (file : List UInt8) : Prop :=
  ∃ header records, readBag file = some ((13, header) :: records) ∧ Consistent header records

/-! ## Reading what was written -/

theorem leNat_w32 {n : ℕ} (h : n < 2 ^ 32) : leNat (w32 n) = n := by
  rw [w32, leNat_leBytes]
  exact Nat.mod_eq_of_lt (by omega)

theorem leNat_w64 {n : ℕ} (h : n < 2 ^ 64) : leNat (w64 n) = n := by
  rw [w64, leNat_leBytes]
  exact Nat.mod_eq_of_lt (by omega)

theorem leBytes_leNat (bytes : List UInt8) : leBytes bytes.length (leNat bytes) = bytes := by
  induction bytes with
  | nil => rfl
  | cons b rest ih =>
    have hlow : byte (b.toNat + 2 ^ 8 * leNat rest) = b := by
      rw [byte, UInt8.ofNat_add, UInt8.ofNat_mul]
      simp
    have hhigh : (b.toNat + 2 ^ 8 * leNat rest) / 2 ^ 8 = leNat rest := by
      have := b.toNat_lt
      omega
    rw [List.length_cons, leNat, leBytes, hlow, hhigh, ih]

@[simp] theorem length_w32 (n : ℕ) : (w32 n).length = 4 := length_leBytes 4 n

@[simp] theorem length_w64 (n : ℕ) : (w64 n).length = 8 := length_leBytes 8 n

/-- Writing what was read changes nothing. -/
theorem w32_leNat_w32 (n : ℕ) : w32 (leNat (w32 n)) = w32 n := by
  have h := leBytes_leNat (w32 n)
  rwa [length_w32] at h

/-- The seconds of a time are read modulo 2³². -/
theorem writeRosTime_rosTime (ns : ℕ) :
    writeRosTime (rosTime (writeRosTime ns)) = writeRosTime ns := by
  have hnano : leNat (w32 (ns % 1000000000)) = ns % 1000000000 := leNat_w32 (by omega)
  have htime : rosTime (writeRosTime ns) =
      leNat (w32 (ns / 1000000000)) * 1000000000 + ns % 1000000000 := by
    rw [rosTime, writeRosTime, List.take_left' (length_w32 _), List.drop_left' (length_w32 _),
      hnano]
  have hsec : rosTime (writeRosTime ns) / 1000000000 = leNat (w32 (ns / 1000000000)) := by
    rw [htime]
    omega
  have hrest : rosTime (writeRosTime ns) % 1000000000 = ns % 1000000000 := by
    rw [htime]
    omega
  rw [writeRosTime, hsec, hrest, w32_leNat_w32, ← writeRosTime]

@[simp] theorem length_wstr (s : List UInt8) : (wstr s).length = 4 + s.length := by
  rw [wstr, List.length_append, length_w32]

theorem readBlock_wstr {s : List UInt8} (h : s.length < 2 ^ 32) (rest : List UInt8) :
    readBlock (wstr s ++ rest) = some (s, rest) := by
  have htake : (wstr s ++ rest).take 4 = w32 s.length := by
    rw [wstr, List.append_assoc]
    exact List.take_left' (length_w32 _)
  have hdrop : (wstr s ++ rest).drop 4 = s ++ rest := by
    rw [wstr, List.append_assoc]
    exact List.drop_left' (length_w32 _)
  rw [readBlock, htake, leNat_w32 h, if_neg (by rw [List.length_append, length_wstr]; omega), hdrop,
    List.take_left, ← List.drop_drop, hdrop, List.drop_left]

/-- The bytes of a field. -/
def encodeField (f : List UInt8 × List UInt8) : List UInt8 := wstr (f.1 ++ ascii "=" ++ f.2)

/-- The bytes of a record. -/
def Record.encode (r : Record) : List UInt8 := addRecord (r.header.flatMap encodeField) r.data

theorem reads_field {f : List UInt8 × List UInt8} (hkey : 0x3d ∉ f.1)
    (hlen : f.1.length + 1 + f.2.length < 2 ^ 32) : Reads readField encodeField f := by
  have heq : ascii "=" = [0x3d] := by decide
  constructor
  · rw [encodeField, ← List.length_pos_iff, length_wstr]
    omega
  · intro rest
    have hword : ∀ c ∈ f.1, decide (c ≠ 0x3d) = true := fun c hc => by
      rw [decide_eq_true_iff]
      rintro rfl
      exact hkey hc
    rw [readField, encodeField, readBlock_wstr (by rw [heq]; simp; omega), Option.bind_some]
    simp only
    rw [heq, List.append_assoc, List.singleton_append, List.dropWhile_append_of_pos hword,
      List.dropWhile_cons_of_neg (by simp), List.takeWhile_append_of_pos hword,
      List.takeWhile_cons_of_neg (by simp), List.append_nil]

/-- What fits into a record. -/
structure Record.Fits (r : Record) : Prop where
  keys : ∀ f ∈ r.header, 0x3d ∉ f.1 ∧ f.1.length + 1 + f.2.length < 2 ^ 32
  header : (r.header.flatMap encodeField).length < 2 ^ 32
  data : r.data.length < 2 ^ 32

theorem reads_record {r : Record} (h : r.Fits) : Reads readRecord Record.encode r := by
  constructor
  · rw [Record.encode, addRecord, ← List.length_pos_iff, List.length_append, length_wstr]
    omega
  · intro rest
    have hfields : ∀ f ∈ r.header, Reads readField encodeField f := fun f hf =>
      reads_field (h.keys f hf).1 (h.keys f hf).2
    rw [readRecord, Record.encode, addRecord, List.append_assoc, readBlock_wstr h.header,
      Option.bind_some]
    simp only
    rw [readBlock_wstr h.data, Option.bind_some]
    simp only
    rw [readAll, scan_flatMap hfields _ _ (length_le_length_flatMap hfields), Option.map_some,
      map_snd_places]

end DzIpc.Logger
