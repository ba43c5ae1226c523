import DzIpc.Logger.Reading
import Mathlib.Data.List.Induction

/-!
# The records of a bag

What the builders write, as records of fields and data, and what a reader gets back from them.

* `readPacket_serialize`: the data of a message gives the transport packet.
* `readChunk_records`: the data of a chunk gives the packets of its events, in order.
-/

namespace DzIpc.Logger

open Wire

/-! ## Records -/

/-- The record of `build_bag_header`. -/
def headerRecord (indexPos connCount chunkCount : ℕ) : Record :=
  { header := [(ascii "op", [byte kOpBagHeader]), (ascii "index_pos", w64 indexPos),
      (ascii "conn_count", w32 connCount), (ascii "chunk_count", w32 chunkCount)]
    data := List.replicate 4019 0x20 }

/-- The record of `build_msg_in_chunk`, of an event. -/
def messageRecord (e : LogEvent) : Record :=
  { header := [(ascii "conn", w32 0), (ascii "time", writeRosTime e.timestampNs.toNat)]
    data := serializeTransportPacket e.packet }

/-- The record of `build_chunk`. -/
def chunkRecord (msgData : List UInt8) : Record :=
  { header := [(ascii "op", [byte kOpChunk]), (ascii "compression", ascii "none"),
      (ascii "size", w32 msgData.length)]
    data := msgData }

/-- The record of `build_index`, of the connection of every bag. -/
def indexRecord (pairs : List (ℕ × ℕ)) : Record :=
  { header := [(ascii "op", [byte kOpIndexData]), (ascii "conn", w32 0), (ascii "ver", w32 1),
      (ascii "count", w32 pairs.length)]
    data := pairs.flatMap fun p => writeRosTime p.1 ++ w32 p.2 }

/-- The record of `build_conn`, of every bag. -/
def connRecord : Record :=
  { header := [(ascii "op", [byte kOpConnection]), (ascii "conn", w32 0),
      (ascii "topic", ascii "/dzipc_events")]
    data := field "type" (ascii "dzipc_log/TransportPacket") ++
      field "md5sum" (ascii "8e09bafaf5945d951e3b1b219c73eb6c") ++
      field "message_definition" (ascii (
        "uint64 timestamp\nstring topic\nstring type\nuint32 domain_id\nuint32 msg_id\n" ++
        "uint8 transport\nuint8 role\nuint8 event\nuint8[] payload\n")) ++
      field "callerid" (ascii "/dzipc_logger") ++ field "latching" (ascii "0") }

/-- The record of `build_chunk_info`, of a chunk with one connection. -/
def infoRecord (chunkPos start finish count : ℕ) : Record :=
  { header := [(ascii "op", [byte kOpChunkInfo]), (ascii "ver", w32 1),
      (ascii "chunk_pos", w64 chunkPos), (ascii "start_time", writeRosTime start),
      (ascii "end_time", writeRosTime finish), (ascii "count", w32 1)]
    data := w32 0 ++ w32 count }

@[simp] theorem op_headerRecord (indexPos connCount chunkCount : ℕ) :
    (headerRecord indexPos connCount chunkCount).num "op" = some kOpBagHeader := rfl

@[simp] theorem op_chunkRecord (msgData : List UInt8) :
    (chunkRecord msgData).num "op" = some kOpChunk := rfl

@[simp] theorem op_indexRecord (pairs : List (ℕ × ℕ)) :
    (indexRecord pairs).num "op" = some kOpIndexData := rfl

@[simp] theorem op_connRecord : connRecord.num "op" = some kOpConnection := rfl

@[simp] theorem op_infoRecord (chunkPos start finish count : ℕ) :
    (infoRecord chunkPos start finish count).num "op" = some kOpChunkInfo := rfl

theorem encode_headerRecord (indexPos connCount chunkCount : ℕ) :
    (headerRecord indexPos connCount chunkCount).encode =
      buildBagHeader indexPos connCount chunkCount := by
  have hlen : 4096 - (4 * 2 + (fieldU8 "op" kOpBagHeader ++ fieldU64 "index_pos" indexPos ++
      fieldU32 "conn_count" connCount ++ fieldU32 "chunk_count" chunkCount).length) = 4019 := by
    simp [fieldU8, fieldU64, fieldU32, field, ascii]
  rw [buildBagHeader, hlen]
  simp [Record.encode, headerRecord, fieldU8, fieldU64, fieldU32, field, encodeField,
    -List.reduceReplicate]

theorem encode_messageRecord (e : LogEvent) : (messageRecord e).encode = e.record := by
  simp [Record.encode, messageRecord, LogEvent.record, buildMsgInChunk, fieldU32, fieldTime, field,
    encodeField]

theorem encode_chunkRecord (msgData : List UInt8) :
    (chunkRecord msgData).encode = buildChunk msgData := by
  simp [Record.encode, chunkRecord, buildChunk, fieldU8, fieldU32, field, encodeField]

theorem encode_indexRecord (pairs : List (ℕ × ℕ)) :
    (indexRecord pairs).encode = buildIndex 0 pairs := by
  simp [Record.encode, indexRecord, buildIndex, fieldU8, fieldU32, field, encodeField]

theorem encode_connRecord : connRecord.encode = eventsConn := by
  simp [Record.encode, connRecord, eventsConn, buildConn, fieldU8, fieldU32, field, encodeField]

theorem encode_infoRecord (chunkPos start finish count : ℕ) :
    (infoRecord chunkPos start finish count).encode =
      buildChunkInfo chunkPos start finish [(0, count)] := by
  simp [Record.encode, infoRecord, buildChunkInfo, fieldU8, fieldU32, fieldU64, fieldTime, field,
    encodeField]

/-! ## What fits -/

theorem headerRecord_fits (indexPos connCount chunkCount : ℕ) :
    (headerRecord indexPos connCount chunkCount).Fits := by
  refine ⟨?_, ?_, ?_⟩
  · simp [headerRecord, -List.reduceReplicate]
    decide
  · simp [headerRecord, encodeField, ascii, -List.reduceReplicate]
  · simp [headerRecord, -List.reduceReplicate]

theorem messageRecord_fits {e : LogEvent} (h : e.record.length < 2 ^ 32) :
    (messageRecord e).Fits := by
  have hlen : (serializeTransportPacket e.packet).length ≤ e.record.length := by
    simp [LogEvent.record, buildMsgInChunk, addRecord]
    omega
  refine ⟨?_, ?_, lt_of_le_of_lt hlen h⟩
  · simp [messageRecord, writeRosTime]
    decide
  · simp [messageRecord, encodeField, writeRosTime, ascii]

theorem chunkRecord_fits {msgData : List UInt8} (h : msgData.length < 2 ^ 32) :
    (chunkRecord msgData).Fits := by
  refine ⟨?_, ?_, h⟩
  · simp [chunkRecord]
    decide
  · simp [chunkRecord, encodeField, ascii]

theorem indexRecord_fits {pairs : List (ℕ × ℕ)} (h : 12 * pairs.length < 2 ^ 32) :
    (indexRecord pairs).Fits := by
  refine ⟨?_, ?_, ?_⟩
  · simp [indexRecord]
    decide
  · simp [indexRecord, encodeField, ascii]
  · simp [indexRecord, writeRosTime]
    omega

theorem connRecord_fits : connRecord.Fits := by
  refine ⟨?_, ?_, ?_⟩
  · simp [connRecord]
    decide
  · simp [connRecord, encodeField, ascii]
  · simp [connRecord, field, ascii]

theorem infoRecord_fits (chunkPos start finish count : ℕ) :
    (infoRecord chunkPos start finish count).Fits := by
  refine ⟨?_, ?_, ?_⟩
  · simp [infoRecord, writeRosTime]
    decide
  · simp [infoRecord, encodeField, writeRosTime, ascii]
  · simp [infoRecord]

/-! ## Messages -/

theorem readPacket_serialize {p : TransportPacket}
    (h : (serializeTransportPacket p).length < 2 ^ 32) :
    readPacket (serializeTransportPacket p) = some p := by
  have hlen : 8 + (4 + p.topic.length) + (4 + p.type.length) + 8 + 3 + (4 + p.payload.length) =
      (serializeTransportPacket p).length := by
    simp [serializeTransportPacket]
    omega
  have htime : (serializeTransportPacket p).take 8 = w64 p.timestamp.toNat := by
    simp only [serializeTransportPacket, List.append_assoc]
    exact List.take_left' (length_w64 _)
  have htail : (serializeTransportPacket p).drop 8 =
      wstr p.topic ++ (wstr p.type ++ (w32 p.domainId.toNat ++ (w32 p.msgId.toNat ++
        (p.transport :: p.role :: p.event :: (wstr p.payload ++ []))))) := by
    simp only [serializeTransportPacket, List.append_assoc]
    rw [List.drop_left' (length_w64 _)]
    simp
  have hids : ∀ rest, (w32 p.domainId.toNat ++ (w32 p.msgId.toNat ++ rest)).drop 8 = rest := by
    intro rest
    rw [← List.append_assoc]
    exact List.drop_left' (by rw [List.length_append, length_w32, length_w32])
  rw [readPacket, if_neg (by omega), htail, readBlock_wstr (by omega), Option.bind_some]
  simp only
  rw [readBlock_wstr (by omega), Option.bind_some]
  simp only
  rw [hids]
  simp only
  rw [readBlock_wstr (by omega), Option.bind_some, if_pos rfl, htime, leNat_w64 p.timestamp.isLt,
    List.take_left' (length_w32 _), leNat_w32 p.domainId.isLt, List.drop_left' (length_w32 _),
    List.take_left' (length_w32 _), leNat_w32 p.msgId.isLt]
  simp only [BitVec.ofNat_toNat, BitVec.setWidth_eq]

theorem length_record_le {e : LogEvent} {events : List LogEvent} (he : e ∈ events) :
    e.record.length ≤ (events.flatMap LogEvent.record).length := by
  obtain ⟨before, after, rfl⟩ := List.append_of_mem he
  rw [List.flatMap_append, List.flatMap_cons, List.length_append, List.length_append]
  omega

/-- The message records of the data of a chunk. -/
theorem readAll_records {events : List LogEvent}
    (h : (events.flatMap LogEvent.record).length < 2 ^ 32) :
    readAll readRecord (events.flatMap LogEvent.record) =
      some (places (fun r => r.encode.length) 0 (events.map messageRecord)) := by
  have hreads : ∀ r ∈ events.map messageRecord, Reads readRecord Record.encode r := by
    intro r hr
    obtain ⟨e, he, rfl⟩ := List.mem_map.mp hr
    exact reads_record (messageRecord_fits (lt_of_le_of_lt (length_record_le he) h))
  have hencode : (events.map messageRecord).flatMap Record.encode =
      events.flatMap LogEvent.record := by
    rw [List.flatMap_map]
    exact congrArg (events.flatMap ·) (funext encode_messageRecord)
  rw [← hencode, readAll]
  exact scan_flatMap hreads _ _ (length_le_length_flatMap hreads)

theorem readChunk_records {events : List LogEvent}
    (h : (events.flatMap LogEvent.record).length < 2 ^ 32) :
    readChunk (events.flatMap LogEvent.record) = some (events.map LogEvent.packet) := by
  have hpacket : ∀ e ∈ events, readPacket (messageRecord e).data = some e.packet := by
    intro e he
    have hfits := messageRecord_fits (lt_of_le_of_lt (length_record_le he) h)
    exact readPacket_serialize hfits.data
  rw [readChunk, readAll_records h, Option.bind_some]
  have hplaces := map_snd_places (fun r : Record => r.encode.length) 0 (events.map messageRecord)
  calc
    _ = ((places (fun r => r.encode.length) 0 (events.map messageRecord)).map Prod.snd).mapM
          (fun r => readPacket r.data) := by
      rw [List.mapM_map]
      rfl
    _ = events.mapM fun e => readPacket (messageRecord e).data := by
      rw [hplaces, List.mapM_map]
      rfl
    _ = some (events.map LogEvent.packet) := mapM_eq_some_map hpacket

/-! ## Index entries -/

/-- The bytes of an entry. -/
def writeEntry (p : ℕ × ℕ) : List UInt8 := writeRosTime p.1 ++ w32 p.2

/-- What a reader gets for an entry. -/
def seenEntry (p : ℕ × ℕ) : ℕ × ℕ := (rosTime (writeRosTime p.1), leNat (w32 p.2))

@[simp] theorem length_writeRosTime (ns : ℕ) : (writeRosTime ns).length = 8 := by
  rw [writeRosTime, List.length_append, length_w32, length_w32]

theorem writeEntry_seenEntry (p : ℕ × ℕ) : writeEntry (seenEntry p) = writeEntry p := by
  rw [writeEntry, seenEntry, writeRosTime_rosTime, w32_leNat_w32, writeEntry]

theorem reads_entry (p : ℕ × ℕ) : Reads readEntry writeEntry (seenEntry p) := by
  constructor
  · rw [writeEntry_seenEntry, ← List.length_pos_iff, writeEntry, List.length_append, length_w32]
    omega
  · intro rest
    rw [writeEntry_seenEntry]
    have htake : (writeEntry p ++ rest).take 8 = writeRosTime p.1 := by
      rw [writeEntry, List.append_assoc]
      exact List.take_left' (length_writeRosTime _)
    have hdrop : (writeEntry p ++ rest).drop 8 = w32 p.2 ++ rest := by
      rw [writeEntry, List.append_assoc]
      exact List.drop_left' (length_writeRosTime _)
    have hrest : (writeEntry p ++ rest).drop 12 = rest := by
      have hlen : (writeEntry p).length = 12 := by
        rw [writeEntry, List.length_append, length_writeRosTime, length_w32]
      exact List.drop_left' hlen
    rw [readEntry, htake, hdrop, hrest, List.take_left' (length_w32 _), if_neg]
    · rfl
    · rw [writeEntry, List.length_append, List.length_append, length_writeRosTime, length_w32]
      omega

theorem readAll_entries (pairs : List (ℕ × ℕ)) :
    readAll readEntry (indexRecord pairs).data =
      some (places (fun p => (writeEntry p).length) 0 (pairs.map seenEntry)) := by
  have hreads : ∀ p ∈ pairs.map seenEntry, Reads readEntry writeEntry p := by
    intro p hp
    obtain ⟨q, -, rfl⟩ := List.mem_map.mp hp
    exact reads_entry q
  have hdata : (indexRecord pairs).data = (pairs.map seenEntry).flatMap writeEntry := by
    rw [List.flatMap_map]
    exact congrArg (pairs.flatMap ·) (funext fun p => (writeEntry_seenEntry p).symm)
  rw [hdata, readAll]
  exact scan_flatMap hreads _ _ (length_le_length_flatMap hreads)

/-! ## The chunk of a list of events -/

theorem chunkOf_concat (events : List LogEvent) (e : LogEvent) :
    chunkOf (events ++ [e]) = (chunkOf events).append e.timestampNs.toNat e.record := by
  rw [chunkOf, chunkOf, List.foldl_append, List.foldl_cons, List.foldl_nil]

@[simp] theorem msgData_chunkOf (events : List LogEvent) :
    (chunkOf events).msgData = events.flatMap LogEvent.record := by
  induction events using List.reverseRecOn with
  | nil => rfl
  | append_singleton events e ih =>
    rw [chunkOf_concat, ChunkBuf.append, ih, List.flatMap_append, List.flatMap_singleton]

/-- The times of the events, each with the position of its record. -/
theorem indexEntries_chunkOf (events : List LogEvent) :
    (chunkOf events).indexEntries =
      (places (fun e => e.record.length) 0 events).map fun p => (p.2.timestampNs.toNat, p.1) := by
  induction events using List.reverseRecOn with
  | nil => rfl
  | append_singleton events e ih =>
    rw [chunkOf_concat, ChunkBuf.append, ih, msgData_chunkOf, places_append, List.map_append,
      List.length_flatMap]
    simp [places]

theorem connCounts_chunkOf (events : List LogEvent) :
    (chunkOf events).connCounts 0 = events.length := by
  induction events using List.reverseRecOn with
  | nil => rfl
  | append_singleton events e ih =>
    rw [chunkOf_concat, ChunkBuf.append, List.length_append, List.length_singleton, ← ih]
    rfl

theorem record_ne_nil (e : LogEvent) : e.record ≠ [] := by
  rw [← encode_messageRecord, Record.encode, addRecord, ← List.length_pos_iff, List.length_append,
    length_wstr]
  omega

theorem flatMap_record_eq_nil {events : List LogEvent} :
    events.flatMap LogEvent.record = [] ↔ events = [] := by
  cases events with
  | nil => simp
  | cons e events => simp [record_ne_nil]

/-- The chunk starts with its first event. -/
theorem startTs_chunkOf (e : LogEvent) (events : List LogEvent) :
    (chunkOf (e :: events)).startTs = e.timestampNs.toNat := by
  induction events using List.reverseRecOn with
  | nil => rfl
  | append_singleton events last ih =>
    rw [← List.cons_append, chunkOf_concat, ChunkBuf.append, ← ih]
    exact if_neg (by simp [record_ne_nil])

/-- The chunk ends with its last event. -/
theorem endTs_chunkOf (events : List LogEvent) (e : LogEvent) :
    (chunkOf (events ++ [e])).endTs = e.timestampNs.toNat := by
  rw [chunkOf_concat, ChunkBuf.append]

end DzIpc.Logger
