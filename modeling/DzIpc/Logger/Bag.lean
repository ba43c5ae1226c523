import DzIpc.Library.Blocks
import DzIpc.Wire.Paging

/-!
# Bag files

The record builders of `dzipc_log.cc`, which write the ROS bag format 2.0, and the parts of
`LoggerImpl` that make a file of a chunk.  A file is the list of its bytes; `out_` writes at its
end but for the header, which is written anew when the file is complete.  Sizes and positions are
written with 32 or 64 bits, whatever they are.
-/

namespace DzIpc.Logger

open Wire

/-! ## Bytes -/

/-- The bytes of a literal. -/
def ascii (s : String) : List UInt8 := s.toList.map fun c => UInt8.ofNat c.toNat

/-- `w32`. -/
def w32 (v : ℕ) : List UInt8 := leBytes 4 v

/-- `w64`. -/
def w64 (v : ℕ) : List UInt8 := leBytes 8 v

/-- `wstr` and `wbytes`: the size, then the bytes. -/
def wstr (s : List UInt8) : List UInt8 := w32 s.length ++ s

/-- `field` and `binary_field`. -/
def field (key : String) (value : List UInt8) : List UInt8 :=
  wstr (ascii key ++ ascii "=" ++ value)

/-- `field_u8`. -/
def fieldU8 (key : String) (value : ℕ) : List UInt8 := field key [byte value]

/-- `field_u32`. -/
def fieldU32 (key : String) (value : ℕ) : List UInt8 := field key (w32 value)

/-- `field_u64`. -/
def fieldU64 (key : String) (value : ℕ) : List UInt8 := field key (w64 value)

/-- `write_ros_time`. -/
def writeRosTime (ns : ℕ) : List UInt8 := w32 (ns / 1000000000) ++ w32 (ns % 1000000000)

/-- `field_time`. -/
def fieldTime (key : String) (ns : ℕ) : List UInt8 := field key (writeRosTime ns)

/-- `kBagHdr`. -/
def kBagHdr : List UInt8 := ascii "#ROSBAG V2.0\n"

/-! ## Records -/

def kOpBagHeader : ℕ := 0x03
def kOpChunk : ℕ := 0x05
def kOpConnection : ℕ := 0x07
def kOpChunkInfo : ℕ := 0x06
def kOpIndexData : ℕ := 0x04

/-- `add_record`. -/
def addRecord (header data : List UInt8) : List UInt8 := wstr header ++ wstr data

/-- `build_conn`. -/
def buildConn (connId : ℕ) (topic type md5 def_ : List UInt8) : List UInt8 :=
  addRecord (fieldU8 "op" kOpConnection ++ fieldU32 "conn" connId ++ field "topic" topic)
    (field "type" type ++ field "md5sum" md5 ++ field "message_definition" def_ ++
      field "callerid" (ascii "/dzipc_logger") ++ field "latching" (ascii "0"))

/-- The connection record of every bag. -/
def eventsConn : List UInt8 :=
  buildConn 0 (ascii "/dzipc_events") (ascii "dzipc_log/TransportPacket")
    (ascii "8e09bafaf5945d951e3b1b219c73eb6c")
    (ascii ("uint64 timestamp\nstring topic\nstring type\nuint32 domain_id\nuint32 msg_id\n" ++
      "uint8 transport\nuint8 role\nuint8 event\nuint8[] payload\n"))

/-- `build_bag_header`: the record has 4096 bytes. -/
def buildBagHeader (indexPos connCount chunkCount : ℕ) : List UInt8 :=
  let hdr := fieldU8 "op" kOpBagHeader ++ fieldU64 "index_pos" indexPos ++
    fieldU32 "conn_count" connCount ++ fieldU32 "chunk_count" chunkCount
  addRecord hdr (List.replicate (4096 - (4 * 2 + hdr.length)) 0x20)

/-- What `serialize_transport_packet` writes: the fields of the message definition. -/
structure TransportPacket where
  timestamp : BitVec 64
  topic : List UInt8
  type : List UInt8
  domainId : BitVec 32
  msgId : BitVec 32
  transport : UInt8
  role : UInt8
  event : UInt8
  payload : List UInt8
  deriving DecidableEq

/-- `serialize_transport_packet`. -/
def serializeTransportPacket (p : TransportPacket) : List UInt8 :=
  w64 p.timestamp.toNat ++ wstr p.topic ++ wstr p.type ++ w32 p.domainId.toNat ++
    w32 p.msgId.toNat ++ [p.transport, p.role, p.event] ++ wstr p.payload

/-- `build_msg_in_chunk`. -/
def buildMsgInChunk (connId ts : ℕ) (payload : List UInt8) : List UInt8 :=
  addRecord (fieldU32 "conn" connId ++ fieldTime "time" ts) payload

/-- `build_chunk`. -/
def buildChunk (msgData : List UInt8) : List UInt8 :=
  addRecord (fieldU8 "op" kOpChunk ++ field "compression" (ascii "none") ++
    fieldU32 "size" msgData.length) msgData

/-- `build_index`. -/
def buildIndex (connId : ℕ) (pairs : List (ℕ × ℕ)) : List UInt8 :=
  addRecord (fieldU8 "op" kOpIndexData ++ fieldU32 "conn" connId ++ fieldU32 "ver" 1 ++
    fieldU32 "count" pairs.length) (pairs.flatMap fun p => writeRosTime p.1 ++ w32 p.2)

/-- `build_chunk_info`. -/
def buildChunkInfo (chunkPos chunkStartTs chunkEndTs : ℕ) (conns : List (ℕ × ℕ)) : List UInt8 :=
  addRecord (fieldU8 "op" kOpChunkInfo ++ fieldU32 "ver" 1 ++ fieldU64 "chunk_pos" chunkPos ++
    fieldTime "start_time" chunkStartTs ++ fieldTime "end_time" chunkEndTs ++
    fieldU32 "count" conns.length) (conns.flatMap fun c => w32 c.1 ++ w32 c.2)

/-! ## Events -/

inductive TransportKind where
  | shm
  | socket
  deriving DecidableEq, Repr

inductive RoleKind where
  | publisher
  | subscriber
  | client
  | server
  deriving DecidableEq, Repr

inductive EventKind where
  | publish
  | request
  | response
  | endpointMeta
  deriving DecidableEq, Repr

def TransportKind.code : TransportKind → UInt8
  | shm => 0
  | socket => 1

def RoleKind.code : RoleKind → UInt8
  | publisher => 0
  | subscriber => 1
  | client => 2
  | server => 3

def EventKind.code : EventKind → UInt8
  | publish => 0
  | request => 1
  | response => 2
  | endpointMeta => 3

structure LogEvent where
  timestampNs : BitVec 64
  topic : List UInt8
  typeName : List UInt8
  domainId : BitVec 32
  msgId : BitVec 32
  transport : TransportKind
  role : RoleKind
  eventKind : EventKind
  payload : Option (List UInt8)
  deriving DecidableEq

/-- The packet of an event; without a payload it has an empty one. -/
def LogEvent.packet (e : LogEvent) : TransportPacket :=
  ⟨e.timestampNs, e.topic, e.typeName, e.domainId, e.msgId, e.transport.code, e.role.code,
    e.eventKind.code, e.payload.getD []⟩

/-- The message record of an event. -/
def LogEvent.record (e : LogEvent) : List UInt8 :=
  buildMsgInChunk 0 e.timestampNs.toNat (serializeTransportPacket e.packet)

/-- Events that are not given up for the size of their payload. -/
def LogEvent.Fits (e : LogEvent) : Prop := (e.payload.getD []).length ≤ 2 ^ 32 - 1

instance (e : LogEvent) : Decidable e.Fits := Nat.decLe _ _

/-- `serialize_event_to_msg_rec`; an empty result is `none`. -/
def serializeEventToMsgRec (e : LogEvent) : Option (List UInt8) :=
  if e.Fits then some e.record else none

/-! ## Chunks -/

/-- `ChunkBuf`. -/
structure ChunkBuf where
  startTs : ℕ
  endTs : ℕ
  msgData : List UInt8
  indexEntries : List (ℕ × ℕ)
  connCounts : Fin 4 → ℕ

/-- `ChunkBuf{}`. -/
def ChunkBuf.empty : ChunkBuf :=
  { startTs := 0, endTs := 0, msgData := [], indexEntries := [], connCounts := fun _ => 0 }

/-- `append_to_chunk_locked`, on the chunk. -/
def ChunkBuf.append (c : ChunkBuf) (tsNs : ℕ) (msgRec : List UInt8) : ChunkBuf :=
  { startTs := if c.msgData = [] then tsNs else c.startTs
    endTs := tsNs
    msgData := c.msgData ++ msgRec
    indexEntries := c.indexEntries ++ [(tsNs, c.msgData.length)]
    connCounts := fun i => if i = 0 then c.connCounts i + 1 else c.connCounts i }

/-- `ChunkInfo`. -/
structure ChunkInfo where
  chunkPos : ℕ
  startTs : ℕ
  endTs : ℕ
  connIds : List (Fin 4)
  connCounts : Fin 4 → ℕ

/-- What `finalize_bag_index` writes for a chunk. -/
def ChunkInfo.record (ci : ChunkInfo) : List UInt8 :=
  buildChunkInfo ci.chunkPos ci.startTs ci.endTs (ci.connIds.map fun i => (i.val, ci.connCounts i))

/-! ## Files -/

/-- The members that belong to the open bag. -/
structure OpenBag where
  out : List UInt8
  bagHeaderPos : ℕ
  bagHeaderSize : ℕ
  chunk : ChunkBuf
  chunks : List ChunkInfo
  indexPos : ℕ
  bytesWritten : ℕ

namespace OpenBag

/-- A file that has been opened: the magic, and a header with zeros to be filled in. -/
def opened : OpenBag :=
  let bh := buildBagHeader 0 1 0
  { out := kBagHdr ++ bh, bagHeaderPos := kBagHdr.length, bagHeaderSize := bh.length
    chunk := .empty, chunks := [], indexPos := 0, bytesWritten := kBagHdr.length + bh.length }

/-- `flush_current_chunk_locked`. -/
def flushCurrentChunk (b : OpenBag) : OpenBag :=
  if b.chunk.msgData = [] then b
  else
    let chunk := buildChunk b.chunk.msgData
    let idx := buildIndex 0 b.chunk.indexEntries
    { b with
      out := b.out ++ chunk ++ idx
      chunks := b.chunks ++
        [{ chunkPos := b.out.length, startTs := b.chunk.startTs, endTs := b.chunk.endTs
           connIds := [0], connCounts := b.chunk.connCounts }]
      chunk := .empty
      bytesWritten := b.bytesWritten + (chunk.length + idx.length) }

/-- `finalize_bag_index`. -/
def finalizeBagIndex (b : OpenBag) : OpenBag :=
  { b with
    indexPos := b.out.length
    out := b.out ++ eventsConn ++ b.chunks.flatMap ChunkInfo.record }

/-- `rewrite_bag_header`. -/
def rewriteBagHeader (b : OpenBag) : OpenBag :=
  let bh := buildBagHeader b.indexPos 1 b.chunks.length
  if bh.length ≠ b.bagHeaderSize then b
  else { b with out := Blocks.overwrite b.out b.bagHeaderPos bh }

/-- `finalize_current_bag`; the file is closed behind it. -/
def finalizeCurrentBag (b : OpenBag) : OpenBag :=
  b.flushCurrentChunk.finalizeBagIndex.rewriteBagHeader

end OpenBag

end DzIpc.Logger
