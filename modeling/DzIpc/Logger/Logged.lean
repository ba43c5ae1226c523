import DzIpc.Logger.Records

/-!
# What the logger leaves behind

* `bagBytes_eq`: a file of the logger is the magic and a list of records.
* `valid_bagBytes`: the records agree with each other, if the chunk has less than 2³² bytes.
* `readEvents_bagBytes`: its messages are those of its events, in order.
* `logged_once`: every run of the logger.
-/

namespace DzIpc.Logger

open Wire

/-! ## The layout of a file -/

/-- The records in front of the connection: those of the chunk, if there is one. -/
def chunkRecords (events : List LogEvent) : List Record :=
  if events = [] then []
  else [chunkRecord (events.flatMap LogEvent.record), indexRecord (chunkOf events).indexEntries]

/-- The records behind the connection. -/
def infoRecords (events : List LogEvent) : List Record :=
  if events = [] then []
  else [infoRecord 4109 (chunkOf events).startTs (chunkOf events).endTs events.length]

/-- The position of the connection. -/
def connPos (events : List LogEvent) : ℕ :=
  4109 + ((chunkRecords events).flatMap Record.encode).length

/-- The records of a file. -/
def fileRecords (events : List LogEvent) : List Record :=
  headerRecord (connPos events) 1 (infoRecords events).length ::
    (chunkRecords events ++ connRecord :: infoRecords events)

theorem length_kBagHdr : kBagHdr.length = 13 := by decide

theorem length_buildBagHeader (indexPos connCount chunkCount : ℕ) :
    (buildBagHeader indexPos connCount chunkCount).length = 4096 := by
  rw [← encode_headerRecord]
  simp [Record.encode, addRecord, headerRecord, encodeField, ascii, -List.reduceReplicate]

theorem length_opened : OpenBag.opened.out.length = 4109 := by
  simp [OpenBag.opened, length_kBagHdr, length_buildBagHeader]

/-- The last write to the chunk. -/
theorem flushCurrentChunk_openedWith (events : List LogEvent) :
    (openedWith events).flushCurrentChunk.out =
        OpenBag.opened.out ++ (chunkRecords events).flatMap Record.encode ∧
      (openedWith events).flushCurrentChunk.chunks.flatMap ChunkInfo.record =
        (infoRecords events).flatMap Record.encode ∧
      (openedWith events).flushCurrentChunk.chunks.length = (infoRecords events).length := by
  rw [OpenBag.flushCurrentChunk, chunkRecords, infoRecords]
  have hmsg : (openedWith events).chunk.msgData = events.flatMap LogEvent.record :=
    msgData_chunkOf events
  simp only [hmsg, flatMap_record_eq_nil]
  split_ifs with hevents
  · simp [openedWith, OpenBag.opened]
  · refine ⟨?_, ?_, rfl⟩
    · simp [encode_chunkRecord, encode_indexRecord, openedWith]
    · simp [encode_infoRecord, openedWith, OpenBag.opened, ChunkInfo.record, connCounts_chunkOf,
        length_kBagHdr, length_buildBagHeader]

theorem rewriteBagHeader_out {b : OpenBag} (hsize : b.bagHeaderSize = 4096) :
    b.rewriteBagHeader.out =
      Blocks.overwrite b.out b.bagHeaderPos (buildBagHeader b.indexPos 1 b.chunks.length) := by
  rw [OpenBag.rewriteBagHeader]
  exact congrArg OpenBag.out (if_neg (by rw [length_buildBagHeader, hsize]; simp))

/-- The header is written over the first one, which is as long. -/
theorem overwrite_header {rest header : List UInt8} (hlen : header.length = 4096) :
    Blocks.overwrite (OpenBag.opened.out ++ rest) 13 header = kBagHdr ++ header ++ rest := by
  have htail : 13 + header.length = (kBagHdr ++ buildBagHeader 0 1 0).length := by
    rw [hlen, List.length_append, length_kBagHdr, length_buildBagHeader]
  rw [Blocks.overwrite, OpenBag.opened, htail, List.drop_left]
  simp only
  rw [List.append_assoc kBagHdr, List.take_left' length_kBagHdr]

theorem bagBytes_eq (events : List LogEvent) :
    bagBytes events = kBagHdr ++ (fileRecords events).flatMap Record.encode := by
  obtain ⟨hout, hinfos, hcount⟩ := flushCurrentChunk_openedWith events
  have hpos : (openedWith events).flushCurrentChunk.bagHeaderPos = 13 ∧
      (openedWith events).flushCurrentChunk.bagHeaderSize = 4096 := by
    rw [OpenBag.flushCurrentChunk]
    split_ifs
    · exact ⟨length_kBagHdr, length_buildBagHeader 0 1 0⟩
    · exact ⟨length_kBagHdr, length_buildBagHeader 0 1 0⟩
  have hconn : (openedWith events).flushCurrentChunk.out.length = connPos events := by
    rw [hout, List.length_append, length_opened, connPos]
  have htail : (openedWith events).flushCurrentChunk.finalizeBagIndex.out =
      OpenBag.opened.out ++ ((chunkRecords events).flatMap Record.encode ++
        (eventsConn ++ (infoRecords events).flatMap Record.encode)) := by
    rw [OpenBag.finalizeBagIndex]
    simp only
    rw [hout, hinfos]
    simp only [List.append_assoc]
  have hsize : (openedWith events).flushCurrentChunk.finalizeBagIndex.bagHeaderSize = 4096 := hpos.2
  have hpos' : (openedWith events).flushCurrentChunk.finalizeBagIndex.bagHeaderPos = 13 := hpos.1
  have hindex : (openedWith events).flushCurrentChunk.finalizeBagIndex.indexPos =
      connPos events := hconn
  have hchunks : (openedWith events).flushCurrentChunk.finalizeBagIndex.chunks.length =
      (infoRecords events).length := hcount
  rw [bagBytes, OpenBag.finalizeCurrentBag, rewriteBagHeader_out hsize, htail, hpos', hindex,
    hchunks, overwrite_header (length_buildBagHeader _ _ _), fileRecords]
  simp [encode_headerRecord, encode_connRecord]

/-! ## Taking a file apart -/

/-- The chunk of these events can be written. -/
def Small (events : List LogEvent) : Prop := (events.flatMap LogEvent.record).length < 2 ^ 32

variable {events : List LogEvent}

theorem length_le_records (events : List LogEvent) :
    12 * events.length ≤ (events.flatMap LogEvent.record).length := by
  induction events with
  | nil => exact Nat.le_refl 0
  | cons e events ih =>
    have hrecord : 12 ≤ e.record.length := by
      rw [← encode_messageRecord]
      simp [Record.encode, addRecord, messageRecord, encodeField]
      omega
    rw [List.flatMap_cons, List.length_append, List.length_cons]
    omega

theorem fileRecords_fit (h : Small events) : ∀ r ∈ fileRecords events, r.Fits := by
  have hindex : 12 * (chunkOf events).indexEntries.length < 2 ^ 32 := by
    rw [indexEntries_chunkOf, List.length_map, length_places]
    exact lt_of_le_of_lt (length_le_records events) h
  have hchunks : ∀ r ∈ chunkRecords events, r.Fits := by
    intro r hr
    rw [chunkRecords] at hr
    split_ifs at hr
    · nomatch hr
    · rcases List.mem_pair.mp hr with rfl | rfl
      · exact chunkRecord_fits h
      · exact indexRecord_fits hindex
  have hinfos : ∀ r ∈ infoRecords events, r.Fits := by
    intro r hr
    rw [infoRecords] at hr
    split_ifs at hr
    · nomatch hr
    · rw [List.mem_singleton.mp hr]
      exact infoRecord_fits _ _ _ _
  intro r hr
  rw [fileRecords, List.mem_cons, List.mem_append, List.mem_cons] at hr
  rcases hr with rfl | hr | rfl | hr
  · exact headerRecord_fits _ _ _
  · exact hchunks r hr
  · exact connRecord_fits
  · exact hinfos r hr

theorem readBag_bagBytes (h : Small events) :
    readBag (bagBytes events) =
      some (places (fun r => r.encode.length) 13 (fileRecords events)) := by
  have hreads : ∀ r ∈ fileRecords events, Reads readRecord Record.encode r := fun r hr =>
    reads_record (fileRecords_fit h r hr)
  have hfuel : (fileRecords events).length ≤ (bagBytes events).length := by
    have hlen := length_le_length_flatMap hreads
    rw [bagBytes_eq, List.length_append]
    omega
  rw [readBag, bagBytes_eq, if_pos (List.take_left' length_kBagHdr),
    List.drop_left' length_kBagHdr, ← bagBytes_eq]
  exact scan_flatMap hreads _ _ hfuel

/-- The messages of a file are those of its events, in order. -/
theorem readEvents_bagBytes (h : Small events) :
    readEvents (bagBytes events) = some (events.map LogEvent.packet) := by
  rw [readEvents, readBag_bagBytes h, Option.bind_some]
  rw [fileRecords, chunkRecords, infoRecords]
  split_ifs with hevents
  · subst hevents
    rfl
  · have hchunk : readChunk (chunkRecord (events.flatMap LogEvent.record)).data =
        some (events.map LogEvent.packet) := readChunk_records h
    simp [places, kOpBagHeader, kOpChunk, kOpIndexData, kOpConnection, kOpChunkInfo, hchunk]

/-! ## A consistent file -/

/-- The time of an event, as a reader of the file gets it. -/
def fileTime (e : LogEvent) : ℕ := rosTime (writeRosTime e.timestampNs.toNat)

/-- The entries of the index are the times and positions of the messages. -/
theorem entries_eq (h : Small events) :
    (((chunkOf events).indexEntries.map seenEntry).map fun p => (some p.1, p.2)) =
      (places (fun r => r.encode.length) 0 (events.map messageRecord)).map fun m =>
        (m.2.time "time", m.1) := by
  rw [indexEntries_chunkOf, places_map]
  simp only [encode_messageRecord, List.map_map]
  apply List.map_congr_left
  intro p hp
  have hpos : p.1 < 2 ^ 32 := by
    have hle := le_of_mem_places hp
    rw [Nat.zero_add, ← List.length_flatMap] at hle
    exact lt_of_le_of_lt hle h
  change (some (rosTime (writeRosTime p.2.timestampNs.toNat)), leNat (w32 p.1)) = _
  rw [leNat_w32 hpos]
  rfl

/-- A chunk starts with its first message and ends with its last. -/
theorem times_chunkOf (hne : events ≠ [])
    (hsorted : (events.map fileTime).Pairwise (· ≤ ·)) :
    ∀ e ∈ events, rosTime (writeRosTime (chunkOf events).startTs) ≤ fileTime e ∧
      fileTime e ≤ rosTime (writeRosTime (chunkOf events).endTs) := by
  intro e he
  constructor
  · obtain ⟨first, rest, rfl⟩ := List.exists_cons_of_ne_nil hne
    rw [startTs_chunkOf]
    rw [List.map_cons, List.pairwise_cons] at hsorted
    rcases List.mem_cons.mp he with rfl | he
    · exact Nat.le_refl _
    · exact hsorted.1 _ (List.mem_map_of_mem he)
  · obtain ⟨init, last, hlast⟩ := (List.eq_nil_or_concat events).resolve_left hne
    rw [List.concat_eq_append] at hlast
    subst hlast
    rw [endTs_chunkOf]
    rw [List.map_append, List.pairwise_append] at hsorted
    rcases List.mem_append.mp he with he | he
    · exact hsorted.2.2 _ (List.mem_map_of_mem he) _ (List.mem_singleton.mpr rfl)
    · rw [List.mem_singleton.mp he]
      exact Nat.le_refl _

theorem describes (h : Small events) (hne : events ≠ []) {records : List (ℕ × Record)}
    (hchunk : (4109, chunkRecord (events.flatMap LogEvent.record)) ∈ records)
    (hindex : ∃ pos, (pos, indexRecord (chunkOf events).indexEntries) ∈ records) :
    Describes records
      (infoRecord 4109 (chunkOf events).startTs (chunkOf events).endTs events.length) 4109
      (chunkRecord (events.flatMap LogEvent.record)) (indexRecord (chunkOf events).indexEntries)
      (places (fun r => r.encode.length) 0 (events.map messageRecord)) := by
  have hcount : events.length < 2 ^ 32 := by
    have hle := length_le_records events
    have hsmall : (events.flatMap LogEvent.record).length < 2 ^ 32 := h
    omega
  have hmessage : ∀ m ∈ places (fun r : Record => r.encode.length) 0 (events.map messageRecord),
      ∃ e ∈ events, m.2 = messageRecord e := by
    intro m hm
    have hsnd := List.mem_map_of_mem hm (f := Prod.snd)
    rw [map_snd_places] at hsnd
    obtain ⟨e, he, heq⟩ := List.mem_map.mp hsnd
    exact ⟨e, he, heq.symm⟩
  have htimes : (places (fun r : Record => r.encode.length) 0 (events.map messageRecord)).map
      (fun m => m.2.time "time") = events.map fun e => some (fileTime e) := by
    have hsnd := map_snd_places (fun r : Record => r.encode.length) 0 (events.map messageRecord)
    have hmap := congrArg (List.map fun r : Record => r.time "time") hsnd
    rw [List.map_map, List.map_map] at hmap
    exact hmap
  refine
    { chunk_pos := ?_, chunk_mem := hchunk, chunk_op := rfl, size := ?_, messages_eq := ?_
      conn := ?_, count := rfl, counts := ?_, index_mem := hindex, index_op := rfl
      index_conn := rfl, index_count := ?_, entries := ?_, times := ?_ }
  · exact congrArg some (leNat_w64 (by omega))
  · exact congrArg some (leNat_w32 h)
  · exact readAll_records h
  · intro m hm
    obtain ⟨e, -, he⟩ := hmessage m hm
    rw [he]
    rfl
  · rw [infoRecord, List.take_left' (length_w32 _), List.drop_left' (length_w32 _),
      leNat_w32 hcount, length_places, List.length_map]
    exact ⟨rfl, rfl⟩
  · have hlen : (chunkOf events).indexEntries.length = events.length := by
      rw [indexEntries_chunkOf, List.length_map, length_places]
    rw [length_places, List.length_map, ← hlen]
    exact congrArg some (leNat_w32 (by rw [hlen]; exact hcount))
  · refine ⟨_, readAll_entries _, ?_⟩
    rw [← entries_eq h]
    have hsnd := map_snd_places (fun p => (writeEntry p).length) 0
      ((chunkOf events).indexEntries.map seenEntry)
    have hmap := congrArg (List.map fun p : ℕ × ℕ => (some p.1, p.2)) hsnd
    rw [List.map_map] at hmap
    exact hmap
  · refine ⟨rosTime (writeRosTime (chunkOf events).startTs),
      rosTime (writeRosTime (chunkOf events).endTs), rfl, rfl, fun hsorted m hm => ?_⟩
    obtain ⟨e, he, heq⟩ := hmessage m hm
    rw [htimes, List.pairwise_map] at hsorted
    have hle := times_chunkOf hne (List.pairwise_map.mpr
      (hsorted.imp fun hab => hab _ rfl _ rfl)) e he
    rw [heq]
    exact ⟨fileTime e, rfl, hle⟩

theorem length_encode_le {r : Record} (h : r.Fits) : r.encode.length < 2 ^ 34 := by
  have hheader := h.header
  have hdata := h.data
  rw [Record.encode, addRecord, List.length_append, length_wstr, length_wstr]
  omega

/-- The records behind the header, where there is a chunk. -/
theorem places_records (hne : events ≠ []) :
    places (fun r : Record => r.encode.length) (13 + 4096)
        (chunkRecords events ++ connRecord :: infoRecords events) =
      [(4109, chunkRecord (events.flatMap LogEvent.record)),
        (4109 + (chunkRecord (events.flatMap LogEvent.record)).encode.length,
          indexRecord (chunkOf events).indexEntries),
        (connPos events, connRecord),
        (connPos events + connRecord.encode.length, infoRecord 4109 (chunkOf events).startTs
          (chunkOf events).endTs events.length)] := by
  have hchunks : chunkRecords events = [chunkRecord (events.flatMap LogEvent.record),
      indexRecord (chunkOf events).indexEntries] := if_neg hne
  have hinfos : infoRecords events =
      [infoRecord 4109 (chunkOf events).startTs (chunkOf events).endTs events.length] := if_neg hne
  have hpos : connPos events = 4109 +
      (chunkRecord (events.flatMap LogEvent.record)).encode.length +
      (indexRecord (chunkOf events).indexEntries).encode.length := by
    rw [connPos, hchunks, List.flatMap_cons, List.flatMap_singleton, List.length_append,
      Nat.add_assoc]
  rw [hchunks, hinfos, hpos]
  rfl

/-- The files of the logger are consistent. -/
theorem valid_bagBytes (h : Small events) : Valid (bagBytes events) := by
  have hread := readBag_bagBytes h
  have hheader : (headerRecord (connPos events) 1 (infoRecords events).length).encode.length =
      4096 := by
    rw [encode_headerRecord, length_buildBagHeader]
  rw [fileRecords, places, hheader] at hread
  refine ⟨_, _, hread, ?_⟩
  by_cases hne : events = []
  · subst hne
    have hrecords : places (fun r : Record => r.encode.length) (13 + 4096)
        (chunkRecords [] ++ connRecord :: infoRecords []) = [(4109, connRecord)] := rfl
    rw [hrecords]
    refine
      { op := rfl, index_pos := ⟨4109, connRecord, rfl, List.mem_singleton.mpr rfl, rfl⟩
        conn_count := rfl, chunk_count := rfl, chunks := rfl, infos := fun r hr hop => ?_ }
    rw [List.mem_singleton.mp hr] at hop
    cases hop
  · have hchunks : chunkRecords events = [chunkRecord (events.flatMap LogEvent.record),
        indexRecord (chunkOf events).indexEntries] := if_neg hne
    have hinfos : infoRecords events =
        [infoRecord 4109 (chunkOf events).startTs (chunkOf events).endTs events.length] :=
      if_neg hne
    have hfits := fileRecords_fit h
    have hconn : connPos events < 2 ^ 64 := by
      have hchunk := length_encode_le (hfits (chunkRecord (events.flatMap LogEvent.record))
        (by simp [fileRecords, hchunks]))
      have hindex := length_encode_le (hfits (indexRecord (chunkOf events).indexEntries)
        (by simp [fileRecords, hchunks]))
      rw [connPos, hchunks, List.flatMap_cons, List.flatMap_singleton, List.length_append]
      omega
    rw [places_records hne, hinfos]
    refine
      { op := rfl, index_pos := ⟨connPos events, connRecord, ?_, ?_, rfl⟩
        conn_count := ?_, chunk_count := ?_, chunks := ?_, infos := fun r hr hop => ?_ }
    · exact congrArg some (leNat_w64 hconn)
    · simp
    · rfl
    · rw [List.length_singleton]
      rfl
    · rfl
    · have hinfo : r.2 = infoRecord 4109 (chunkOf events).startTs (chunkOf events).endTs
          events.length := by
        simp only [List.mem_cons, List.not_mem_nil, or_false] at hr
        rcases hr with rfl | rfl | rfl | rfl
        · cases hop
        · cases hop
        · cases hop
        · rfl
      rw [hinfo]
      exact ⟨_, _, _, _, describes h hne List.mem_cons_self
        ⟨_, List.mem_cons_of_mem _ List.mem_cons_self⟩⟩

/-! ## Runs -/

/-- The messages of some bags, in file order. -/
def messagesOf (bags : List Bag) : Option (List TransportPacket) :=
  (bags.mapM fun g => readEvents g.bytes).map List.flatten

theorem messagesOf_eq {s : Impl} (h : Inv s) (hsmall : ∀ g ∈ s.bags, Small g.events) :
    messagesOf s.bags = some ((s.bags.flatMap Bag.events).map LogEvent.packet) := by
  have hread : ∀ g ∈ s.bags, readEvents g.bytes = some (g.events.map LogEvent.packet) := by
    intro g hg
    rw [h.closed g hg]
    exact readEvents_bagBytes (hsmall g hg)
  rw [messagesOf, mapM_eq_some_map hread, Option.map_some, List.map_flatMap, List.flatMap_def]

/-- Every run of the logger. -/
theorem logged_once {actions : List Action} {s : Impl} (h : machine.run actions = some s) :
    (∀ g ∈ s.bags, Small g.events → Valid g.bytes) ∧
      (s.writer = none → (∀ g ∈ s.bags, Small g.events) →
        messagesOf s.bags =
          some (((s.metadata ++ s.accepted).filter LogEvent.Fits).map LogEvent.packet)) := by
  have hinv := run_inv h
  constructor
  · intro g hg hsmall
    rw [hinv.closed g hg]
    exact valid_bagBytes hsmall
  · intro hstopped hsmall
    obtain ⟨-, -, hlogged, hqueue⟩ := hinv.idle hstopped
    have hheld : s.held = [] := by rw [Impl.held, hstopped]
    have hbalance := hinv.balance
    rw [hlogged, hheld, hqueue, List.append_nil, List.append_nil, List.filter_nil,
      List.append_nil] at hbalance
    rw [hbalance]
    exact messagesOf_eq hinv hsmall

/-! ## A run -/

/-- A publisher that is there when the logger starts. -/
def sampleEntry : Control.InfoPool.EntrySnapshot :=
  { slot := 0, kind := .shmPub, pid := 1, registerTs := 0, heartbeat := 0, topicName := ascii "a"
    typeName := ascii "T", domainId := 0, extra := [], inUse := true, alive := true }

/-- The metadata of the publisher. -/
def sampleMeta : LogEvent :=
  { timestampNs := 1, topic := ascii "a", typeName := ascii "T", domainId := 0, msgId := 0
    transport := .shm, role := .publisher, eventKind := .endpointMeta, payload := none }

/-- What the publisher publishes at a time. -/
def sampleEvent (t : BitVec 64) : LogEvent :=
  { timestampNs := t, topic := ascii "a", typeName := ascii "T", domainId := 0, msgId := 1
    transport := .shm, role := .publisher, eventKind := .publish, payload := some [1, 2] }

/-- Two events are recorded, the later one first. -/
def sampleRun : List Action :=
  [.start ⟨0, 0, 0, 0⟩ [(sampleEntry, 1)], .pop, .append 10, .record (sampleEvent 5) 2, .pop,
    .append 20, .record (sampleEvent 3) 2, .requestStop, .pop, .append 30, .exit, .finishStop]

/-- What the bag of the run holds. -/
def sampleEvents : List LogEvent := [sampleMeta, sampleEvent 5, sampleEvent 3]

theorem run_sampleRun : (machine.run sampleRun).map (fun s =>
    (s.writer, s.metadata, s.accepted, s.bags.map Bag.events)) =
      some (none, [sampleMeta], [sampleEvent 5, sampleEvent 3], [sampleEvents]) := by
  decide +kernel

theorem small_sampleEvents : Small sampleEvents := by
  rw [Small]
  decide +kernel

theorem sampleRun_ends : ∃ s, machine.run sampleRun = some s ∧ s.writer = none ∧
    s.metadata = [sampleMeta] ∧ s.accepted = [sampleEvent 5, sampleEvent 3] ∧
      s.bags.map Bag.events = [sampleEvents] ∧ ∀ g ∈ s.bags, Small g.events := by
  obtain ⟨s, hs, heq⟩ := Option.map_eq_some_iff.mp run_sampleRun
  simp only [Prod.mk.injEq] at heq
  obtain ⟨hwriter, hmeta, haccepted, hbags⟩ := heq
  refine ⟨s, hs, hwriter, hmeta, haccepted, hbags, fun g hg => ?_⟩
  have hmem := List.mem_map_of_mem hg (f := Bag.events)
  rw [hbags, List.mem_singleton] at hmem
  rw [hmem]
  exact small_sampleEvents

theorem logged_once_sampleRun : ∃ s, machine.run sampleRun = some s ∧
    (∀ g ∈ s.bags, Valid g.bytes) ∧
      messagesOf s.bags = some (sampleEvents.map LogEvent.packet) := by
  obtain ⟨s, hs, hwriter, hmeta, haccepted, -, hsmall⟩ := sampleRun_ends
  obtain ⟨hvalid, hmessages⟩ := logged_once hs
  refine ⟨s, hs, fun g hg => hvalid g hg (hsmall g hg), ?_⟩
  rw [hmessages hwriter hsmall, hmeta, haccepted]
  decide +kernel

/-- A message of the file lies behind the end of its chunk. -/
def EndsEarly (file : List UInt8) : Prop :=
  ∃ records info chunk messages message t finish,
    readBag file = some records ∧ info ∈ records ∧ chunk ∈ records ∧
      info.2.num "op" = some kOpChunkInfo ∧ info.2.num "chunk_pos" = some chunk.1 ∧
      readAll readRecord chunk.2.data = some messages ∧ message ∈ messages ∧
      message.2.time "time" = some t ∧ info.2.time "end_time" = some finish ∧ finish < t

theorem endsEarly_sampleEvents : EndsEarly (bagBytes sampleEvents) := by
  have hread := readBag_bagBytes small_sampleEvents
  have hheader : (headerRecord (connPos sampleEvents) 1
      (infoRecords sampleEvents).length).encode.length = 4096 := by
    rw [encode_headerRecord, length_buildBagHeader]
  rw [fileRecords, places, hheader, places_records (by decide)] at hread
  refine ⟨_, _, (4109, chunkRecord (sampleEvents.flatMap LogEvent.record)), _,
    (0 + (messageRecord sampleMeta).encode.length, messageRecord (sampleEvent 5)), 5, 3, hread,
    List.mem_of_mem_getLast? rfl, List.mem_cons_of_mem _ List.mem_cons_self, rfl, rfl,
    readAll_records small_sampleEvents, List.mem_cons_of_mem _ List.mem_cons_self, rfl, ?_,
    by decide⟩
  have hfinish : (chunkOf sampleEvents).endTs = 3 := endTs_chunkOf [sampleMeta, sampleEvent 5] _
  rw [hfinish]
  rfl

/-- The messages of a run are not the events that were recorded, as the metadata comes before;
and where time stamps decrease the times of a chunk do not bound those of its messages. -/
theorem metadata_logged : ∃ actions s, machine.run actions = some s ∧ s.writer = none ∧
    (∀ g ∈ s.bags, Small g.events) ∧ (∀ e ∈ s.accepted, e.Fits) ∧
      messagesOf s.bags ≠ some (s.accepted.map LogEvent.packet) ∧
        ∃ g ∈ s.bags, EndsEarly g.bytes := by
  obtain ⟨s, hs, hwriter, -, haccepted, hbags, hsmall⟩ := sampleRun_ends
  have hinv := run_inv hs
  refine ⟨sampleRun, s, hs, hwriter, hsmall, ?_, fun heq => ?_, ?_⟩
  · rw [haccepted]
    decide
  · rw [messagesOf_eq hinv hsmall, haccepted, List.flatMap_def, hbags] at heq
    exact absurd (congrArg List.length (Option.some.inj heq)) (by decide)
  · obtain ⟨g, hg, hevents⟩ : ∃ g ∈ s.bags, g.events = sampleEvents := by
      rw [← List.mem_map, hbags]
      exact List.mem_singleton.mpr rfl
    refine ⟨g, hg, ?_⟩
    rw [hinv.closed g hg, hevents]
    exact endsEarly_sampleEvents

end DzIpc.Logger
