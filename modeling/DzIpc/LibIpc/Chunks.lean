import DzIpc.LibIpc.IdPool
import DzIpc.LibIpc.Ring
import Mathlib.Data.List.Pairwise

/-!
# Chunk storage

The shared chunks that carry large messages (`ipc.cpp`): one `chunk_info_t` for each chunk
size, with its `id_pool` and the `conns` word at the head of each chunk, and the operations
`acquire_storage`, `release_storage`, `recycle_storage` and `discard_storage`.

A history variable records every id taken from and put back into a pool.

* `Sound` says that the pools are usable and that the history alternates, so that exactly
  the ids that are out have been acquired last.
* `Sound.acquire_some`, `Sound.releaseChunk` and `Sound.retain` are the specifications of the
  operations: what becomes of each chunk's standing and of its `conns` word.
-/

namespace DzIpc.LibIpc

/-- `data_length`, which is also `large_msg_limit`. -/
def dataLength : ℕ := 64

/-- `large_msg_align`. -/
def largeMsgAlign : ℕ := 1024

/-- `make_align`: for an alignment that is a power of two, clearing the low bits rounds down
to a multiple. -/
def makeAlign (align size : ℕ) : ℕ := (size + align - 1) / align * align

/-- `align_chunk_size`. -/
def alignChunkSize (size : ℕ) : ℕ := ((size - 1) / largeMsgAlign + 1) * largeMsgAlign

/-- `calc_chunk_size`, with `alignof(max_align_t) = 16` and a 4-byte `conns` word. -/
def calcChunkSize (size : ℕ) : ℕ := makeAlign 16 (alignChunkSize (makeAlign 16 4 + size))

/-- The doubling loop of `loan_size_class`, with `size_t` of 64 bits. -/
def loanDouble (size : ℕ) : ℕ → ℕ → ℕ
  | 0, c => c
  | fuel + 1, c =>
      if c < size then
        let nxt := 2 * c % 2 ^ 64
        if nxt < c then size else loanDouble size fuel nxt
      else c

/-- `loan_size_class`; 64 doublings pass every `size_t`. -/
def loanSizeClass (size : ℕ) : ℕ :=
  if size ≤ 64 * 1024 then (size + largeMsgAlign - 1) / largeMsgAlign * largeMsgAlign
  else loanDouble size 64 (128 * 1024)

/-- A chunk: the chunk size that names the segment, and the id in it. -/
abbrev ChunkId := ℕ × ℕ

/-- `chunk_info_t` with the `conns` words of its chunks. -/
structure ChunkInfo where
  pool : IdPool
  conns : ℕ → Cc

/-- What happens to an id at its pool. -/
inductive PoolEvent
  | acquired (c : ChunkId)
  | released (c : ChunkId)
  deriving DecidableEq

/-- `chunk_storages`, by chunk size, with the history of the pools, newest first. -/
structure Storage where
  info : ℕ → ChunkInfo
  log : List PoolEvent

/-- The chunk an event is about. -/
def PoolEvent.chunk : PoolEvent → ChunkId
  | acquired c => c
  | released c => c

/-- The newest event about a chunk is that it was acquired. -/
def Held (log : List PoolEvent) (c : ChunkId) : Prop :=
  log.find? (fun e => e.chunk = c) = some (.acquired c)

instance (log : List PoolEvent) (c : ChunkId) : Decidable (Held log c) :=
  inferInstanceAs (Decidable (_ = _))

/-- An id is acquired only when it is not held, and released only when it is. -/
def Alternating : List PoolEvent → Prop
  | [] => True
  | .acquired c :: log => ¬ Held log c ∧ Alternating log
  | .released c :: log => Held log c ∧ Alternating log

namespace Storage

/-- The zeroed segments. -/
def zeroed : Storage := ⟨fun _ => ⟨IdPool.zeroed, fun _ => 0#32⟩, []⟩

/-- The free ids of a chunk size. -/
def free (st : Storage) (k : ℕ) : List ℕ := (st.info k).pool.freeIds

/-- The `conns` word of a chunk. -/
def conns (st : Storage) (c : ChunkId) : Cc := (st.info c.1).conns c.2

/-- Replace the `chunk_info_t` of a chunk size. -/
def setInfo (st : Storage) (k : ℕ) (pool : IdPool) (conns : ℕ → Cc) : Storage :=
  { st with info := Function.update st.info k ⟨pool, conns⟩ }

/-- Extend the history. -/
def record (st : Storage) (e : PoolEvent) : Storage := { st with log := e :: st.log }

/-- `acquire_storage`: the id, or `none` when the pool is exhausted. -/
def acquire (st : Storage) (size : ℕ) (conns : Cc) : Option ℕ × Storage :=
  let k := calcChunkSize size
  match (st.info k).pool.prepare.acquire with
  | (none, pool) => (none, st.setInfo k pool (st.info k).conns)
  | (some id, pool) =>
      (some id, (st.setInfo k pool (Function.update (st.info k).conns id conns)).record
        (.acquired (k, id)))

/-- Put an id back, under its lock. -/
def releaseChunk (st : Storage) (c : ChunkId) : Storage :=
  (st.setInfo c.1 ((st.info c.1).pool.release c.2) (st.info c.1).conns).record (.released c)

/-- `release_storage`. -/
def release (st : Storage) (size id : ℕ) : Storage := st.releaseChunk (calcChunkSize size, id)

/-- Store a `conns` word. -/
def setConns (st : Storage) (c : ChunkId) (conns : Cc) : Storage :=
  st.setInfo c.1 (st.info c.1).pool (Function.update (st.info c.1).conns c.2 conns)

/-- The common part of `recycle_storage` and `discard_storage`: keep the bits of a mask in
the `conns` word, and put the chunk back when none is left. -/
def retain (st : Storage) (c : ChunkId) (mask : Cc) : Storage :=
  let rest := st.conns c &&& mask
  if rest = 0#32 then (st.setConns c rest).releaseChunk c else st.setConns c rest

/-- `recycle_storage`, with `sub_rc` of the broadcast policy. -/
def recycle (st : Storage) (size id : ℕ) (currConns connId : Cc) : Storage :=
  st.retain (calcChunkSize size, id) (currConns &&& ~~~connId)

/-- `discard_storage`. -/
def discard (st : Storage) (size id : ℕ) (remCc : Cc) : Storage :=
  if remCc = 0#32 then st else st.retain (calcChunkSize size, id) (~~~remCc)

/-! ## Standing of a chunk -/

/-- The id has been taken from its pool and not put back. -/
def Out (st : Storage) (c : ChunkId) : Prop := c.2 < maxCount ∧ c.2 ∉ st.free c.1

/-- The pools are usable, and the history agrees with them. -/
structure Sound (st : Storage) : Prop where
  pools : ∀ k, (st.info k).pool.Usable
  alternating : Alternating st.log
  held : ∀ c, c.2 < maxCount → (Held st.log c ↔ c.2 ∉ st.free c.1)

theorem sound_zeroed : Sound zeroed where
  pools := fun _ => IdPool.usable_zeroed
  alternating := trivial
  held := by
    intro c hc
    have hfree : zeroed.free c.1 = List.range' 0 maxCount := IdPool.freeList_zeroed.freeIds_eq
    rw [hfree]
    exact iff_of_false (by simp [Held, zeroed]) (by simp [List.mem_range'_1, hc])

private theorem held_acquired (log : List PoolEvent) (c : ChunkId) :
    Held (.acquired c :: log) c := by
  simp [Held, PoolEvent.chunk]

private theorem not_held_released (log : List PoolEvent) (c : ChunkId) :
    ¬ Held (.released c :: log) c := by
  simp [Held, PoolEvent.chunk]

private theorem held_cons_of_ne {log : List PoolEvent} {e : PoolEvent} {c : ChunkId}
    (h : c ≠ e.chunk) : Held (e :: log) c ↔ Held log c := by
  have hne : decide (e.chunk = c) = false := by simpa using fun heq => h (Eq.symm heq)
  simp [Held, hne]

@[simp] theorem record_info (st : Storage) (e : PoolEvent) : (st.record e).info = st.info := rfl

@[simp] theorem record_log (st : Storage) (e : PoolEvent) : (st.record e).log = e :: st.log := rfl

@[simp] theorem record_free (st : Storage) (e : PoolEvent) (k : ℕ) :
    (st.record e).free k = st.free k := rfl

@[simp] theorem record_conns (st : Storage) (e : PoolEvent) (c : ChunkId) :
    (st.record e).conns c = st.conns c := rfl

@[simp] theorem setInfo_log (st : Storage) (k : ℕ) (pool : IdPool) (conns : ℕ → Cc) :
    (st.setInfo k pool conns).log = st.log := rfl

theorem setInfo_pool (st : Storage) (k : ℕ) (pool : IdPool) (conns : ℕ → Cc) (j : ℕ) :
    ((st.setInfo k pool conns).info j).pool = if j = k then pool else (st.info j).pool := by
  by_cases hj : j = k
  · subst hj
    simp [setInfo]
  · simp [setInfo, hj]

theorem setInfo_free (st : Storage) (k : ℕ) (pool : IdPool) (conns : ℕ → Cc) (j : ℕ) :
    (st.setInfo k pool conns).free j = if j = k then pool.freeIds else st.free j := by
  simp only [free, setInfo_pool]
  split <;> rfl

theorem setInfo_conns (st : Storage) (k : ℕ) (pool : IdPool) (conns : ℕ → Cc) (c : ChunkId) :
    (st.setInfo k pool conns).conns c = if c.1 = k then conns c.2 else st.conns c := by
  by_cases hc : c.1 = k
  · simp [setInfo, Storage.conns, hc]
  · simp [setInfo, Storage.conns, hc]

theorem setConns_pool (st : Storage) (c : ChunkId) (cc : Cc) (j : ℕ) :
    ((st.setConns c cc).info j).pool = (st.info j).pool := by
  simp only [setConns, setInfo_pool]
  split
  · rename_i h
    rw [h]
  · rfl

@[simp] theorem setConns_log (st : Storage) (c : ChunkId) (cc : Cc) :
    (st.setConns c cc).log = st.log := rfl

@[simp] theorem setConns_free (st : Storage) (c : ChunkId) (cc : Cc) (j : ℕ) :
    (st.setConns c cc).free j = st.free j := by
  rw [free, setConns_pool, free]

@[simp] theorem setConns_out (st : Storage) (c d : ChunkId) (cc : Cc) :
    (st.setConns c cc).Out d ↔ st.Out d := by
  simp [Out]

theorem setConns_conns_self (st : Storage) (c : ChunkId) (cc : Cc) :
    (st.setConns c cc).conns c = cc := by
  simp [setConns, setInfo_conns]

theorem setConns_conns_of_ne (st : Storage) {c d : ChunkId} (cc : Cc) (h : d ≠ c) :
    (st.setConns c cc).conns d = st.conns d := by
  simp only [setConns, setInfo_conns]
  split
  · rename_i hk
    rw [Function.update_of_ne (fun hi => h (Prod.ext hk hi)), ← hk]
    rfl
  · rfl

theorem Sound.setConns {st : Storage} (h : Sound st) (c : ChunkId) (cc : Cc) :
    Sound (st.setConns c cc) where
  pools := fun k => by
    rw [setConns_pool]
    exact h.pools k
  alternating := h.alternating
  held := fun d hd => by
    rw [setConns_free]
    exact h.held d hd

/-- `acquire_storage` on an exhausted pool is without effect on any chunk. -/
theorem Sound.acquire_none {st st' : Storage} (h : Sound st) {size : ℕ} {cc : Cc}
    (hacq : st.acquire size cc = (none, st')) :
    Sound st' ∧ ∀ c, (Out st' c ↔ Out st c) ∧ st'.conns c = st.conns c := by
  set k := calcChunkSize size with hk
  obtain ⟨pool, hpool, rfl⟩ : ∃ pool, (st.info k).pool.prepare.acquire = (none, pool) ∧
      st' = st.setInfo k pool (st.info k).conns := by
    simp only [acquire, ← hk] at hacq
    split at hacq
    · rename_i pool hpool
      exact ⟨pool, hpool, (Prod.mk.inj hacq).2.symm⟩
    · simp at hacq
  obtain ⟨-, rfl⟩ := IdPool.acquire_none (h.pools k).freeList hpool
  have hfree : ∀ j, (st.setInfo k (st.info k).pool.prepare (st.info k).conns).free j =
      st.free j := by
    intro j
    rw [setInfo_free]
    split
    · rename_i hj
      rw [IdPool.freeIds_prepare, hj]
      rfl
    · rfl
  refine ⟨⟨?_, h.alternating, ?_⟩, ?_⟩
  · intro j
    rw [setInfo_pool]
    split
    · exact (h.pools k).prepare
    · exact h.pools j
  · intro c hc
    rw [hfree]
    exact h.held c hc
  · intro c
    refine ⟨by simp only [Out, hfree], ?_⟩
    rw [setInfo_conns]
    split
    · rename_i hc
      rw [← hc]
      rfl
    · rfl

/-- `acquire_storage` takes a chunk that was free, sets its `conns` word and leaves the
others alone. -/
theorem Sound.acquire_some {st st' : Storage} (h : Sound st) {size id : ℕ} {cc : Cc}
    (hacq : st.acquire size cc = (some id, st')) :
    Sound st' ∧ ¬ Out st (calcChunkSize size, id) ∧ Out st' (calcChunkSize size, id) ∧
      st'.conns (calcChunkSize size, id) = cc ∧
      ∀ c, c ≠ (calcChunkSize size, id) → (Out st' c ↔ Out st c) ∧ st'.conns c = st.conns c := by
  set k := calcChunkSize size with hk
  obtain ⟨pool, hpool, rfl⟩ : ∃ pool, (st.info k).pool.prepare.acquire = (some id, pool) ∧
      st' = (st.setInfo k pool (Function.update (st.info k).conns id cc)).record
        (.acquired (k, id)) := by
    simp only [acquire, ← hk] at hacq
    split at hacq
    · simp at hacq
    · rename_i i pool hpool
      obtain ⟨hid, hst⟩ := Prod.mk.inj hacq
      obtain rfl := Option.some.inj hid
      exact ⟨pool, hpool, hst.symm⟩
  obtain ⟨husable, hlist, hlt, hnew⟩ := (h.pools k).acquire hpool
  have hin : id ∈ st.free k := by
    rw [free, hlist]
    simp
  -- an id other than the one taken is free after exactly when it was free before
  have hout : ∀ c, c ≠ (k, id) →
      (c.2 ∉ (if c.1 = k then pool.freeIds else st.free c.1) ↔ c.2 ∉ st.free c.1) := by
    intro c hc
    split
    · rename_i hck
      have hi : c.2 ≠ id := fun hi => hc (Prod.ext hck hi)
      rw [hck, free, hlist]
      simp [hi]
    · rfl
  refine ⟨⟨?_, ⟨?_, h.alternating⟩, ?_⟩, fun ho => ho.2 hin, ⟨hlt, ?_⟩, ?_, ?_⟩
  · intro j
    rw [record_info, setInfo_pool]
    split
    · exact husable
    · exact h.pools j
  · rw [setInfo_log, h.held (k, id) hlt]
    exact fun hnot => hnot hin
  · intro c hc
    rw [record_log, setInfo_log, record_free, setInfo_free]
    by_cases hck : c = (k, id)
    · subst hck
      exact iff_of_true (held_acquired _ _) (by simpa using hnew)
    · rw [hout c hck, ← h.held c hc]
      exact held_cons_of_ne hck
  · simpa [setInfo_free] using hnew
  · simp [setInfo_conns]
  · intro c hc
    refine ⟨and_congr_right fun _ => ?_, ?_⟩
    · rw [record_free, setInfo_free]
      exact hout c hc
    · rw [record_conns, setInfo_conns]
      split
      · rename_i hck
        rw [Function.update_of_ne (fun hi => hc (Prod.ext hck hi)), ← hck]
        rfl
      · rfl

/-- Putting back a chunk that is out. -/
theorem Sound.releaseChunk {st : Storage} (h : Sound st) {c : ChunkId} (hc : Out st c) :
    Sound (st.releaseChunk c) ∧ ¬ Out (st.releaseChunk c) c ∧
      (∀ d, d ≠ c → (Out (st.releaseChunk c) d ↔ Out st d)) ∧
      ∀ d, (st.releaseChunk c).conns d = st.conns d := by
  obtain ⟨husable, hlist⟩ := (h.pools c.1).release hc.1 hc.2
  have hfree : ∀ k, (st.releaseChunk c).free k = if k = c.1 then c.2 :: st.free c.1 else st.free k := by
    intro k
    rw [Storage.releaseChunk, record_free, setInfo_free, hlist]
    rfl
  have hout : ∀ d, d ≠ c → (d.2 ∉ (st.releaseChunk c).free d.1 ↔ d.2 ∉ st.free d.1) := by
    intro d hd
    rw [hfree]
    split
    · rename_i hk
      have hi : d.2 ≠ c.2 := fun hi => hd (Prod.ext hk hi)
      rw [hk]
      simp [hi]
    · rfl
  have hself : c.2 ∈ (st.releaseChunk c).free c.1 := by
    rw [hfree]
    simp
  refine ⟨⟨?_, ⟨?_, h.alternating⟩, ?_⟩, fun ho => ho.2 hself, ?_, ?_⟩
  · intro k
    rw [Storage.releaseChunk, record_info, setInfo_pool]
    split
    · exact husable
    · exact h.pools k
  · exact (h.held c hc.1).mpr hc.2
  · intro d hd
    by_cases hdc : d = c
    · subst hdc
      exact iff_of_false (not_held_released _ _) (fun hnot => hnot hself)
    · rw [hout d hdc, ← h.held d hd]
      exact held_cons_of_ne hdc
  · exact fun d hd => and_congr_right fun _ => hout d hd
  · intro d
    rw [Storage.releaseChunk, record_conns, setInfo_conns]
    split
    · rename_i hk
      rw [← hk]
      rfl
    · rfl

/-- Keeping the bits of a mask in the `conns` word of a chunk that is out: the chunk stays
out as long as a bit is left, and no other chunk is affected. -/
theorem Sound.retain {st : Storage} (h : Sound st) {c : ChunkId} (hc : Out st c) (mask : Cc) :
    Sound (st.retain c mask) ∧ (st.retain c mask).conns c = st.conns c &&& mask ∧
      (st.conns c &&& mask ≠ 0#32 → Out (st.retain c mask) c) ∧
      ∀ d, d ≠ c → (Out (st.retain c mask) d ↔ Out st d) ∧
        (st.retain c mask).conns d = st.conns d := by
  unfold Storage.retain
  have hsound := h.setConns c (st.conns c &&& mask)
  have hout : (st.setConns c (st.conns c &&& mask)).Out c := (setConns_out ..).mpr hc
  by_cases hzero : st.conns c &&& mask = 0#32
  · obtain ⟨hs, -, hother, hconns⟩ := hsound.releaseChunk hout
    simp only [hzero, if_true] at hs hother hconns ⊢
    refine ⟨hs, ?_, fun hne => absurd rfl hne, fun d hd => ⟨?_, ?_⟩⟩
    · rw [hconns, setConns_conns_self]
    · rw [hother d hd, setConns_out]
    · rw [hconns, setConns_conns_of_ne _ _ hd]
  · simp only [hzero, if_false]
    refine ⟨hsound, setConns_conns_self .., fun _ => hout, fun d hd => ⟨setConns_out .., ?_⟩⟩
    exact setConns_conns_of_ne _ _ hd

end Storage

end DzIpc.LibIpc
